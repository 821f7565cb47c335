import FirmwareTransparency.Descriptor.Leaf
import FirmwareTransparency.Proofs.Json.Object

/-!
# Authored leaves

A leaf that is written says what it was written for: every member of the innermost object is a
string, its binary ones in base64, and absent members are left out. Main statement: `parse_author`
says that reading undoes authoring, whatever the texts and the bytes.
-/

set_option autoImplicit false

namespace FirmwareTransparency

open Json

namespace FirmwareInfo

/-- A binary value is written as the text of its base64. -/
theorem writeBinary_eq (bytes : Bytes) : writeBinary bytes = writeText (Base64.textOf bytes) :=
  (writeText_textOf bytes).symm

/-- A binary member is read back from its base64, and is absent if there is none. -/
theorem binary_textOf (member : BinaryMember) (value : Option Bytes) :
    binary member (value.map Base64.textOf) = .ok value := by
  cases value with
  | none => rfl
  | some bytes =>
    simp only [binary, Option.map_some, Base64.utf8_textOf, Base64.decode_encode]

/-! ## The innermost object -/

/-- A field of the innermost object reads back a text. -/
theorem field_decodes (name : String) (get : Draft → Option (Option String))
    (set : Draft → Option String → Draft) (draft : Draft) (text : String) :
    Decodes ((Draft.field name get set).read draft) (writeText text) (set draft (some text)) := by
  intro rest
  show (Json.optional Json.text (writeText text ++ rest) >>= fun result =>
    .ok (set draft result.1, result.2)) = _
  rw [optional_text_decodes text rest]
  rfl

/-- A member that is left out leaves its field blank, one that is written fills it. -/
theorem fills_writeOptional {α : Type} {name : String} {get : Draft → Option (Option String)}
    {set : Draft → Option String → Draft}
    (hfield : shape.fields.find? (fun field => field.name == name) =
      some (Draft.field name get set)) {write : α → Bytes} {spelling : α → String}
    (hwrite : ∀ a, write a = writeText (spelling a)) {draft next : Draft}
    (hget : get draft = none) (value : Option α)
    (hnext : next = value.elim draft fun a => set draft (some (spelling a))) :
    Fills shape draft (writeOptional name write value) next := by
  subst hnext
  cases value with
  | none => exact .nil draft
  | some a =>
    refine .cons hfield ?_ ?_ (.nil _)
    · show (get draft).isSome = false
      rw [hget]
      rfl
    · rw [hwrite]
      exact field_decodes name get set draft (spelling a)

/-- What the innermost object of a document is read as. -/
def draftOf (info : FirmwareInfo) : Draft where
  imageHash := some (some (Base64.textOf info.imageHash.toBytes))
  version := info.version.map some
  platformKey := info.platformKey.map fun key => some (Base64.textOf key)
  manufacturerKeyHash := info.manufacturerKeyHash.map fun hash => some (Base64.textOf hash)
  description := info.description.map some

/-- The members that are written for a record fill the draft of the record. -/
theorem fills_innermost (info : FirmwareInfo) :
    Fills shape shape.blank
      (("vbmeta_hash", writeBinary info.imageHash.toBytes) ::
        writeOptional "version_incremental" writeText info.version ++
        writeOptional "platform_key" writeBinary info.platformKey ++
        writeOptional "manufacturer_key_hash" writeBinary info.manufacturerKeyHash ++
        writeOptional "description" writeText info.description) info.draftOf := by
  obtain ⟨imageHash, version, key, keyHash, description⟩ := info
  let hash := some (some (Base64.textOf imageHash.toBytes))
  let keyText := key.map fun key => some (Base64.textOf key)
  let keyHashText := keyHash.map fun keyHash => some (Base64.textOf keyHash)
  -- One step for each member, in the order in which they are written.
  have h1 : Fills shape shape.blank [("vbmeta_hash", writeBinary imageHash.toBytes)]
      ⟨hash, none, none, none, none⟩ := by
    refine .cons rfl rfl ?_ (.nil _)
    rw [writeBinary_eq]
    exact field_decodes _ _ _ _ _
  have h2 : Fills shape ⟨hash, none, none, none, none⟩
      (writeOptional "version_incremental" writeText version)
      ⟨hash, version.map some, none, none, none⟩ := by
    refine fills_writeOptional rfl (fun _ => rfl) rfl version ?_
    cases version <;> rfl
  have h3 : Fills shape ⟨hash, version.map some, none, none, none⟩
      (writeOptional "platform_key" writeBinary key)
      ⟨hash, version.map some, keyText, none, none⟩ := by
    refine fills_writeOptional rfl writeBinary_eq rfl key ?_
    cases key <;> rfl
  have h4 : Fills shape ⟨hash, version.map some, keyText, none, none⟩
      (writeOptional "manufacturer_key_hash" writeBinary keyHash)
      ⟨hash, version.map some, keyText, keyHashText, none⟩ := by
    refine fills_writeOptional rfl writeBinary_eq rfl keyHash ?_
    cases keyHash <;> rfl
  have h5 : Fills shape ⟨hash, version.map some, keyText, keyHashText, none⟩
      (writeOptional "description" writeText description)
      ⟨hash, version.map some, keyText, keyHashText, description.map some⟩ := by
    refine fills_writeOptional rfl (fun _ => rfl) rfl description ?_
    cases description <;> rfl
  exact (((h1.append h2).append h3).append h4).append h5

/-! ## The document -/

/-- A written document is read back as the draft of its record. -/
theorem toDocument_decodes (info : FirmwareInfo) :
    Decodes documentDecoder info.toDocument info.draftOf := by
  unfold toDocument documentDecoder
  apply single_decodes
  apply single_decodes
  apply single_decodes
  apply single_decodes
  exact record_decodes info.fills_innermost rfl

/-- The draft of a record is checked to be that record. -/
theorem ofDraft_draftOf (info : FirmwareInfo) : ofDraft info.draftOf = .ok info := by
  have hhash : binary .imageHash info.draftOf.imageHash.join = .ok (some info.imageHash.toBytes) :=
    binary_textOf .imageHash (some info.imageHash.toBytes)
  have hkey : info.draftOf.platformKey.join = info.platformKey.map Base64.textOf := by
    cases h : info.platformKey <;> simp [draftOf, h]
  have hkeyHash : info.draftOf.manufacturerKeyHash.join =
      info.manufacturerKeyHash.map Base64.textOf := by
    cases h : info.manufacturerKeyHash <;> simp [draftOf, h]
  have hversion : info.draftOf.version.join = info.version := by
    cases h : info.version <;> simp [draftOf, h]
  have hdescription : info.draftOf.description.join = info.description := by
    cases h : info.description <;> simp [draftOf, h]
  have hfixed := FixedBytes.ofBytes?_eq_some_iff.2 (Eq.refl info.imageHash.toBytes)
  simp only [ofDraft, hhash, hkey, hkeyHash, hversion, hdescription, binary_textOf, bind,
    Except.bind, hfixed]
  rfl

/-- A record is read back from its document. -/
theorem ofDocument_toDocument (info : FirmwareInfo) : ofDocument info.toDocument = .ok info := by
  unfold ofDocument
  rw [document_of_decodes info.toDocument_decodes]
  exact info.ofDraft_draftOf

end FirmwareInfo

/-- An authored leaf says what it was authored for. -/
theorem Leaf.author_valid (info : FirmwareInfo) : (author info).Valid :=
  info.ofDocument_toDocument

/-- Reading the bytes of an authored leaf gives the leaf again, with the same bytes and with what it
was authored for. -/
theorem Leaf.parse_author (info : FirmwareInfo) :
    parse (author info).raw = .ok (author info) ∧ (author info).info = info :=
  ⟨parse_eq_ok_iff.2 ⟨rfl, author_valid info⟩, rfl⟩

end FirmwareTransparency
