import FirmwareTransparency.Proofs.Descriptor.Leaf
import FirmwareTransparency.Proofs.Json.Nested

/-!
# Which documents are leaves

The innermost object gives texts under names that it must know, and the four objects around it are
asked for one member each and ignore the others. Main statements: `ofDocument_eq_ok_iff` says which
bytes are read as which record, and `parse_eq_ok_iff_document` which of them are leaves.
-/

set_option autoImplicit false

namespace FirmwareTransparency

open Json

namespace FirmwareInfo

/-- The names that the innermost object knows, in the order of its array form. -/
def memberNames : List String :=
  ["vbmeta_hash", "version_incremental", "platform_key", "manufacturer_key_hash", "description"]

/-- The member that each of the four outer objects is asked for, the outermost first. -/
def levels : List String := ["Value", "FwInfo", "info", "info"]

/-- The innermost object gives a text or null under some of its names. -/
abbrev Given := List (String × Option String)

/-! ## Drafts by name -/

namespace Draft

variable {draft last : Draft} {name other : String} {given : Given}

/-- What a draft holds under a name. -/
def get (draft : Draft) (name : String) : Option (Option String) :=
  if name = "vbmeta_hash" then draft.imageHash
  else if name = "version_incremental" then draft.version
  else if name = "platform_key" then draft.platformKey
  else if name = "manufacturer_key_hash" then draft.manufacturerKeyHash
  else if name = "description" then draft.description
  else none

/-- Puts a text or null under a name. -/
def put (draft : Draft) (name : String) (value : Option String) : Draft :=
  if name = "vbmeta_hash" then { draft with imageHash := some value }
  else if name = "version_incremental" then { draft with version := some value }
  else if name = "platform_key" then { draft with platformKey := some value }
  else if name = "manufacturer_key_hash" then { draft with manufacturerKeyHash := some value }
  else if name = "description" then { draft with description := some value }
  else draft

/-- Puts everything that is given. -/
def fill (draft : Draft) (given : Given) : Draft :=
  given.foldl (fun draft entry => draft.put entry.1 entry.2) draft

/-- What is put under a name is found there and nowhere else. -/
theorem get_put (hname : name ∈ memberNames) (value : Option String) :
    (draft.put name value).get other = if other = name then some value else draft.get other := by
  simp only [memberNames, List.mem_cons, List.not_mem_nil, or_false] at hname
  by_cases hother : other = name
  · subst hother
    rw [if_pos rfl]
    obtain rfl | rfl | rfl | rfl | rfl := hname <;> simp [get, put]
  · rw [if_neg hother]
    obtain rfl | rfl | rfl | rfl | rfl := hname <;> simp [get, put, hother]

/-- What is given under distinct names is found there, and what the draft had under the others. -/
theorem get_fill (hknown : ∀ entry ∈ given, entry.1 ∈ memberNames)
    (hnodup : (given.map Prod.fst).Nodup) :
    (draft.fill given).get name = (given.lookup name).or (draft.get name) := by
  induction given generalizing draft with
  | nil => rfl
  | cons entry given ih =>
    obtain ⟨hentry, hknown⟩ := List.forall_mem_cons.1 hknown
    obtain ⟨hfresh, hnodup⟩ := List.nodup_cons.1 hnodup
    show ((draft.put entry.1 entry.2).fill given).get name = _
    rw [ih hknown hnodup, get_put hentry, List.lookup_cons]
    by_cases hname : name = entry.1
    · have hnone : given.lookup entry.1 = none := by
        rw [List.lookup_eq_none_iff]
        intro later hlater
        refine bne_iff_ne.2 fun heq => hfresh ?_
        rw [heq]
        exact List.mem_map_of_mem hlater
      rw [hname, beq_self_eq_true, if_pos rfl, hnone]
      rfl
    · rw [beq_eq_false_iff_ne.2 hname, if_neg hname]

end Draft

/-! ## The innermost object -/

variable {draft next last : Draft} {member : Member} {members : List Member} {values : List Bytes}
  {given : Given} {written : Bytes}

/-- A text or null enters the draft under the name of its field. -/
def writesField (field : Json.Field Draft) (draft next : Draft) (written : Bytes) : Prop :=
  ∃ value, next = draft.put field.name value ∧ WritesOptional WritesText value written

/-- A text or null is read exactly where it is written. -/
theorem optional_text_reads : Reads (optional text) (WritesOptional WritesText) := by
  refine optional_reads text_reads ?_
  rintro text written ⟨body, -, rfl⟩ h
  cases h

/-- A field whose value is put under its name reads a text or null. -/
theorem field_reads (name : String) (get : Draft → Option (Option String))
    (set : Draft → Option String → Draft) (draft : Draft)
    (hset : ∀ value, set draft value = draft.put name value) :
    Reads ((Draft.field name get set).read draft)
      (writesField (Draft.field name get set) draft) := by
  refine (optional_text_reads.map (set draft)).congr fun next written => ?_
  simp only [writesField, Draft.field, hset]

/-- Each field of the innermost object reads a text or null. -/
theorem shape_reads : ∀ field ∈ shape.fields, ∀ draft,
    Reads (field.read draft) (writesField field draft) := by
  simp only [shape, List.forall_mem_cons]
  refine ⟨fun draft => field_reads _ _ _ draft fun value => ?_,
    fun draft => field_reads _ _ _ draft fun value => ?_,
    fun draft => field_reads _ _ _ draft fun value => ?_,
    fun draft => field_reads _ _ _ draft fun value => ?_,
    fun draft => field_reads _ _ _ draft fun value => ?_, List.forall_mem_nil _⟩ <;>
    simp [Draft.put]

/-- A field is set exactly if the draft holds something under its name. -/
theorem isSet_eq : ∀ field ∈ shape.fields, ∀ draft,
    field.isSet draft = (draft.get field.name).isSome := by
  simp [shape, Draft.field, Draft.get]

/-- The fields have the known names, in their order. -/
theorem names_eq : shape.fields.map Json.Field.name = memberNames := rfl

/-- A name is known exactly if there is a field for it. -/
theorem mem_memberNames_iff {name : String} :
    name ∈ memberNames ↔ ∃ field ∈ shape.fields, field.name = name := by
  rw [← names_eq, List.mem_map]

/-- A member that gives a text or null under a name. -/
def Gives (member : Member) (entry : String × Option String) : Prop :=
  Spells entry.1.toList member.name ∧ WritesOptional WritesText entry.2 member.value

/-- A draft admits a member exactly if it gives a text or null under a known name that nothing was
given under. -/
theorem admits_iff :
    Admits shape writesField draft member next ↔
      ∃ entry, Gives member entry ∧ entry.1 ∈ memberNames ∧ draft.get entry.1 = none ∧
        next = draft.put entry.1 entry.2 := by
  constructor
  · intro h
    cases h with
    | @known _ name field hname hfield hunset hvalue =>
      obtain ⟨hmem, rfl⟩ := mem_of_find? hfield
      obtain ⟨value, rfl, hvalue⟩ := hvalue
      rw [isSet_eq field hmem, Option.isSome_eq_false_iff, Option.isNone_iff_eq_none] at hunset
      exact ⟨(field.name, value), ⟨hname, hvalue⟩, mem_memberNames_iff.2 ⟨field, hmem, rfl⟩, hunset,
        rfl⟩
    | other _ _ hstrict => cases hstrict
  · rintro ⟨⟨name, value⟩, ⟨hname, hvalue⟩, hknown, hunset, rfl⟩
    obtain ⟨known, hmem, hknown⟩ := mem_memberNames_iff.1 hknown
    have hsome : (shape.fields.find? fun field => field.name == name).isSome = true :=
      List.find?_isSome.2 ⟨known, hmem, beq_iff_eq.2 hknown⟩
    obtain ⟨field, hfield⟩ := Option.isSome_iff_exists.1 hsome
    obtain ⟨hmem, rfl⟩ := mem_of_find? hfield
    refine .known hname hfield ?_ ⟨value, rfl, hvalue⟩
    rw [isSet_eq field hmem, hunset]
    rfl

/-- Members enter a draft exactly if they give texts and nulls under known names that are free, none
of them twice. -/
theorem enters_iff :
    Enters shape writesField draft members last ↔
      ∃ given : Given, List.Forall₂ Gives members given ∧ (given.map Prod.fst).Nodup ∧
        (∀ entry ∈ given, entry.1 ∈ memberNames ∧ draft.get entry.1 = none) ∧
        last = draft.fill given := by
  constructor
  · intro h
    induction h with
    | nil => exact ⟨[], .nil, List.nodup_nil, List.forall_mem_nil _, rfl⟩
    | @cons draft next last member members hadmits _ ih =>
      obtain ⟨entry, hgives, hknown, hunset, rfl⟩ := admits_iff.1 hadmits
      obtain ⟨given, hgiven, hnodup, hfresh, rfl⟩ := ih
      -- What the members behind it are given for is still open once the entry is put.
      have hopen : ∀ later ∈ given, later.1 ≠ entry.1 ∧ draft.get later.1 = none := by
        intro later hlater
        have hlaterUnset := (hfresh later hlater).2
        rw [Draft.get_put hknown] at hlaterUnset
        split_ifs at hlaterUnset with hname
        exact ⟨hname, hlaterUnset⟩
      refine ⟨entry :: given, .cons hgives hgiven, ?_, ?_, rfl⟩
      · refine List.nodup_cons.2 ⟨fun hmem => ?_, hnodup⟩
        obtain ⟨later, hlater, hname⟩ := List.mem_map.1 hmem
        exact (hopen later hlater).1 hname
      · exact List.forall_mem_cons.2
          ⟨⟨hknown, hunset⟩, fun later hlater => ⟨(hfresh later hlater).1, (hopen later hlater).2⟩⟩
  · rintro ⟨given, hgiven, hnodup, hfresh, rfl⟩
    induction hgiven generalizing draft with
    | nil => exact .nil
    | @cons member entry members given hgives _ ih =>
      obtain ⟨⟨hknown, hunset⟩, hfresh⟩ := List.forall_mem_cons.1 hfresh
      obtain ⟨habsent, hnodup⟩ := List.nodup_cons.1 hnodup
      refine .cons (admits_iff.2 ⟨entry, hgives, hknown, hunset, rfl⟩) (ih hnodup ?_)
      intro later hlater
      have hname : later.1 ≠ entry.1 := by
        intro heq
        exact habsent (heq ▸ List.mem_map_of_mem hlater)
      rw [Draft.get_put hknown, if_neg hname]
      exact hfresh later hlater

/-- An element that gives a text or null under the name of its position. -/
def GivesValue (value : Bytes) (entry : String × Option String) : Prop :=
  WritesOptional WritesText entry.2 value

/-- Values enter a draft by their positions exactly if they give texts and nulls for the first of
the names. -/
theorem places_iff {fields : List (Json.Field Draft)} :
    Places writesField fields draft values last ↔
      ∃ given : Given, List.Forall₂ GivesValue values given ∧
        given.map Prod.fst <+: fields.map Json.Field.name ∧ last = draft.fill given := by
  constructor
  · intro h
    induction h with
    | nil => exact ⟨[], .nil, List.nil_prefix, rfl⟩
    | @cons field fields draft next last value values hvalue _ ih =>
      obtain ⟨text, rfl, htext⟩ := hvalue
      obtain ⟨given, hgiven, hprefix, rfl⟩ := ih
      exact ⟨(field.name, text) :: given, .cons htext hgiven,
        List.cons_prefix_cons.2 ⟨rfl, hprefix⟩, rfl⟩
  · rintro ⟨given, hgiven, hprefix, rfl⟩
    induction hgiven generalizing draft fields with
    | nil => exact .nil
    | @cons value entry values given hvalue _ ih =>
      cases fields with
      | nil => cases List.prefix_nil.1 hprefix
      | cons field fields =>
        obtain ⟨hname, hprefix⟩ := List.cons_prefix_cons.1 hprefix
        exact .cons ⟨entry.2, by rw [← hname], hvalue⟩ (ih hprefix)

/-- An object that gives texts and nulls under names that it knows, none of them twice. -/
def WritesMembers (given : Given) (written : Bytes) : Prop :=
  ∃ members, IsObject members written ∧ List.Forall₂ Gives members given ∧
    (given.map Prod.fst).Nodup ∧ ∀ entry ∈ given, entry.1 ∈ memberNames

/-- An array that gives texts and nulls for the first of the names. -/
def WritesValues (given : Given) (written : Bytes) : Prop :=
  ∃ values, IsArray values written ∧ List.Forall₂ GivesValue values given ∧
    given.map Prod.fst <+: memberNames

/-- The innermost object in one of its two forms. -/
def WritesInnermost (given : Given) (written : Bytes) : Prop :=
  WritesMembers given written ∨ WritesValues given written

/-- The innermost object is read exactly where it gives texts and nulls in one of its two forms. -/
theorem innermost_reads :
    Reads (record shape) fun draft written =>
      ∃ given, draft = shape.blank.fill given ∧ WritesInnermost given written := by
  refine (record_reads shape_reads).congr fun draft written => ?_
  constructor
  · rintro ⟨_, ⟨⟩, ⟨members, hobject, henters⟩ | ⟨values, harray, hplaces⟩⟩
    · obtain ⟨given, hgiven, hnodup, hknown, rfl⟩ := enters_iff.1 henters
      exact ⟨given, rfl, .inl ⟨members, hobject, hgiven, hnodup, fun entry h => (hknown entry h).1⟩⟩
    · obtain ⟨given, hgiven, hprefix, rfl⟩ := places_iff.1 hplaces
      exact ⟨given, rfl, .inr ⟨values, harray, hgiven, hprefix⟩⟩
  · rintro ⟨given, rfl, ⟨members, hobject, hgiven, hnodup, hknown⟩ |
      ⟨values, harray, hgiven, hprefix⟩⟩
    · refine ⟨_, rfl, .inl ⟨members, hobject, enters_iff.2 ⟨given, hgiven, hnodup, ?_, rfl⟩⟩⟩
      exact fun entry hentry => ⟨hknown entry hentry, by simp [Draft.get, shape]⟩
    · exact ⟨_, rfl, .inr ⟨values, harray, places_iff.2 ⟨given, hgiven, hprefix, rfl⟩⟩⟩

/-- No name is given twice in either form. -/
theorem WritesInnermost.nodup (h : WritesInnermost given written) :
    (∀ entry ∈ given, entry.1 ∈ memberNames) ∧ (given.map Prod.fst).Nodup := by
  obtain ⟨_, -, -, hnodup, hknown⟩ | ⟨_, -, -, hprefix⟩ := h
  · exact ⟨hknown, hnodup⟩
  · refine ⟨fun entry hentry => hprefix.subset (List.mem_map_of_mem hentry), ?_⟩
    exact List.Nodup.sublist hprefix.sublist (by decide)

/-! ## The document -/

/-- A document is read exactly where the innermost object stands inside of the four around it. -/
theorem documentDecoder_reads :
    Reads documentDecoder fun draft written =>
      ∃ given, draft = shape.blank.fill given ∧
        levels.foldr InRecord (WritesInnermost given) written := by
  refine Reads.congr (single_reads (single_reads (single_reads (single_reads innermost_reads))))
    fun draft written => ?_
  exact foldr_inRecord_exists_iff levels

/-! ## What a document says -/

/-- The text that is given under a name. -/
def textOf (given : Given) (name : String) : Option String := (given.lookup name).join

/-- The bytes that a text stands for. -/
def bytesOf (text : String) : Except Base64.Error Bytes := Base64.decode (Text.utf8 text)

/-- What is given under the known names says the parts of a firmware image's record: the hash must
be there, binary parts are in base64, and null says as much as nothing. -/
structure Says (given : Given) (info : FirmwareInfo) : Prop where
  imageHash : (textOf given "vbmeta_hash").map bytesOf = some (.ok info.imageHash.toBytes)
  version : textOf given "version_incremental" = info.version
  platformKey : (textOf given "platform_key").map bytesOf = info.platformKey.map .ok
  manufacturerKeyHash :
    (textOf given "manufacturer_key_hash").map bytesOf = info.manufacturerKeyHash.map .ok
  description : textOf given "description" = info.description

/-- A binary member is accepted exactly if it is absent or its text is base64. -/
theorem binary_eq_ok_iff {kind : BinaryMember} {text : Option String} {bytes : Option Bytes} :
    binary kind text = .ok bytes ↔ text.map bytesOf = bytes.map .ok := by
  cases text with
  | none => cases bytes <;> simp [binary]
  | some text =>
    rw [binary, Option.map_some, bytesOf]
    cases h : Base64.decode (Text.utf8 text) <;> cases bytes <;> simp

/-- A draft is a record exactly if it holds the texts of the record's parts, with the hash among
them. -/
theorem ofDraft_eq_ok_iff {info : FirmwareInfo} :
    ofDraft draft = .ok info ↔
      binary .imageHash draft.imageHash.join = .ok (some info.imageHash.toBytes) ∧
      draft.version.join = info.version ∧
      binary .platformKey draft.platformKey.join = .ok info.platformKey ∧
      binary .manufacturerKeyHash draft.manufacturerKeyHash.join = .ok info.manufacturerKeyHash ∧
      draft.description.join = info.description := by
  constructor
  · intro h
    obtain ⟨found, hfound, h⟩ := bind_eq_ok_iff.1 h
    cases found with
    | none => cases h
    | some bytes =>
      simp only at h
      split at h
      · cases h
      · next hash hhash =>
        obtain ⟨key, hkey, h⟩ := bind_eq_ok_iff.1 h
        obtain ⟨keyHash, hkeyHash, h⟩ := bind_eq_ok_iff.1 h
        cases h
        obtain rfl := FixedBytes.ofBytes?_eq_some_iff.1 hhash
        exact ⟨hfound, rfl, hkey, hkeyHash, rfl⟩
  · rintro ⟨hhash, hversion, hkey, hkeyHash, hdescription⟩
    have hfixed := FixedBytes.ofBytes?_eq_some_iff.2 (Eq.refl info.imageHash.toBytes)
    simp only [ofDraft, hhash, hkey, hkeyHash, hversion, hdescription, bind, Except.bind, hfixed]
    rfl

/-- What is given is a record exactly if it says the parts of the record. -/
theorem ofDraft_fill_eq_ok_iff {info : FirmwareInfo}
    (hknown : ∀ entry ∈ given, entry.1 ∈ memberNames) (hnodup : (given.map Prod.fst).Nodup) :
    ofDraft (shape.blank.fill given) = .ok info ↔ Says given info := by
  have hget : ∀ name, (shape.blank.fill given).get name = given.lookup name := by
    intro name
    have hblank : Draft.get shape.blank name = none := by simp [Draft.get, shape]
    rw [Draft.get_fill hknown hnodup, hblank, Option.or_none]
  generalize shape.blank.fill given = draft at hget
  have hfields : draft.imageHash = given.lookup "vbmeta_hash" ∧
      draft.version = given.lookup "version_incremental" ∧
      draft.platformKey = given.lookup "platform_key" ∧
      draft.manufacturerKeyHash = given.lookup "manufacturer_key_hash" ∧
      draft.description = given.lookup "description" := by
    refine ⟨?_, ?_, ?_, ?_, ?_⟩ <;> rw [← hget] <;> simp [Draft.get]
  obtain ⟨hhash, hversion, hkey, hkeyHash, hdescription⟩ := hfields
  rw [ofDraft_eq_ok_iff, hhash, hversion, hkey, hkeyHash, hdescription]
  simp only [binary_eq_ok_iff]
  constructor
  · rintro ⟨h1, h2, h3, h4, h5⟩
    exact ⟨h1, h2, h3, h4, h5⟩
  · rintro ⟨h1, h2, h3, h4, h5⟩
    exact ⟨h1, h2, h3, h4, h5⟩

/-- A document is read exactly if white space stands around what gives texts and nulls in the
innermost object. -/
theorem document_eq_ok_iff_fill {bytes : Bytes} :
    document documentDecoder bytes = .ok draft ↔
      ∃ given, draft = shape.blank.fill given ∧
        Padded (levels.foldr InRecord (WritesInnermost given)) bytes := by
  rw [document_eq_ok_iff documentDecoder_reads]
  constructor
  · rintro ⟨front, core, back, hfront, ⟨given, rfl, hcore⟩, hback, rfl⟩
    exact ⟨given, rfl, front, core, back, hfront, hcore, hback, rfl⟩
  · rintro ⟨given, rfl, front, core, back, hfront, hcore, hback, rfl⟩
    exact ⟨front, core, back, hfront, ⟨given, rfl, hcore⟩, hback, rfl⟩

/-- A document is a leaf for what it says exactly if its objects have the right shape. -/
theorem ofDocument_eq_ok_iff {bytes : Bytes} {info : FirmwareInfo} :
    ofDocument bytes = .ok info ↔
      ∃ given, Padded (levels.foldr InRecord (WritesInnermost given)) bytes ∧ Says given info := by
  have hsaid : ∀ {given}, Padded (levels.foldr InRecord (WritesInnermost given)) bytes →
      (ofDraft (shape.blank.fill given) = .ok info ↔ Says given info) := by
    rintro given ⟨_, core, _, -, hcore, -, -⟩
    obtain ⟨_, hinnermost⟩ := exists_of_foldr_inRecord hcore
    obtain ⟨hknown, hnodup⟩ := hinnermost.nodup
    exact ofDraft_fill_eq_ok_iff hknown hnodup
  constructor
  · intro h
    unfold ofDocument at h
    split at h
    · next draft hdraft =>
      obtain ⟨given, rfl, hpadded⟩ := document_eq_ok_iff_fill.1 hdraft
      exact ⟨given, hpadded, (hsaid hpadded).1 h⟩
    · cases h
  · rintro ⟨given, hpadded, h⟩
    rw [ofDocument, document_eq_ok_iff_fill.2 ⟨given, rfl, hpadded⟩]
    exact (hsaid hpadded).2 h

end FirmwareInfo

open FirmwareInfo

namespace Leaf

/-- What is read as a leaf is a document of four objects of one required member each around an
object that knows every name and has none twice, each of them also as an array, and it says what is
read from it. -/
theorem parse_eq_ok_iff_document {bytes : Bytes} {leaf : Leaf} :
    parse bytes = .ok leaf ↔
      leaf.raw = bytes ∧ ∃ given, Padded (levels.foldr InRecord (WritesInnermost given)) bytes ∧
        Says given leaf.info := by
  rw [parse_eq_ok_iff, ← ofDocument_eq_ok_iff]
  constructor
  · rintro ⟨rfl, hvalid⟩
    exact ⟨rfl, hvalid⟩
  · rintro ⟨rfl, hvalid⟩
    exact ⟨rfl, hvalid⟩

/-! ### A leaf without any object -/

/-- The array of one value. -/
def bracketed (value : Bytes) : Bytes := openBracket :: value ++ [closeBracket]

/-- An image hash for an example. -/
def sampleHash : Digest := ⟨List.replicate 32 7, rfl⟩

/-- Arrays in place of all five objects. -/
def bareDocument : Bytes :=
  bracketed (bracketed (bracketed (bracketed (bracketed (writeBinary sampleHash.toBytes)))))

/-- A value in brackets is the array of it. -/
theorem isArray_bracketed (value : Bytes) : IsArray [value] (bracketed value) :=
  ⟨value ++ [closeBracket], .next (.first isBlank_nil) rfl (.done isBlank_nil), rfl⟩

/-- Arrays in place of all five objects are read as a leaf. -/
theorem parse_bareDocument :
    parse bareDocument = .ok ⟨bareDocument, ⟨sampleHash, none, none, none, none⟩⟩ := by
  have hvalue : WritesText (Base64.textOf sampleHash.toBytes) (writeBinary sampleHash.toBytes) := by
    rw [writeBinary_eq]
    exact writesText_writeText _
  refine parse_eq_ok_iff.2 ⟨rfl, ofDocument_eq_ok_iff.2
    ⟨[("vbmeta_hash", some (Base64.textOf sampleHash.toBytes))], ?_, ?_⟩⟩
  · refine ⟨[], bareDocument, [], isBlank_nil, ?_, isBlank_nil, by simp⟩
    exact .inr ⟨_, isArray_bracketed _, .inr ⟨_, isArray_bracketed _, .inr ⟨_, isArray_bracketed _,
      .inr ⟨_, isArray_bracketed _, .inr ⟨_, isArray_bracketed _, .cons hvalue .nil, by decide⟩⟩⟩⟩⟩
  · refine ⟨?_, rfl, rfl, rfl, rfl⟩
    rw [textOf, List.lookup_cons_self, Option.join_some, Option.map_some, bytesOf,
      Base64.utf8_textOf, Base64.decode_encode]

/-- Not every leaf is made of objects. -/
theorem not_forall_leaf_objects :
    ¬∀ bytes leaf, parse bytes = .ok leaf →
      ∃ given, Padded (levels.foldr InObject (WritesMembers given)) bytes := by
  intro h
  obtain ⟨given, front, core, back, hfront, hcore, -, hbytes⟩ := h _ _ parse_bareDocument
  obtain ⟨_, _, _, ⟨inside, -, rfl⟩, -⟩ := hcore
  have hskip := congrArg skipSpace hbytes
  rw [List.append_assoc, List.cons_append, skipSpace_token hfront (by decide)] at hskip
  cases hskip

end Leaf

end FirmwareTransparency
