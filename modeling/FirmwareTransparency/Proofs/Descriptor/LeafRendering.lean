import FirmwareTransparency.Proofs.Descriptor.LeafDocument
import FirmwareTransparency.Proofs.Json.Writing

/-!
# A leaf means the same however it is written

A firmware image's record can be written in many ways: the members of the innermost object in any
order, absent ones left out or null, any white space, every character raw or by an escape, and any
other members in the four outer objects. All of them are read as the same record. What may not be
done is to repeat a member that is asked for, on any level, or to add one to the innermost object:
a document has its members in one way only, so no such flaw can be read away. Main statement:
`parse_renders`.
-/

set_option autoImplicit false

namespace FirmwareTransparency

open Json

namespace FirmwareInfo

variable {info : FirmwareInfo} {bytes written : Bytes} {given : Given} {members : List Member}

/-- A document of five objects that says the record of a firmware image. -/
def Renders (info : FirmwareInfo) (bytes : Bytes) : Prop :=
  ∃ given, Padded (levels.foldr InObject (WritesMembers given)) bytes ∧ Says given info

/-- A document with a flaw that no rendering may have: on one of the levels the member that is asked
for is there twice, or the innermost object repeats a name or has one that it does not know. -/
inductive Flawed (bytes : Bytes) : Prop where
  | outer {path : List String} {name : String} (hpath : path ++ [name] <+: levels)
      (hrepeats : Padded (ObjectAt path (Repeats [name])) bytes) : Flawed bytes
  | innermost (hmembers : Padded (ObjectAt levels fun members =>
      Repeats memberNames members ∨ HasOther memberNames members) bytes) : Flawed bytes

/-! ## Renderings -/

/-- Every rendering of a record is read as the record. -/
theorem ofDocument_of_renders (h : Renders info bytes) : ofDocument bytes = .ok info := by
  obtain ⟨given, ⟨front, core, back, hfront, hcore, hback, rfl⟩, hsaid⟩ := h
  refine ofDocument_eq_ok_iff.2 ⟨given, ⟨front, core, back, hfront, ?_, hback, rfl⟩, hsaid⟩
  exact foldr_inRecord_of_inObject (fun _ => .inl) hcore

/-! ## Authored documents -/

/-- A written object of one member holds that member alone. -/
theorem inObject_writeObject {inner : Bytes → Prop} (hvalue : inner written) (name : String) :
    InObject name inner (writeObject [(name, written)]) :=
  ⟨[], asMember (name, written), [], isObject_writeObject [(name, written)],
    spells_asMember (name, written), hvalue, List.forall_mem_nil _⟩

/-- An optional value under a name, left out if it is absent. -/
def entryOf {α : Type} (name : String) (spelling : α → String) (value : Option α) : Given :=
  value.toList.map fun a => (name, some (spelling a))

/-- What an authored document gives under its names. -/
def entries (info : FirmwareInfo) : Given :=
  [("vbmeta_hash", some (Base64.textOf info.imageHash.toBytes))] ++
    entryOf "version_incremental" id info.version ++
    entryOf "platform_key" Base64.textOf info.platformKey ++
    entryOf "manufacturer_key_hash" Base64.textOf info.manufacturerKeyHash ++
    entryOf "description" id info.description

/-- A written member with a text gives that text under its name. -/
theorem gives_asMember (name text : String) :
    Gives (asMember (name, writeText text)) (name, some text) :=
  ⟨spells_asMember (name, writeText text), writesText_writeText text⟩

/-- An optional member gives its text under its name, or nothing if it is left out. -/
theorem gives_writeOptional {α : Type} (name : String) (write : α → Bytes) (spelling : α → String)
    (hwrite : ∀ a, write a = writeText (spelling a)) (value : Option α) :
    List.Forall₂ Gives ((writeOptional name write value).map asMember)
      (entryOf name spelling value) := by
  cases value with
  | none => exact .nil
  | some a =>
    refine .cons ?_ .nil
    rw [hwrite]
    exact gives_asMember name (spelling a)

/-- Base64 stands for the bytes that it was written for. -/
theorem bytesOf_textOf (bytes : Bytes) : bytesOf (Base64.textOf bytes) = .ok bytes := by
  rw [bytesOf, Base64.utf8_textOf, Base64.decode_encode]

/-- What an authored document gives says its record. -/
theorem says_entries (info : FirmwareInfo) : Says info.entries info := by
  obtain ⟨hash, version, key, keyHash, description⟩ := info
  constructor <;> cases version <;> cases key <;> cases keyHash <;> cases description <;>
    simp [entries, entryOf, textOf, List.lookup, bytesOf_textOf]

/-- The innermost object of an authored document gives the entries of its record. -/
theorem writesMembers_entries (info : FirmwareInfo) :
    WritesMembers info.entries (writeObject
      (("vbmeta_hash", writeBinary info.imageHash.toBytes) ::
        writeOptional "version_incremental" writeText info.version ++
        writeOptional "platform_key" writeBinary info.platformKey ++
        writeOptional "manufacturer_key_hash" writeBinary info.manufacturerKeyHash ++
        writeOptional "description" writeText info.description)) := by
  refine ⟨_, isObject_writeObject _, ?_, ?_, ?_⟩
  · have hhash : List.Forall₂ Gives
        [asMember ("vbmeta_hash", writeBinary info.imageHash.toBytes)]
        [("vbmeta_hash", some (Base64.textOf info.imageHash.toBytes))] := by
      rw [writeBinary_eq]
      exact .cons (gives_asMember _ _) .nil
    have hversion := gives_writeOptional "version_incremental" writeText id (fun _ => rfl)
      info.version
    have hkey := gives_writeOptional "platform_key" writeBinary _ writeBinary_eq info.platformKey
    have hkeyHash := gives_writeOptional "manufacturer_key_hash" writeBinary _ writeBinary_eq
      info.manufacturerKeyHash
    have hdescription := gives_writeOptional "description" writeText id (fun _ => rfl)
      info.description
    have hall := List.rel_append (List.rel_append (List.rel_append (List.rel_append hhash hversion)
      hkey) hkeyHash) hdescription
    simpa [entries] using hall
  · obtain ⟨hash, version, key, keyHash, description⟩ := info
    cases version <;> cases key <;> cases keyHash <;> cases description <;> simp [entries, entryOf]
  · obtain ⟨hash, version, key, keyHash, description⟩ := info
    cases version <;> cases key <;> cases keyHash <;> cases description <;>
      simp [entries, entryOf, memberNames]

/-- An authored document is a rendering of what it was authored for. -/
theorem renders_toDocument (info : FirmwareInfo) : Renders info info.toDocument := by
  have hcore : levels.foldr InObject (WritesMembers info.entries) info.toDocument := by
    unfold toDocument
    apply inObject_writeObject
    apply inObject_writeObject
    apply inObject_writeObject
    apply inObject_writeObject
    exact writesMembers_entries info
  exact ⟨info.entries, ⟨[], info.toDocument, [], isBlank_nil, hcore, isBlank_nil, by simp⟩,
    says_entries info⟩

/-! ## Flaws -/

/-- The innermost object is a value in both of its forms. -/
theorem isValue_of_writesInnermost (h : WritesInnermost given written) : IsValue written :=
  innermost_reads.isValue _ _ ⟨given, rfl, h⟩

/-- What a list is related to item by item has a part for every part of the list. -/
theorem exists_sublist {α β : Type} {relates : α → β → Prop} {some all : List α} {others : List β}
    (h : some.Sublist all) (hall : List.Forall₂ relates all others) :
    ∃ part, part.Sublist others ∧ List.Forall₂ relates some part := by
  induction h generalizing others with
  | slnil =>
    cases hall
    exact ⟨[], .slnil, .nil⟩
  | cons _ _ ih =>
    cases hall with
    | cons _ hall =>
      obtain ⟨part, hpart, hrelates⟩ := ih hall
      exact ⟨part, hpart.cons _, hrelates⟩
  | cons_cons _ _ ih =>
    cases hall with
    | cons hfirst hall =>
      obtain ⟨part, hpart, hrelates⟩ := ih hall
      exact ⟨_, hpart.cons_cons _, .cons hfirst hrelates⟩

/-- Members that give texts and nulls under distinct names do not repeat a name. -/
theorem not_repeats (hgiven : List.Forall₂ Gives members given)
    (hnodup : (given.map Prod.fst).Nodup) (names : List String) : ¬Repeats names members := by
  rintro ⟨name, -, first, second, hsublist, hfirst, hsecond⟩
  obtain ⟨part, hpart, hrelates⟩ := exists_sublist hsublist hgiven
  cases hrelates with
  | @cons _ entry _ _ hgives hrelates =>
    cases hrelates with
    | @cons _ later _ _ hgivesLater hrelates =>
      cases hrelates
      have hnames : [name, name].Sublist (given.map Prod.fst) := by
        have hmap := hpart.map Prod.fst
        rwa [List.map_cons, List.map_singleton, spells_inj hgives.1 hfirst,
          spells_inj hgivesLater.1 hsecond] at hmap
      exact List.nodup_iff_sublist.1 hnodup name hnames

/-- Each of the members gives something. -/
theorem exists_gives (hgiven : List.Forall₂ Gives members given) {member : Member}
    (hmember : member ∈ members) : ∃ entry ∈ given, Gives member entry := by
  obtain ⟨part, hpart, hrelates⟩ := exists_sublist (List.singleton_sublist.2 hmember) hgiven
  cases hrelates with
  | @cons _ entry _ _ hgives hrelates =>
    cases hrelates
    exact ⟨entry, List.singleton_sublist.1 hpart, hgives⟩

/-- Members that give something under known names have no other names. -/
theorem not_hasOther (hgiven : List.Forall₂ Gives members given)
    (hknown : ∀ entry ∈ given, entry.1 ∈ memberNames) : ¬HasOther memberNames members := by
  rintro ⟨name, hname, member, hmember, hspells⟩
  obtain ⟨entry, hentry, hgives⟩ := exists_gives hgiven hmember
  apply hname
  rw [← spells_inj hgives.1 hspells]
  exact hknown entry hentry

/-- An innermost object that is read neither repeats a name nor has one that is unknown. -/
theorem not_repeats_or_hasOther (hinnermost : WritesInnermost given written)
    (hobject : WellFormedObject members written) :
    ¬(Repeats memberNames members ∨ HasOther memberNames members) := by
  obtain ⟨twins, htwins, hgiven, hnodup, hknown⟩ | ⟨values, harray, -⟩ := hinnermost
  · have htwinsWellFormed : ∀ twin ∈ twins, twin.WellFormed := by
      intro twin htwin
      obtain ⟨entry, -, hname, hvalue⟩ := exists_gives hgiven htwin
      exact ⟨hname.isBody, optional_text_reads.isValue _ _ hvalue⟩
    obtain rfl := hobject.1.members_eq htwins hobject.2 htwinsWellFormed
    rintro (hrepeats | hother)
    · exact not_repeats hgiven hnodup memberNames hrepeats
    · exact not_hasOther hgiven hknown hother
  · exact absurd harray hobject.not_isArray

/-- A flawed document is not read, whatever else stands in it. -/
theorem ofDocument_ne_ok_of_flawed (h : Flawed bytes) : ofDocument bytes ≠ .ok info := by
  intro hok
  obtain ⟨given, hpadded, -⟩ := ofDocument_eq_ok_iff.1 hok
  have hvalue : ∀ core, WritesInnermost given core → IsValue core :=
    fun core => isValue_of_writesInnermost
  cases h with
  | @outer path name hpath hrepeats =>
    obtain ⟨core, hcore, hat⟩ := hpadded.exists_core hrepeats
      (fun core => isValue_of_foldr_inRecord hvalue) fun core => isValue_of_objectAt
    obtain ⟨inside, hlevels⟩ := hpath
    rw [← hlevels, List.append_assoc] at hcore
    obtain ⟨members, object, hobject, hrepeats, hrecord⟩ := exists_of_objectAt hvalue hcore hat
    exact not_repeats_of_inRecord (fun core => isValue_of_foldr_inRecord hvalue) hrecord hobject
      hrepeats
  | innermost hmembers =>
    obtain ⟨core, hcore, hat⟩ := hpadded.exists_core hmembers
      (fun core => isValue_of_foldr_inRecord hvalue) fun core => isValue_of_objectAt
    rw [← List.append_nil levels] at hcore
    obtain ⟨members, object, hobject, hflaw, hinnermost⟩ := exists_of_objectAt hvalue hcore hat
    exact not_repeats_or_hasOther hinnermost hobject hflaw

end FirmwareInfo

open FirmwareInfo

namespace Leaf

/-- Every rendering of a record is read as that record, and its bytes are kept; no document with a
flaw is read at all. -/
theorem parse_renders :
    (∀ info bytes, Renders info bytes → parse bytes = .ok ⟨bytes, info⟩) ∧
      ∀ bytes, Flawed bytes → ∃ cause, parse bytes = .error (.invalidFirmwareLeaf cause) := by
  constructor
  · intro info bytes h
    exact parse_eq_ok_iff.2 ⟨rfl, ofDocument_of_renders h⟩
  · intro bytes h
    unfold parse
    cases hread : ofDocument bytes with
    | ok info => exact absurd hread (ofDocument_ne_ok_of_flawed h)
    | error cause => exact ⟨cause, rfl⟩

/-! ### A rendering and a flaw -/

/-- The name of the image hash with its underscore escaped. -/
def escapedName : Bytes :=
  (Text.utf8 "vbmeta").flatMap escape ++
    ([backslash, 0x75, 0x30, 0x30, 0x35, 0x66] ++ (Text.utf8 "hash").flatMap escape)

/-- An object of two written members with white space around them. -/
def pairObject (front first middle second back : Bytes) : Bytes :=
  openBrace :: (front ++ first ++ (comma :: middle ++ second ++ (back ++ [closeBrace])))

/-- Two written members in braces are an object of both. -/
theorem isObject_pairObject {front first middle second back : Bytes} {member other : Member}
    (hfront : IsBlank front) (hmiddle : IsBlank middle) (hback : IsBlank back)
    (hmember : member.Writes first) (hother : other.Writes second) :
    IsObject [member, other] (pairObject front first middle second back) :=
  ⟨_, .next (.first hfront) hmember (.next (.comma isBlank_nil hmiddle) hother (.done hback)), rfl⟩

/-- An innermost object with a null in front of the hash. -/
def renderedInnermost : Bytes :=
  pairObject [] (writeMember ("description", nullWord)) [0x20]
    (quote :: escapedName ++ quote :: colon :: writeBinary sampleHash.toBytes) []

/-- A document with white space and another member in its outermost object. -/
def renderedDocument : Bytes :=
  pairObject [0x0a] (writeMember ("Size", bracketed nullWord)) []
    (writeMember ("Value", writeObject [("FwInfo", writeObject [("info",
      writeObject [("info", renderedInnermost)])])])) [0x20]

/-- A document that holds the outermost member twice. -/
def repeatedDocument : Bytes := writeObject [("Value", nullWord), ("Value", nullWord)]

/-- An escaped underscore is an underscore. -/
theorem spells_escapedName : Spells "vbmeta_hash".toList escapedName := by
  have hunderscore : SpellsChar '_' [backslash, 0x75, 0x30, 0x30, 0x35, 0x66] :=
    .unit (by decide : unitOf? 0x30 0x30 0x35 0x66 = some 0x5f) rfl rfl
  have hhash : Spells ('_' :: "hash".toList) _ := .cons hunderscore (spells_asMember ("hash", []))
  have hname := (spells_asMember ("vbmeta", [])).append hhash
  exact hname

/-- The innermost object gives a null and the hash. -/
theorem writesMembers_renderedInnermost :
    WritesMembers [("description", none), ("vbmeta_hash", some (Base64.textOf sampleHash.toBytes))]
      renderedInnermost := by
  have hspace : IsBlank [0x20] := List.forall_mem_singleton.2 rfl
  have hhash : Member.Writes ⟨escapedName, writeBinary sampleHash.toBytes⟩
      (quote :: escapedName ++ quote :: colon :: writeBinary sampleHash.toBytes) :=
    ⟨[], [], isBlank_nil, isBlank_nil, by simp⟩
  refine ⟨_, isObject_pairObject isBlank_nil hspace isBlank_nil
    (asMember_writes ("description", nullWord)) hhash, ?_, by decide, by decide⟩
  refine .cons ⟨spells_asMember ("description", nullWord), rfl⟩
    (.cons ⟨spells_escapedName, ?_⟩ .nil)
  rw [writeBinary_eq]
  exact writesText_writeText _

/-- The other member of the outermost object is not the one that is asked for. -/
theorem isOther_size : (asMember ("Size", bracketed nullWord)).IsOther ["Value"] := by
  refine ⟨⟨"Size", by decide, spells_asMember ("Size", _)⟩, ?_⟩
  exact .array (isArray_bracketed nullWord) (List.forall_mem_singleton.2 (.word (by decide)))

/-- The document says a record with a hash and nothing else. -/
theorem renders_renderedDocument :
    Renders ⟨sampleHash, none, none, none, none⟩ renderedDocument := by
  have hspace : IsBlank [0x20] := List.forall_mem_singleton.2 rfl
  have hfeed : IsBlank [0x0a] := List.forall_mem_singleton.2 rfl
  have hcore : levels.foldr InObject (WritesMembers _) renderedDocument :=
    ⟨[_], _, [], isObject_pairObject hfeed isBlank_nil hspace (asMember_writes ("Size", _))
        (asMember_writes ("Value", _)), spells_asMember ("Value", _),
      inObject_writeObject (inObject_writeObject (inObject_writeObject
        writesMembers_renderedInnermost _) _) _, List.forall_mem_singleton.2 isOther_size⟩
  refine ⟨_, ⟨[], renderedDocument, [], isBlank_nil, hcore, isBlank_nil, by simp⟩, ?_⟩
  exact ⟨congrArg some (bytesOf_textOf sampleHash.toBytes), rfl, rfl, rfl, rfl⟩

/-- The document has a flaw on its first level. -/
theorem flawed_repeatedDocument : Flawed repeatedDocument := by
  have hwellFormed : (asMember ("Value", nullWord)).WellFormed :=
    ⟨(spells_asMember ("Value", nullWord)).isBody, .word (by decide)⟩
  have hobject : WellFormedObject _ repeatedDocument :=
    ⟨isObject_writeObject _, List.forall_mem_cons.2 ⟨hwellFormed,
      List.forall_mem_singleton.2 hwellFormed⟩⟩
  have hrepeats : ObjectAt [] (Repeats ["Value"]) repeatedDocument :=
    ⟨_, hobject, "Value", List.mem_singleton_self _, _, _, .refl _,
      spells_asMember ("Value", nullWord), spells_asMember ("Value", nullWord)⟩
  exact .outer (List.prefix_append ["Value"] ["FwInfo", "info", "info"])
    ⟨[], repeatedDocument, [], isBlank_nil, hrepeats, isBlank_nil, by simp⟩

/-- A rendering with all of this is read, and a document with a repeated member is not. -/
theorem parse_renders_example :
    (Renders ⟨sampleHash, none, none, none, none⟩ renderedDocument ∧
      parse renderedDocument = .ok ⟨renderedDocument, ⟨sampleHash, none, none, none, none⟩⟩) ∧
    (Flawed repeatedDocument ∧
      ∃ cause, parse repeatedDocument = .error (.invalidFirmwareLeaf cause)) :=
  ⟨⟨renders_renderedDocument, parse_renders.1 _ _ renders_renderedDocument⟩,
    flawed_repeatedDocument, parse_renders.2 _ flawed_repeatedDocument⟩

end Leaf

end FirmwareTransparency
