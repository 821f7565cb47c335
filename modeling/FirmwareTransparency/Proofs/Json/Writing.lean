import FirmwareTransparency.Proofs.Json.Object
import FirmwareTransparency.Proofs.Json.Spelling
import FirmwareTransparency.Proofs.Text.Utf8

/-!
# What is written obeys the grammar

Written texts and objects are forms that the grammar allows, and what is put together from them is
UTF-8: escaping touches no byte outside ASCII, and all structural bytes are ASCII. Main statements:
`isObject_writeObject` and `isUtf8_writeObject`.
-/

set_option autoImplicit false

namespace FirmwareTransparency.Json

open Text (IsUtf8 isUtf8_of_all)

/-! ## Objects -/

/-- A written member, with the body of its name. -/
def asMember (member : String × Bytes) : Member :=
  ⟨(Text.utf8 member.1).flatMap escape, member.2⟩

/-- The name of a written member spells the name that it was written for. -/
theorem spells_asMember (member : String × Bytes) :
    Spells member.1.toList (asMember member).name := by
  obtain ⟨body, hspells, heq⟩ := writesText_writeText member.1
  obtain rfl := List.append_cancel_right (List.cons.inj heq).2
  exact hspells

/-- A written member obeys the grammar of members. -/
theorem asMember_writes (member : String × Bytes) :
    (asMember member).Writes (writeMember member) :=
  ⟨[], [], isBlank_nil, isBlank_nil, by simp [writeMember, writeText, asMember]⟩

/-- The members written behind a first one are the items that stand behind it. -/
theorem items_behind (list : List (String × Bytes)) :
    Items Member.Writes closeBrace false (list.map asMember)
      ((list.flatMap fun member => comma :: writeMember member) ++ [closeBrace]) := by
  induction list with
  | nil => exact .done isBlank_nil
  | cons member list ih =>
    rw [List.map_cons, List.flatMap_cons, List.append_assoc]
    exact .next (.comma isBlank_nil isBlank_nil) (asMember_writes member) ih

/-- A written object is an object of its members, in their order. -/
theorem isObject_writeObject (list : List (String × Bytes)) :
    IsObject (list.map asMember) (writeObject list) := by
  refine ⟨writeMembers list ++ [closeBrace], ?_, rfl⟩
  cases list with
  | nil => exact .done isBlank_nil
  | cons member list =>
    have hitems := Items.next (.first isBlank_nil) (asMember_writes member) (items_behind list)
    rwa [List.nil_append, ← List.append_assoc, ← writeMembers_cons] at hitems

/-! ## Bytes of texts -/

/-- An ASCII byte is written as UTF-8, escaped or not. -/
theorem isUtf8_escape {byte : UInt8} (h : byte < 0x80) : IsUtf8 (escape byte) := by
  unfold escape
  split_ifs
  · exact isUtf8_of_all (by decide)
  · exact isUtf8_of_all (by decide)
  · exact isUtf8_of_all (by decide)
  · exact isUtf8_of_all (by decide)
  · exact isUtf8_of_all (by decide)
  · exact isUtf8_of_all (by decide)
  · exact isUtf8_of_all (by decide)
  · have hmark : IsUtf8 [backslash, 0x75, 0x30, 0x30] := isUtf8_of_all (by decide)
    exact hmark.append ⟨_, rfl⟩
  · exact isUtf8_of_all (by simpa using h)

/-- A byte that is no ASCII is written as it is. -/
theorem escape_of_le {byte : UInt8} (h : 0x80 ≤ byte) : escape byte = [byte] := by
  have hbyte : ∀ code < 256, 128 ≤ code → escape (UInt8.ofNat code) = [UInt8.ofNat code] := by
    decide +kernel
  have hescape := hbyte byte.toNat byte.toNat_lt (UInt8.le_iff_toNat_le.1 h)
  rwa [UInt8.ofNat_toNat] at hescape

/-- The bytes of a character are written as UTF-8: only those of ASCII characters are escaped. -/
theorem isUtf8_flatMap_escape (c : Char) : IsUtf8 ((String.utf8EncodeChar c).flatMap escape) := by
  by_cases hc : c.toNat < 128
  · have hbyte : UInt8.ofNat c.toNat < 0x80 := by
      rw [UInt8.lt_iff_toNat_lt, UInt8.toNat_ofNat_of_lt' (Nat.lt_trans hc (by decide))]
      exact hc
    rw [Text.utf8EncodeChar_of_lt hc, List.flatMap_singleton]
    exact isUtf8_escape hbyte
  · have hbytes := Text.le_of_mem_utf8EncodeChar (Nat.le_of_not_lt hc)
    have hescape : (String.utf8EncodeChar c).flatMap escape = String.utf8EncodeChar c := by
      rw [List.flatMap_congr fun byte hbyte => escape_of_le (hbytes byte hbyte)]
      exact List.flatMap_singleton' _
    rw [hescape]
    exact Text.isUtf8_utf8EncodeChar c

/-- A written text is UTF-8. -/
theorem isUtf8_writeText (text : String) : IsUtf8 (writeText text) := by
  have hquote : IsUtf8 [quote] := isUtf8_of_all (by decide)
  have hbody : IsUtf8 ((Text.utf8 text).flatMap escape) := by
    rw [Text.utf8_eq_flatMap, List.flatMap_assoc]
    exact Text.isUtf8_flatMap fun c _ => isUtf8_flatMap_escape c
  exact (hquote.append hbody).append hquote

/-- A written member is UTF-8 if its value is. -/
theorem isUtf8_writeMember {member : String × Bytes} (h : IsUtf8 member.2) :
    IsUtf8 (writeMember member) := by
  have hcolon : IsUtf8 [colon] := isUtf8_of_all (by decide)
  exact (isUtf8_writeText member.1).append (hcolon.append h)

/-- A written object is UTF-8 if the values of its members are. -/
theorem isUtf8_writeObject {list : List (String × Bytes)} (h : ∀ member ∈ list, IsUtf8 member.2) :
    IsUtf8 (writeObject list) := by
  have hopen : IsUtf8 [openBrace] := isUtf8_of_all (by decide)
  have hclose : IsUtf8 [closeBrace] := isUtf8_of_all (by decide)
  have hcomma : IsUtf8 [comma] := isUtf8_of_all (by decide)
  have hmembers : IsUtf8 (writeMembers list) := by
    cases list with
    | nil => exact isUtf8_of_all rfl
    | cons member list =>
      obtain ⟨hmember, hlist⟩ := List.forall_mem_cons.1 h
      rw [writeMembers_cons]
      apply (isUtf8_writeMember hmember).append
      apply Text.isUtf8_flatMap
      intro other hother
      exact hcomma.append (isUtf8_writeMember (hlist other hother))
  exact (hopen.append hmembers).append hclose

/-- Elements that can be written as a text can be written one behind the other. -/
theorem exists_items {α : Type} {writes : α → Bytes → Prop} {list : List α} (isFirst : Bool)
    (h : ∀ a ∈ list, ∃ written, writes a written ∧ IsUtf8 written) :
    ∃ inside, Items writes closeBracket isFirst list inside ∧ IsUtf8 inside := by
  induction list generalizing isFirst with
  | nil => exact ⟨[closeBracket], .done isBlank_nil, isUtf8_of_all (by decide)⟩
  | cons a list ih =>
    obtain ⟨ha, hlist⟩ := List.forall_mem_cons.1 h
    obtain ⟨written, hwrites, hwritten⟩ := ha
    obtain ⟨inside, hitems, hinside⟩ := ih false hlist
    have hitem := hwritten.append hinside
    cases isFirst with
    | true => exact ⟨written ++ inside, .next (.first isBlank_nil) hwrites hitems, hitem⟩
    | false =>
      have hcomma : IsUtf8 [comma] := isUtf8_of_all (by decide)
      exact ⟨comma :: written ++ inside, .next (.comma isBlank_nil isBlank_nil) hwrites hitems,
        hcomma.append hitem⟩

end FirmwareTransparency.Json
