import FirmwareTransparency.Proofs.Json.Record

/-!
# Objects inside of objects

A document may ask for one member on each of several levels and ignore the others there. Since an
object has its members in one way only, what such a document holds at the end of a path is found
again wherever the path is followed, and a member that is asked for cannot be there twice. Main
statements: `foldr_inRecord_of_inObject` and `exists_of_objectAt`.
-/

set_option autoImplicit false

namespace FirmwareTransparency.Json

variable {written : Bytes} {inner : Bytes → Prop} {names path : List String} {name : String}
  {member : Member} {members : List Member}

/-! ## Levels -/

/-- A choice at the end of a path may as well be made for the whole document. -/
theorem foldr_inRecord_exists_iff {ι : Type} {p : ι → Prop} {inner : ι → Bytes → Prop}
    (names : List String) :
    names.foldr InRecord (fun written => ∃ i, p i ∧ inner i written) written ↔
      ∃ i, p i ∧ names.foldr InRecord (inner i) written := by
  induction names generalizing written with
  | nil => rfl
  | cons name names ih =>
    have hinner : names.foldr InRecord (fun written => ∃ i, p i ∧ inner i written) =
        fun written => ∃ i, p i ∧ names.foldr InRecord (inner i) written :=
      funext fun written => propext ih
    rw [List.foldr_cons, hinner]
    exact inRecord_exists_iff

/-- At the end of a path something stands. -/
theorem exists_of_foldr_inRecord (h : names.foldr InRecord inner written) : ∃ core, inner core := by
  induction names generalizing written with
  | nil => exact ⟨written, h⟩
  | cons name names ih =>
    obtain ⟨_, member, _, -, -, hvalue, -⟩ | ⟨value, -, hvalue⟩ := h
    · exact ih hvalue
    · exact ih hvalue

/-- A document of objects on all levels is one of those that are read. -/
theorem foldr_inRecord_of_inObject {outer : Bytes → Prop} (hinner : ∀ core, inner core → outer core)
    (h : names.foldr InObject inner written) : names.foldr InRecord outer written := by
  induction names generalizing written with
  | nil => exact hinner written h
  | cons name names ih =>
    obtain ⟨front, member, back, hobject, hname, hvalue, hothers⟩ := h
    exact .inl ⟨front, member, back, hobject, hname, ih hvalue, hothers⟩

/-- A member of another name obeys the grammar. -/
theorem Member.IsOther.wellFormed (h : member.IsOther names) : member.WellFormed := by
  obtain ⟨⟨_, -, hspells⟩, hvalue⟩ := h
  exact ⟨hspells.isBody, hvalue⟩

/-- The members of an object that is asked for one of them obey the grammar. -/
theorem forall_wellFormed {front back : List Member} (hname : Spells name.toList member.name)
    (hvalue : IsValue member.value) (hothers : ∀ other ∈ front ++ back, other.IsOther [name]) :
    ∀ each ∈ front ++ member :: back, each.WellFormed := by
  obtain ⟨hfront, hback⟩ := List.forall_mem_append.1 hothers
  exact List.forall_mem_append.2 ⟨fun other h => (hfront other h).wellFormed,
    List.forall_mem_cons.2 ⟨⟨hname.isBody, hvalue⟩, fun other h => (hback other h).wellFormed⟩⟩

/-- What holds a value in either form is a value. -/
theorem InRecord.isValue (hinner : ∀ core, inner core → IsValue core)
    (h : InRecord name inner written) : IsValue written := by
  obtain ⟨front, member, back, hobject, hname, hvalue, hothers⟩ | ⟨value, harray, hvalue⟩ := h
  · exact hobject.isValue (forall_wellFormed hname (hinner _ hvalue) hothers)
  · exact .array harray (List.forall_mem_singleton.2 (hinner value hvalue))

/-- What leads to a value along a path is a value. -/
theorem isValue_of_foldr_inRecord (hinner : ∀ core, inner core → IsValue core)
    (h : names.foldr InRecord inner written) : IsValue written := by
  induction names generalizing written with
  | nil => exact hinner written h
  | cons name names ih => exact InRecord.isValue (fun core => ih) h

/-! ## Following a path -/

/-- An object whose members obey the grammar. -/
def WellFormedObject (members : List Member) (written : Bytes) : Prop :=
  IsObject members written ∧ ∀ member ∈ members, member.WellFormed

/-- An object at the end of a path of names, whatever else stands around it. -/
def ObjectAt : List String → (List Member → Prop) → Bytes → Prop
  | [], holds, written => ∃ members, WellFormedObject members written ∧ holds members
  | name :: path, holds, written =>
    ∃ members, WellFormedObject members written ∧
      ∃ member ∈ members, Spells name.toList member.name ∧ ObjectAt path holds member.value

/-- Two members have the same name, which is one of those given. -/
def Repeats (names : List String) (members : List Member) : Prop :=
  ∃ name ∈ names, ∃ first second, [first, second].Sublist members ∧
    Spells name.toList first.name ∧ Spells name.toList second.name

/-- A member has another name than those given. -/
def HasOther (names : List String) (members : List Member) : Prop :=
  ∃ name, name ∉ names ∧ ∃ member ∈ members, Spells name.toList member.name

/-- An object whose members obey the grammar is a value. -/
theorem WellFormedObject.isValue (h : WellFormedObject members written) : IsValue written :=
  h.1.isValue h.2

/-- What leads to an object along a path is a value. -/
theorem isValue_of_objectAt {holds : List Member → Prop} (h : ObjectAt path holds written) :
    IsValue written := by
  cases path with
  | nil =>
    obtain ⟨members, hobject, -⟩ := h
    exact hobject.isValue
  | cons name path =>
    obtain ⟨members, hobject, -⟩ := h
    exact hobject.isValue

/-- An array is no object. -/
theorem WellFormedObject.not_isArray (h : WellFormedObject members written) {values : List Bytes} :
    ¬IsArray values written := by
  obtain ⟨⟨inside, -, rfl⟩, -⟩ := h
  rintro ⟨_, -, heq⟩
  cases heq

/-- Where one member is asked for, an object holds it once. -/
theorem exists_of_inRecord (hinner : ∀ core, inner core → IsValue core)
    (h : InRecord name inner written) (hobject : WellFormedObject members written) :
    ∃ front member back, members = front ++ member :: back ∧ inner member.value ∧
      ∀ other ∈ front ++ back, ¬Spells name.toList other.name := by
  obtain ⟨front, member, back, hwritten, hname, hvalue, hothers⟩ | ⟨value, harray, -⟩ := h
  · refine ⟨front, member, back, ?_, hvalue, ?_⟩
    · exact hobject.1.members_eq hwritten hobject.2
        (forall_wellFormed hname (hinner _ hvalue) hothers)
    · intro other hother hspells
      obtain ⟨⟨another, hanother, hanotherSpells⟩, -⟩ := hothers other hother
      exact hanother (List.mem_singleton.2 (spells_inj hanotherSpells hspells))
  · exact absurd harray hobject.not_isArray

/-- Where one member is asked for, it is not repeated. -/
theorem not_repeats_of_inRecord (hinner : ∀ core, inner core → IsValue core)
    (h : InRecord name inner written) (hobject : WellFormedObject members written) :
    ¬Repeats [name] members := by
  rintro ⟨repeated, hrepeated, first, second, hsublist, hfirst, hsecond⟩
  rw [List.mem_singleton] at hrepeated
  subst repeated
  obtain ⟨front, member, back, rfl, -, hothers⟩ := exists_of_inRecord hinner h hobject
  obtain ⟨hfront, hback⟩ := List.forall_mem_append.1 hothers
  have hspelled : ∀ each ∈ [first, second], Spells name.toList each.name :=
    List.forall_mem_cons.2 ⟨hfirst, List.forall_mem_singleton.2 hsecond⟩
  obtain ⟨left, right, heq, hleft, hright⟩ := List.sublist_append_iff.1 hsublist
  cases left with
  | nil =>
    obtain rfl : [first, second] = right := heq
    exact hback second (hright.tail.subset List.mem_cons_self) hsecond
  | cons each left =>
    have heach : each ∈ [first, second] := heq ▸ List.mem_append_left right List.mem_cons_self
    exact hfront each (hleft.subset List.mem_cons_self) (hspelled each heach)

/-- What stands at the end of a path is found by following it. -/
theorem exists_of_objectAt {holds : List Member → Prop} (hinner : ∀ core, inner core → IsValue core)
    (h : (path ++ names).foldr InRecord inner written) (hat : ObjectAt path holds written) :
    ∃ members core, WellFormedObject members core ∧ holds members ∧
      names.foldr InRecord inner core := by
  induction path generalizing written with
  | nil =>
    obtain ⟨members, hobject, hholds⟩ := hat
    exact ⟨members, written, hobject, hholds, h⟩
  | cons name path ih =>
    obtain ⟨members, hobject, member, hmember, hname, hat⟩ := hat
    obtain ⟨front, found, back, rfl, hvalue, hothers⟩ :=
      exists_of_inRecord (fun core => isValue_of_foldr_inRecord hinner) h hobject
    have hfound : member = found := by
      by_contra hne
      refine hothers member ?_ hname
      simpa [hne] using hmember
    exact ih hvalue (hfound ▸ hat)

end FirmwareTransparency.Json
