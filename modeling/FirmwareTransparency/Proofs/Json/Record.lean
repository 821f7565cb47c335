import FirmwareTransparency.Proofs.Json.Reads

/-!
# Objects are read through their fields

The members of an object enter a draft one after the other, each through the field of its name, and
an object may also be given as the array of its fields' values. One step of the loop over members
takes one step of `Enters`, in both directions, and so does the loop over positions with `Places`.
Main statements: `record_reads` for objects of any shape, and `single_reads` for an object that is
asked for one member and may have others.
-/

set_option autoImplicit false

namespace FirmwareTransparency.Json

variable {α δ : Type} {bytes rest written : Bytes}

/-! ## From item to item -/

/-- A step from item to item passes what separates them, up to the closing byte. -/
structure Walks (next : Bool → Bytes → Except Error (Option Bytes)) (close : UInt8) : Prop where
  end_iff (isFirst : Bool) (bytes : Bytes) :
    next isFirst bytes = .ok none ↔
      ∃ blank rest, IsBlank blank ∧ bytes = blank ++ close :: rest
  sound (isFirst : Bool) (bytes rest : Bytes) : next isFirst bytes = .ok (some rest) →
    ∃ front, bytes = front ++ rest ∧ ∀ blank, IsBlank blank → Separator isFirst (front ++ blank)
  complete (isFirst : Bool) (separator : Bytes) (byte : UInt8) (rest : Bytes) :
    Separator isFirst separator → isSpace byte = false → byte ≠ close →
      ∃ blank, IsBlank blank ∧
        next isFirst (separator ++ byte :: rest) = .ok (some (blank ++ byte :: rest))

/-- The step from member to member passes what separates them. -/
theorem nextMember_walks : Walks nextMember closeBrace where
  end_iff isFirst bytes := by
    constructor
    · intro h
      unfold nextMember at h
      split at h
      · cases h
      · next byte rest hskip =>
        split_ifs at h with hclose
        · subst hclose
          obtain ⟨blank, hblank, rfl⟩ := exists_blank_of_skipSpace hskip
          exact ⟨blank, rest, hblank, rfl⟩
        · cases h
        · cases h
    · rintro ⟨blank, rest, hblank, rfl⟩
      rw [nextMember, skipSpace_token hblank (by decide)]
      rfl
  sound isFirst bytes rest h := by
    unfold nextMember at h
    split at h
    · cases h
    · next byte behind hskip =>
      obtain ⟨blank, hblank, rfl⟩ := exists_blank_of_skipSpace hskip
      split_ifs at h with hclose hfirst hcomma
      · cases h
      · cases h
        subst hfirst
        exact ⟨blank, rfl, fun space hspace => .first (hblank.append hspace)⟩
      · cases h
        rw [Bool.not_eq_true] at hfirst
        subst hcomma hfirst
        refine ⟨blank ++ [comma], by simp, fun space hspace => ?_⟩
        rw [List.append_assoc]
        exact .comma hblank hspace
  complete isFirst separator byte rest hseparator hbyte hclose := by
    cases hseparator with
    | first hblank =>
      refine ⟨[], isBlank_nil, ?_⟩
      rw [nextMember, skipSpace_token hblank hbyte]
      simp only [if_neg hclose, if_true, List.nil_append]
    | @comma front back hfront hback =>
      refine ⟨back, hback, ?_⟩
      rw [List.append_assoc, List.cons_append, nextMember, skipSpace_token hfront (by decide)]
      rfl

/-- The step from element to element passes what separates them, and no comma in front of the
closing bracket. -/
theorem nextElement_walks : Walks nextElement closeBracket where
  end_iff isFirst bytes := by
    constructor
    · intro h
      unfold nextElement at h
      split at h
      · cases h
      · next byte rest hskip =>
        split_ifs at h with hclose hfirst hcomma
        · subst hclose
          obtain ⟨blank, hblank, rfl⟩ := exists_blank_of_skipSpace hskip
          exact ⟨blank, rest, hblank, rfl⟩
        · cases h
        · split at h
          · cases h
          · split_ifs at h
            cases h
    · rintro ⟨blank, rest, hblank, rfl⟩
      rw [nextElement, skipSpace_token hblank (by decide)]
      rfl
  sound isFirst bytes rest h := by
    unfold nextElement at h
    split at h
    · cases h
    · next byte behind hskip =>
      obtain ⟨blank, hblank, rfl⟩ := exists_blank_of_skipSpace hskip
      split_ifs at h with hclose hfirst hcomma
      · cases h
      · cases h
        subst hfirst
        exact ⟨blank, rfl, fun space hspace => .first (hblank.append hspace)⟩
      · split at h
        · cases h
        · next first behind hspaces =>
          split_ifs at h
          cases h
          rw [Bool.not_eq_true] at hfirst
          subst hcomma hfirst
          obtain ⟨back, hback, rfl⟩ := exists_blank_of_skipSpace hspaces
          -- White space behind the comma is passed already, and more of it may stand there.
          refine ⟨blank ++ comma :: back, by simp, fun space hspace => ?_⟩
          rw [List.append_assoc, List.cons_append]
          exact .comma hblank (hback.append hspace)
  complete isFirst separator byte rest hseparator hbyte hclose := by
    refine ⟨[], isBlank_nil, ?_⟩
    cases hseparator with
    | first hblank =>
      rw [nextElement, skipSpace_token hblank hbyte]
      simp only [if_neg hclose, if_true, List.nil_append]
    | @comma front back hfront hback =>
      rw [List.append_assoc, List.cons_append, nextElement, skipSpace_token hfront (by decide)]
      simp only [if_neg (show comma ≠ closeBracket by decide), Bool.false_eq_true, if_false,
        if_true, skipSpace_token hback hbyte, if_neg hclose, List.nil_append]

/-- A byte that is expected is found exactly behind white space. -/
theorem expect_eq_ok_iff {wanted : UInt8} (hwanted : isSpace wanted = false) :
    expect wanted bytes = .ok rest ↔ ∃ blank, IsBlank blank ∧ bytes = blank ++ wanted :: rest := by
  constructor
  · intro h
    unfold expect at h
    split at h
    · cases h
    · next byte behind hskip =>
      split_ifs at h with hbyte
      cases h
      subst hbyte
      exact exists_blank_of_skipSpace hskip
  · rintro ⟨blank, hblank, rfl⟩
    rw [expect, skipSpace_token hblank hwanted]
    exact if_pos rfl

/-! ## Members -/

/-- A name is read up to the colon behind it. -/
theorem exists_name_iff {name : String} :
    (∃ behind, memberName bytes = .ok (name, behind) ∧ expect colon behind = .ok rest) ↔
      ∃ blank body front, IsBlank blank ∧ Spells name.toList body ∧ IsBlank front ∧
        bytes = blank ++ (quote :: body ++ quote :: front ++ colon :: rest) := by
  constructor
  · rintro ⟨behind, hname, hcolon⟩
    obtain ⟨blank, _, hblank, ⟨body, hspells, rfl⟩, rfl⟩ :=
      (memberName_reads.eq_ok_iff _ _ _).1 hname
    obtain ⟨front, hfront, rfl⟩ := (expect_eq_ok_iff (by decide)).1 hcolon
    exact ⟨blank, body, front, hblank, hspells, hfront, by simp⟩
  · rintro ⟨blank, body, front, hblank, hspells, hfront, rfl⟩
    refine ⟨front ++ colon :: rest, (memberName_reads.eq_ok_iff _ _ _).2 ?_,
      (expect_eq_ok_iff (by decide)).2 ⟨front, hfront, rfl⟩⟩
    exact ⟨blank, _, hblank, ⟨body, hspells, rfl⟩, by simp⟩

section Members

variable {shape : Shape δ α} {writes : Field δ → δ → δ → Bytes → Prop} {draft next last : δ}
  {isFirst : Bool} {steps : Nat} {member : Member} {list : List Member}
  {blank inside behind after : Bytes}

/-- One member enters a draft through the field of its name, or is passed over. -/
inductive Admits (shape : Shape δ α) (writes : Field δ → δ → δ → Bytes → Prop) (draft : δ)
    (member : Member) : δ → Prop where
  | known {next : δ} {name : String} {field : Field δ} (hname : Spells name.toList member.name)
      (hfield : shape.fields.find? (fun field => field.name == name) = some field)
      (hunset : field.isSet draft = false) (hvalue : writes field draft next member.value) :
      Admits shape writes draft member next
  | other {name : String} (hname : Spells name.toList member.name)
      (hfield : shape.fields.find? (fun field => field.name == name) = none)
      (hstrict : shape.strict = false) (hvalue : IsValue member.value) :
      Admits shape writes draft member draft

/-- Members enter a draft in their order and leave another one behind. -/
inductive Enters (shape : Shape δ α) (writes : Field δ → δ → δ → Bytes → Prop) :
    δ → List Member → δ → Prop where
  | nil {draft : δ} : Enters shape writes draft [] draft
  | cons {draft next last : δ} {member : Member} {list : List Member}
      (hmember : Admits shape writes draft member next)
      (hlist : Enters shape writes next list last) :
      Enters shape writes draft (member :: list) last

/-- The field that is found for a name is one of the fields and has that name. -/
theorem mem_of_find? {name : String} {field : Field δ} {fields : List (Field δ)}
    (h : fields.find? (fun field => field.name == name) = some field) :
    field ∈ fields ∧ field.name = name := by
  have hname := List.find?_some h
  exact ⟨List.mem_of_find?_eq_some h, beq_iff_eq.1 hname⟩

variable (hreads : ∀ field ∈ shape.fields, ∀ draft, Reads (field.read draft) (writes field draft))
include hreads

/-- A step of the loop over members that goes well has read a member which the draft admits. -/
theorem exists_admits (hnext : nextMember isFirst bytes = .ok (some behind))
    (h : members shape (steps + 1) isFirst draft bytes = .ok (last, rest)) :
    ∃ blank member written after next, IsBlank blank ∧ member.Writes written ∧
      Admits shape writes draft member next ∧ behind = blank ++ (written ++ after) ∧
      members shape steps false next after = .ok (last, rest) := by
  rw [members] at h
  obtain ⟨found, hfound, h⟩ := bind_eq_ok_iff.1 h
  rw [hnext] at hfound
  cases hfound
  obtain ⟨⟨name, nameRest⟩, hname, h⟩ := bind_eq_ok_iff.1 h
  simp only at h
  split at h
  · next field hfield =>
    split_ifs at h with hset
    · cases h
    · obtain ⟨valueRest, hcolon, h⟩ := bind_eq_ok_iff.1 h
      obtain ⟨⟨next, after⟩, hvalue, hlast⟩ := bind_eq_ok_iff.1 h
      obtain ⟨blank, body, front, hblank, hspells, hfront, rfl⟩ :=
        exists_name_iff.1 ⟨nameRest, hname, hcolon⟩
      obtain ⟨back, value, hback, hwrites, rfl⟩ :=
        ((hreads field (mem_of_find? hfield).1 draft).eq_ok_iff _ _ _).1 hvalue
      exact ⟨blank, ⟨body, value⟩, _, after, next, hblank, ⟨front, back, hfront, hback, rfl⟩,
        .known hspells hfield (Bool.eq_false_of_not_eq_true hset) hwrites, by simp, hlast⟩
  · next hfield =>
    split_ifs at h with hstrict
    · cases h
    · obtain ⟨valueRest, hcolon, h⟩ := bind_eq_ok_iff.1 h
      obtain ⟨after, hskip, hlast⟩ := bind_eq_ok_iff.1 h
      obtain ⟨blank, body, front, hblank, hspells, hfront, rfl⟩ :=
        exists_name_iff.1 ⟨nameRest, hname, hcolon⟩
      obtain ⟨back, value, hback, hvalue, rfl⟩ :=
        exists_isValue_of_skipValue? (wellFormed_eq_ok_iff.1 hskip)
      exact ⟨blank, ⟨body, value⟩, _, after, draft, hblank, ⟨front, back, hfront, hback, rfl⟩,
        .other hspells hfield (Bool.eq_false_of_not_eq_true hstrict) hvalue, by simp, hlast⟩

/-- A member that the draft admits is read in one step of the loop, which goes on behind it. -/
theorem members_of_admits (hblank : IsBlank blank) (hmember : member.Writes written)
    (hadmits : Admits shape writes draft member next) (hafter : EndsNumber after)
    (hnext : nextMember isFirst bytes = .ok (some (blank ++ (written ++ after)))) :
    members shape (steps + 1) isFirst draft bytes = members shape steps false next after := by
  obtain ⟨front, back, hfront, hback, rfl⟩ := hmember
  have hread : ∀ {name : String}, Spells name.toList member.name → ∃ nameRest,
      memberName (blank ++ (quote :: member.name ++ quote :: front ++ colon :: back ++
        member.value ++ after)) = .ok (name, nameRest) ∧
      expect colon nameRest = .ok (back ++ (member.value ++ after)) :=
    fun hname => exists_name_iff.2 ⟨blank, member.name, front, hblank, hname, hfront, by simp⟩
  rw [members, hnext]
  cases hadmits with
  | known hname hfield hunset hvalue =>
    obtain ⟨nameRest, hmemberName, hcolon⟩ := hread hname
    have hdraft := ((hreads _ (mem_of_find? hfield).1 draft).eq_ok_iff _ _ _).2
      ⟨back, member.value, hback, hvalue, Eq.refl (back ++ (member.value ++ after))⟩
    simp only [bind, Except.bind, hmemberName, hfield, hunset, hcolon, hdraft]
    rfl
  | other hname hfield hstrict hvalue =>
    obtain ⟨nameRest, hmemberName, hcolon⟩ := hread hname
    have hskip := skipValue?_append hback hvalue hafter
    rw [List.append_assoc] at hskip
    simp only [bind, Except.bind, hmemberName, hfield, hstrict, hcolon, hskip, wellFormed]
    rfl

/-- What is read from an object's members entered the draft. -/
theorem exists_of_members (h : members shape steps isFirst draft bytes = .ok (last, rest)) :
    ∃ list inside, Items Member.Writes closeBrace isFirst list inside ∧
      Enters shape writes draft list last ∧ bytes = inside ++ rest := by
  induction steps generalizing isFirst draft bytes with
  | zero => cases h
  | succ steps ih =>
    have hstep := h
    rw [members] at hstep
    obtain ⟨found, hnext, hstep⟩ := bind_eq_ok_iff.1 hstep
    cases found with
    | none =>
      obtain ⟨behind, hclose, heq⟩ := bind_eq_ok_iff.1 hstep
      cases heq
      obtain ⟨blank, hblank, rfl⟩ := (expect_eq_ok_iff (by decide)).1 hclose
      exact ⟨[], blank ++ [closeBrace], .done hblank, .nil, by simp⟩
    | some behind =>
      obtain ⟨front, rfl, hfront⟩ := nextMember_walks.sound _ _ _ hnext
      obtain ⟨blank, member, written, after, next, hblank, hmember, hadmits, rfl, hmembers⟩ :=
        exists_admits hreads hnext h
      obtain ⟨list, inside, hitems, henters, rfl⟩ := ih hmembers
      exact ⟨member :: list, front ++ blank ++ written ++ inside,
        .next (hfront blank hblank) hmember hitems, .cons hadmits henters, by simp⟩

/-- Members that enter a draft are read up to the closing brace, given more steps than members. -/
theorem members_of_enters (hitems : Items Member.Writes closeBrace isFirst list inside)
    (henters : Enters shape writes draft list last) (hsteps : list.length < steps) (rest : Bytes) :
    members shape steps isFirst draft (inside ++ rest) = .ok (last, rest) := by
  induction hitems generalizing draft steps with
  | @done isFirst blank hblank =>
    cases henters
    obtain ⟨steps, rfl⟩ := Nat.exists_eq_add_of_lt hsteps
    have hend : nextMember isFirst (blank ++ [closeBrace] ++ rest) = .ok none :=
      (nextMember_walks.end_iff _ _).2 ⟨blank, rest, hblank, by simp⟩
    have hclose : expect closeBrace (blank ++ [closeBrace] ++ rest) = .ok rest :=
      (expect_eq_ok_iff (by decide)).2 ⟨blank, hblank, by simp⟩
    rw [members, hend]
    simp only [bind, Except.bind, hclose]
    rfl
  | @next isFirst separator written inside member list hseparator hmember hitems ih =>
    cases henters with
    | cons hadmits henters =>
      cases steps with
      | zero => exact absurd hsteps (Nat.not_lt_zero _)
      | succ steps =>
        obtain ⟨more, rfl⟩ := hmember.exists_start
        obtain ⟨blank, hblank, hnext⟩ := nextMember_walks.complete isFirst separator quote
          (more ++ (inside ++ rest)) hseparator rfl (by decide)
        rw [← ih henters (Nat.lt_of_succ_lt_succ hsteps)]
        exact members_of_admits hreads hblank hmember hadmits (hitems.endsNumber rfl rest)
          (by simpa using hnext)

/-- A member that a draft admits obeys the grammar. -/
theorem wellFormed_of_admits (h : Admits shape writes draft member next) : member.WellFormed := by
  cases h with
  | known hname hfield _ hvalue =>
    exact ⟨hname.isBody, (hreads _ (mem_of_find? hfield).1 draft).isValue _ _ hvalue⟩
  | other hname _ _ hvalue => exact ⟨hname.isBody, hvalue⟩

/-- Members that enter a draft obey the grammar. -/
theorem wellFormed_of_enters (h : Enters shape writes draft list last) :
    ∀ member ∈ list, member.WellFormed := by
  induction h with
  | nil => exact List.forall_mem_nil _
  | cons hadmits _ ih => exact List.forall_mem_cons.2 ⟨wellFormed_of_admits hreads hadmits, ih⟩

end Members

/-! ## Positions -/

section Positions

variable {writes : Field δ → δ → δ → Bytes → Prop} {draft last : δ} {isFirst : Bool}
  {fields : List (Field δ)} {values : List Bytes} {inside : Bytes}

/-- Values enter a draft through the fields in their order, as many as there are. -/
inductive Places (writes : Field δ → δ → δ → Bytes → Prop) :
    List (Field δ) → δ → List Bytes → δ → Prop where
  | nil {fields : List (Field δ)} {draft : δ} : Places writes fields draft [] draft
  | cons {field : Field δ} {fields : List (Field δ)} {draft next last : δ} {value : Bytes}
      {values : List Bytes} (hvalue : writes field draft next value)
      (hvalues : Places writes fields next values last) :
      Places writes (field :: fields) draft (value :: values) last

variable (hreads : ∀ field ∈ fields, ∀ draft, Reads (field.read draft) (writes field draft))
include hreads

/-- What is read up to the closing bracket are values that entered the draft in the order of its
fields. -/
theorem exists_of_positions {behind : Bytes}
    (h : positions fields isFirst draft bytes = .ok (last, behind))
    (hclose : expect closeBracket behind = .ok rest) :
    ∃ values inside, Items Eq closeBracket isFirst values inside ∧
      Places writes fields draft values last ∧ bytes = inside ++ rest := by
  have hend : ∃ blank, IsBlank blank ∧ behind = blank ++ closeBracket :: rest :=
    (expect_eq_ok_iff (by decide)).1 hclose
  induction fields generalizing isFirst draft bytes with
  | nil =>
    cases h
    obtain ⟨blank, hblank, rfl⟩ := hend
    exact ⟨[], blank ++ [closeBracket], .done hblank, .nil, by simp⟩
  | cons field fields ih =>
    obtain ⟨hfield, hfields⟩ := List.forall_mem_cons.1 hreads
    rw [positions] at h
    obtain ⟨found, hnext, h⟩ := bind_eq_ok_iff.1 h
    cases found with
    | none =>
      cases h
      obtain ⟨blank, hblank, rfl⟩ := hend
      exact ⟨[], blank ++ [closeBracket], .done hblank, .nil, by simp⟩
    | some first =>
      obtain ⟨front, rfl, hfront⟩ := nextElement_walks.sound _ _ _ hnext
      obtain ⟨⟨next, after⟩, hvalue, hlast⟩ := bind_eq_ok_iff.1 h
      obtain ⟨blank, value, hblank, hwrites, rfl⟩ := ((hfield draft).eq_ok_iff _ _ _).1 hvalue
      obtain ⟨values, inside, hitems, hplaces, rfl⟩ := ih hfields hlast
      exact ⟨value :: values, front ++ blank ++ value ++ inside,
        .next (hfront blank hblank) rfl hitems, .cons hwrites hplaces, by simp⟩

/-- Values that enter a draft in the order of its fields are read up to the closing bracket. -/
theorem positions_of_places (hitems : Items Eq closeBracket isFirst values inside)
    (hplaces : Places writes fields draft values last) (rest : Bytes) :
    ∃ behind, positions fields isFirst draft (inside ++ rest) = .ok (last, behind) ∧
      expect closeBracket behind = .ok rest := by
  induction hplaces generalizing isFirst inside with
  | @nil fields draft =>
    cases hitems with
    | @done _ blank hblank =>
      have hclose : expect closeBracket (blank ++ [closeBracket] ++ rest) = .ok rest :=
        (expect_eq_ok_iff (by decide)).2 ⟨blank, hblank, by simp⟩
      refine ⟨_, ?_, hclose⟩
      -- Where no field is left nothing is looked at, and the bracket is still there to be read.
      cases fields with
      | nil => rfl
      | cons field fields =>
        have hend : nextElement isFirst (blank ++ [closeBracket] ++ rest) = .ok none :=
          (nextElement_walks.end_iff _ _).2 ⟨blank, rest, hblank, by simp⟩
        rw [positions, hend]
        rfl
  | @cons field fields draft next last value values hvalue _ ih =>
    obtain ⟨hfield, hfields⟩ := List.forall_mem_cons.1 hreads
    cases hitems with
    | @next _ separator _ inside _ _ hseparator hitem hitems =>
      subst hitem
      obtain ⟨behind, hpositions, hclose⟩ := ih hfields hitems
      obtain ⟨byte, more, rfl, hstart⟩ := ((hfield draft).isValue _ _ hvalue).exists_start
      obtain ⟨blank, hblank, hnext⟩ := nextElement_walks.complete isFirst separator byte
        (more ++ (inside ++ rest)) hseparator hstart.not_isSpace (hstart.ne (by decide))
      have hread := ((hfield draft).eq_ok_iff _ _ _).2
        ⟨blank, byte :: more, hblank, hvalue, Eq.refl (blank ++ (byte :: more ++ (inside ++ rest)))⟩
      refine ⟨behind, ?_, hclose⟩
      simp only [List.append_assoc, List.cons_append] at hnext hread ⊢
      rw [positions, hnext]
      simp only [bind, Except.bind, hread]
      exact hpositions

/-- Values that enter a draft by their positions obey the grammar. -/
theorem isValue_of_places (h : Places writes fields draft values last) :
    ∀ value ∈ values, IsValue value := by
  induction h with
  | nil => exact List.forall_mem_nil _
  | cons hvalue _ ih =>
    obtain ⟨hfield, hfields⟩ := List.forall_mem_cons.1 hreads
    exact List.forall_mem_cons.2 ⟨(hfield _).isValue _ _ hvalue, ih hfields⟩

end Positions

/-! ## Objects -/

/-- An object whose members enter a draft that is complete, or the array of its fields' values. -/
def WritesRecord (shape : Shape δ α) (writes : Field δ → δ → δ → Bytes → Prop) (a : α)
    (written : Bytes) : Prop :=
  ∃ draft, shape.finish draft = .ok a ∧
    ((∃ members, IsObject members written ∧ Enters shape writes shape.blank members draft) ∨
      ∃ values, IsArray values written ∧ Places writes shape.fields shape.blank values draft)

/-- Every item takes a byte or more, and so does the closing byte. -/
theorem Items.length_lt {ι : Type} {writes : ι → Bytes → Prop} {close : UInt8} {isFirst : Bool}
    {list : List ι} {inside : Bytes} (h : Items writes close isFirst list inside)
    (hne : ∀ a written, writes a written → written ≠ []) : list.length < inside.length := by
  induction h with
  | done =>
    rw [List.length_append, List.length_singleton]
    exact Nat.succ_pos _
  | next _ hitem _ ih =>
    have hpos := List.length_pos_of_ne_nil (hne _ _ hitem)
    simp only [List.length_append, List.length_cons]
    omega

/-- A written member takes a byte or more. -/
theorem Member.Writes.ne_nil {member : Member} (h : member.Writes written) : written ≠ [] := by
  obtain ⟨more, rfl⟩ := h.exists_start
  exact List.cons_ne_nil quote more

/-- An object is read exactly where it is written in one of its two forms. -/
theorem record_reads {shape : Shape δ α} {writes : Field δ → δ → δ → Bytes → Prop}
    (hreads : ∀ field ∈ shape.fields, ∀ draft, Reads (field.read draft) (writes field draft)) :
    Reads (record shape) (WritesRecord shape writes) where
  eq_ok_iff bytes a rest := by
    constructor
    · intro h
      unfold record at h
      split at h
      · cases h
      · next byte behind hskip =>
        obtain ⟨blank, hblank, rfl⟩ := exists_blank_of_skipSpace hskip
        split_ifs at h with hbrace hbracket
        · subst hbrace
          obtain ⟨⟨draft, after⟩, hmembers, hfinish⟩ := bind_eq_ok_iff.1 h
          simp only at hfinish
          split at hfinish
          · next a hdraft =>
            cases hfinish
            obtain ⟨list, inside, hitems, henters, rfl⟩ := exists_of_members hreads hmembers
            exact ⟨blank, openBrace :: inside, hblank,
              ⟨draft, hdraft, .inl ⟨list, ⟨inside, hitems, rfl⟩, henters⟩⟩, rfl⟩
          · cases hfinish
        · subst hbracket
          obtain ⟨⟨draft, after⟩, hpositions, hfinish⟩ := bind_eq_ok_iff.1 h
          simp only at hfinish
          split at hfinish
          · next a hdraft =>
            obtain ⟨behind, hclose, heq⟩ := bind_eq_ok_iff.1 hfinish
            cases heq
            obtain ⟨values, inside, hitems, hplaces, rfl⟩ :=
              exists_of_positions hreads hpositions hclose
            exact ⟨blank, openBracket :: inside, hblank,
              ⟨draft, hdraft, .inr ⟨values, ⟨inside, hitems, rfl⟩, hplaces⟩⟩, rfl⟩
          · cases hfinish
    · rintro ⟨blank, written, hblank, ⟨draft, hfinish, hform⟩, rfl⟩
      obtain ⟨list, ⟨inside, hitems, rfl⟩, henters⟩ | ⟨values, ⟨inside, hitems, rfl⟩, hplaces⟩ :=
        hform
      · have hsteps : list.length < (inside ++ rest).length + 1 := by
          have hlength := hitems.length_lt fun _ _ => Member.Writes.ne_nil
          rw [List.length_append]
          omega
        have hmembers := members_of_enters hreads hitems henters hsteps rest
        rw [List.cons_append, record, skipSpace_token hblank (by decide)]
        simp only [if_true, bind, Except.bind, hmembers, hfinish]
        rfl
      · obtain ⟨behind, hpositions, hclose⟩ := positions_of_places hreads hitems hplaces rest
        rw [List.cons_append, record, skipSpace_token hblank (by decide)]
        simp only [bind, Except.bind, hpositions, hfinish, hclose]
        rfl
  isValue := by
    rintro a written ⟨draft, -, ⟨members, hobject, henters⟩ | ⟨values, harray, hplaces⟩⟩
    · exact hobject.isValue (wellFormed_of_enters hreads henters)
    · exact .array harray (isValue_of_places hreads hplaces)

/-! ## One required member -/

/-- A member of another name than those asked for. -/
def Member.IsOther (names : List String) (member : Member) : Prop :=
  (∃ name, name ∉ names ∧ Spells name.toList member.name) ∧ IsValue member.value

/-- An object with one member of the given name, among others. -/
def InObject (name : String) (inner : Bytes → Prop) (written : Bytes) : Prop :=
  ∃ front member back, IsObject (front ++ member :: back) written ∧
    Spells name.toList member.name ∧ inner member.value ∧
    ∀ other ∈ front ++ back, other.IsOther [name]

/-- An array with one element. -/
def InArray (inner : Bytes → Prop) (written : Bytes) : Prop :=
  ∃ value, IsArray [value] written ∧ inner value

/-- An object with one member of the given name among others, or the array of that member's
value. -/
def InRecord (name : String) (inner : Bytes → Prop) (written : Bytes) : Prop :=
  InObject name inner written ∨ InArray inner written

/-- A choice for the member that is asked for may as well be made for the whole object. -/
theorem inRecord_exists_iff {ι : Type} {name : String} {p : ι → Prop} {inner : ι → Bytes → Prop} :
    InRecord name (fun written => ∃ i, p i ∧ inner i written) written ↔
      ∃ i, p i ∧ InRecord name (inner i) written := by
  constructor
  · rintro (⟨front, member, back, hobject, hname, ⟨i, hp, hinner⟩, hothers⟩ |
      ⟨value, harray, i, hp, hinner⟩)
    · exact ⟨i, hp, .inl ⟨front, member, back, hobject, hname, hinner, hothers⟩⟩
    · exact ⟨i, hp, .inr ⟨value, harray, hinner⟩⟩
  · rintro ⟨i, hp, ⟨front, member, back, hobject, hname, hinner, hothers⟩ | ⟨value, harray, hinner⟩⟩
    · exact .inl ⟨front, member, back, hobject, hname, ⟨i, hp, hinner⟩, hothers⟩
    · exact .inr ⟨value, harray, i, hp, hinner⟩

section Single

variable {name : String} {value : Decoder α} {writes : α → Bytes → Prop} {member : Member}
  {list : List Member} {draft next : Option α}

/-- How the value of the one field enters the draft. -/
def writesSingle (writes : α → Bytes → Prop) (_ : Field (Option α)) (_ next : Option α)
    (written : Bytes) : Prop :=
  ∃ a, next = some a ∧ writes a written

/-- A draft of one field admits its member if it has none yet, and passes over every other member.
-/
theorem admits_single_iff :
    Admits (single name false value) (writesSingle writes) draft member next ↔
      (draft = none ∧ Spells name.toList member.name ∧ ∃ a, next = some a ∧ writes a member.value) ∨
        next = draft ∧ member.IsOther [name] := by
  constructor
  · intro h
    cases h with
    | @known _ other field hname hfield hunset hvalue =>
      obtain ⟨hmem, rfl⟩ := mem_of_find? hfield
      obtain rfl := List.mem_singleton.1 hmem
      exact .inl ⟨Option.isNone_iff_eq_none.1 (Option.isSome_eq_false_iff.1 hunset), hname, hvalue⟩
    | @other other hname hfield hstrict hvalue =>
      have hne : other ≠ name := by
        rintro rfl
        exact absurd hfield (by simp [single])
      exact .inr ⟨rfl, ⟨other, by simpa using hne, hname⟩, hvalue⟩
  · rintro (⟨rfl, hname, hvalue⟩ | ⟨rfl, ⟨other, hother, hname⟩, hvalue⟩)
    · exact .known hname (List.find?_cons_of_pos (beq_self_eq_true name)) rfl hvalue
    · have hne : name ≠ other := fun heq => hother (List.mem_singleton.2 heq.symm)
      exact .other hname (by simp [single, hne]) rfl hvalue

/-- Behind the member that is asked for there are only others. -/
theorem enters_single_some_iff {a : α} :
    Enters (single name false value) (writesSingle writes) (some a) list next ↔
      next = some a ∧ ∀ other ∈ list, other.IsOther [name] := by
  constructor
  · intro h
    generalize hdraft : some a = draft at h
    induction h with
    | nil => exact ⟨rfl, List.forall_mem_nil _⟩
    | cons hadmits _ ih =>
      obtain ⟨hnone, -⟩ | ⟨rfl, hother⟩ := admits_single_iff.1 hadmits
      · exact absurd (hdraft.trans hnone) (Option.some_ne_none a)
      · obtain ⟨hnext, hothers⟩ := ih hdraft
        exact ⟨hnext, List.forall_mem_cons.2 ⟨hother, hothers⟩⟩
  · rintro ⟨rfl, hothers⟩
    induction list with
    | nil => exact .nil
    | cons member list ih =>
      obtain ⟨hother, hothers⟩ := List.forall_mem_cons.1 hothers
      exact .cons (admits_single_iff.2 (.inr ⟨rfl, hother⟩)) (ih hothers)

/-- The member that is asked for stands somewhere among the others. -/
theorem enters_single_none_iff {a : α} :
    Enters (single name false value) (writesSingle writes) none list (some a) ↔
      ∃ front member back, list = front ++ member :: back ∧ Spells name.toList member.name ∧
        writes a member.value ∧ ∀ other ∈ front ++ back, other.IsOther [name] := by
  constructor
  · intro h
    generalize hdraft : none = draft at h
    generalize hlast : some a = last at h
    induction h with
    | nil =>
      subst hdraft
      cases hlast
    | @cons draft next last member list hadmits hlist ih =>
      obtain ⟨-, hname, b, rfl, hvalue⟩ | ⟨rfl, hother⟩ := admits_single_iff.1 hadmits
      · obtain ⟨hnext, hothers⟩ := enters_single_some_iff.1 hlist
        obtain rfl := Option.some.inj (hlast.trans hnext)
        exact ⟨[], member, list, rfl, hname, hvalue, hothers⟩
      · obtain ⟨front, found, back, rfl, hname, hvalue, hothers⟩ := ih hdraft hlast
        exact ⟨member :: front, found, back, rfl, hname, hvalue,
          List.forall_mem_cons.2 ⟨hother, hothers⟩⟩
  · rintro ⟨front, member, back, rfl, hname, hvalue, hothers⟩
    induction front with
    | nil =>
      exact .cons (admits_single_iff.2 (.inl ⟨rfl, hname, a, rfl, hvalue⟩))
        (enters_single_some_iff.2 ⟨rfl, hothers⟩)
    | cons other front ih =>
      obtain ⟨hother, hothers⟩ := List.forall_mem_cons.1 hothers
      exact .cons (admits_single_iff.2 (.inr ⟨rfl, hother⟩)) (ih hothers)

/-- One position takes one value. -/
theorem places_single_iff {field : Field (Option α)} {values : List Bytes} {a : α} :
    Places (writesSingle writes) [field] none values (some a) ↔
      ∃ value, values = [value] ∧ writes a value := by
  constructor
  · intro h
    cases h with
    | @cons _ _ _ next _ value _ hvalue hvalues =>
      cases hvalues
      obtain ⟨b, heq, hwrites⟩ := hvalue
      cases heq
      exact ⟨value, rfl, hwrites⟩
  · rintro ⟨value, rfl, hwrites⟩
    exact .cons ⟨a, rfl, hwrites⟩ .nil

/-- An object that is asked for one member is read exactly where it holds the member once, among
any others, or where it is the array of that member's value. -/
theorem single_reads (h : Reads value writes) :
    Reads (record (single name false value)) fun a => InRecord name (writes a) := by
  have hreads : ∀ field ∈ (single name false value).fields, ∀ draft,
      Reads (field.read draft) (writesSingle writes field draft) := by
    intro field hfield draft
    obtain rfl := List.mem_singleton.1 hfield
    exact h.map some
  have hfinish : ∀ draft a, (single name false value).finish draft = .ok a ↔ draft = some a := by
    intro draft a
    cases draft <;> simp [single]
  refine (record_reads hreads).congr fun a written => ?_
  constructor
  · rintro ⟨draft, hdraft, hform⟩
    obtain rfl := (hfinish draft a).1 hdraft
    obtain ⟨members, hobject, henters⟩ | ⟨values, harray, hplaces⟩ := hform
    · obtain ⟨front, member, back, rfl, hmember⟩ := enters_single_none_iff.1 henters
      exact .inl ⟨front, member, back, hobject, hmember⟩
    · obtain ⟨element, rfl, hwrites⟩ := places_single_iff.1 hplaces
      exact .inr ⟨element, harray, hwrites⟩
  · rintro (⟨front, member, back, hobject, hmember⟩ | ⟨element, harray, hwrites⟩)
    · exact ⟨some a, rfl,
        .inl ⟨_, hobject, enters_single_none_iff.2 ⟨front, member, back, rfl, hmember⟩⟩⟩
    · exact ⟨some a, rfl, .inr ⟨_, harray, places_single_iff.2 ⟨element, rfl, hwrites⟩⟩⟩

end Single

end FirmwareTransparency.Json
