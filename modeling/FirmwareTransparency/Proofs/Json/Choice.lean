import FirmwareTransparency.Proofs.Json.Record

/-!
# Names for values

A value of a fixed set is written by its name: as a string, or as an object whose only member has
that name and is null. Main statement: `choice_reads`.
-/

set_option autoImplicit false

namespace FirmwareTransparency.Json

variable {α : Type} {member : Member} {written : Bytes}

/-- An object of one member is that member in braces, with white space around it. -/
theorem isObject_singleton_iff :
    IsObject [member] written ↔
      ∃ front inner back, IsBlank front ∧ member.Writes inner ∧ IsBlank back ∧
        written = openBrace :: (front ++ inner ++ (back ++ [closeBrace])) := by
  constructor
  · rintro ⟨_, hitems, rfl⟩
    cases hitems with
    | next hseparator hmember hrest =>
      cases hseparator with
      | first hfront =>
        cases hrest with
        | done hback => exact ⟨_, _, _, hfront, hmember, hback, rfl⟩
  · rintro ⟨front, inner, back, hfront, hmember, hback, rfl⟩
    exact ⟨_, .next (.first hfront) hmember (.done hback), rfl⟩

/-- Null is read exactly where it is written. -/
theorem null_reads : Reads null fun _ written => written = nullWord where
  eq_ok_iff bytes u rest := by
    constructor
    · intro hread
      unfold null at hread
      split at hread
      · cases hread
      · next byte behind hskip =>
        obtain ⟨blank, hblank, rfl⟩ := exists_blank_of_skipSpace hskip
        split_ifs at hread with hbyte
        obtain ⟨after, hword, heq⟩ := bind_eq_ok_iff.1 hread
        cases heq
        rw [append_of_skipWord? (wellFormed_eq_ok_iff.1 hword)]
        exact ⟨blank, nullWord, hblank, rfl, rfl⟩
    · rintro ⟨blank, _, hblank, rfl, rfl⟩
      have hskip : skipSpace (blank ++ (nullWord ++ rest)) = nullWord ++ rest :=
        skipSpace_token hblank (by decide) _
      have hword : skipWord? nullWord (nullWord ++ rest) = some rest :=
        skipWord?_append nullWord rest
      rw [null, hskip]
      change (wellFormed (skipWord? nullWord (nullWord ++ rest)) >>= fun rest => _) = _
      rw [hword]
      rfl
  isValue := by
    rintro _ _ rfl
    exact .word (by decide)

/-- An object whose only member has the given name and is null. -/
def WritesNullMember (name : String) (written : Bytes) : Prop :=
  ∃ body, Spells name.toList body ∧ IsObject [⟨body, nullWord⟩] written

/-- What is read of a choice behind its opening brace is a member that is null, up to the closing
brace. -/
theorem exists_nullMember_iff {name : String} {bytes rest : Bytes} :
    (∃ nameRest valueRest after, memberName bytes = .ok (name, nameRest) ∧
        expect colon nameRest = .ok valueRest ∧ null valueRest = .ok ((), after) ∧
        expect closeBrace after = .ok rest) ↔
      ∃ inside, WritesNullMember name (openBrace :: inside) ∧ bytes = inside ++ rest := by
  constructor
  · rintro ⟨nameRest, valueRest, after, hname, hcolon, hnull, hclose⟩
    obtain ⟨blank, body, front, hblank, hspells, hfront, rfl⟩ :=
      exists_name_iff.1 ⟨nameRest, hname, hcolon⟩
    obtain ⟨back, _, hback, rfl, rfl⟩ := (null_reads.eq_ok_iff _ _ _).1 hnull
    obtain ⟨last, hlast, rfl⟩ := (expect_eq_ok_iff (by decide)).1 hclose
    refine ⟨_, ⟨body, hspells, isObject_singleton_iff.2 ⟨blank, _, last, hblank,
      ⟨front, back, hfront, hback, rfl⟩, hlast, rfl⟩⟩, by simp⟩
  · rintro ⟨inside, ⟨body, hspells, hobject⟩, rfl⟩
    obtain ⟨blank, _, last, hblank, ⟨front, back, hfront, hback, rfl⟩, hlast, heq⟩ :=
      isObject_singleton_iff.1 hobject
    obtain ⟨-, rfl⟩ := List.cons.inj heq
    obtain ⟨nameRest, hname, hcolon⟩ := exists_name_iff.2
      ⟨blank, body, front, hblank, hspells, hfront, Eq.refl (blank ++ (quote :: body ++ quote ::
        front ++ colon :: (back ++ (nullWord ++ (last ++ closeBrace :: rest)))))⟩
    refine ⟨nameRest, _, last ++ closeBrace :: rest, ?_, hcolon, ?_, ?_⟩
    · simpa using hname
    · exact (null_reads.eq_ok_iff _ _ _).2 ⟨back, nullWord, hback, rfl, rfl⟩
    · exact (expect_eq_ok_iff (by decide)).2 ⟨last, hlast, rfl⟩

/-- A choice in the form of an object begins with a brace. -/
theorem WritesNullMember.exists_start {name : String} (h : WritesNullMember name written) :
    ∃ inside, written = openBrace :: inside := by
  obtain ⟨_, -, inside, -, rfl⟩ := h
  exact ⟨inside, rfl⟩

/-- A name that means the value, in one of its two forms. -/
def WritesChoice (names : List (String × α)) (a : α) (written : Bytes) : Prop :=
  ∃ name, meaning names name = .ok a ∧ (WritesText name written ∨ WritesNullMember name written)

/-- One of some names is read exactly where it is written in one of its two forms. -/
theorem choice_reads (names : List (String × α)) : Reads (choice names) (WritesChoice names) where
  eq_ok_iff bytes a rest := by
    constructor
    · intro hread
      unfold choice at hread
      split at hread
      · cases hread
      · next byte behind hskip =>
        obtain ⟨blank, hblank, rfl⟩ := exists_blank_of_skipSpace hskip
        split_ifs at hread with hquote hbrace
        · subst hquote
          obtain ⟨⟨name, after⟩, htext, hstep⟩ := bind_eq_ok_iff.1 hread
          obtain ⟨a, hname, heq⟩ := bind_eq_ok_iff.1 hstep
          cases heq
          obtain ⟨body, hspells, rfl⟩ := text?_eq_some_iff.1 (wellFormed_eq_ok_iff.1 htext)
          refine ⟨blank, quote :: body ++ [quote], hblank, ?_, by simp⟩
          exact ⟨name, hname, .inl ⟨body, hspells, rfl⟩⟩
        · subst hbrace
          obtain ⟨⟨name, nameRest⟩, hmember, hstep⟩ := bind_eq_ok_iff.1 hread
          obtain ⟨found, hname, hstep⟩ := bind_eq_ok_iff.1 hstep
          obtain ⟨valueRest, hcolon, hstep⟩ := bind_eq_ok_iff.1 hstep
          obtain ⟨⟨_, after⟩, hnull, hstep⟩ := bind_eq_ok_iff.1 hstep
          obtain ⟨behindObject, hclose, heq⟩ := bind_eq_ok_iff.1 hstep
          cases heq
          obtain ⟨inside, hwrites, rfl⟩ := exists_nullMember_iff.1
            ⟨nameRest, valueRest, after, hmember, hcolon, hnull, hclose⟩
          exact ⟨blank, openBrace :: inside, hblank, ⟨name, hname, .inr hwrites⟩, rfl⟩
    · rintro ⟨blank, written, hblank, ⟨name, hname, htext | hobject⟩, rfl⟩
      · obtain ⟨body, hspells, rfl⟩ := htext
        have hread := text?_eq_some_iff.2 ⟨body, hspells, Eq.refl (body ++ quote :: rest)⟩
        simp only [List.cons_append, List.append_assoc, List.nil_append]
        rw [choice, skipSpace_token hblank (by decide)]
        simp only [if_true, hread, wellFormed, bind, Except.bind, hname]
        rfl
      · obtain ⟨inside, rfl⟩ := hobject.exists_start
        obtain ⟨nameRest, valueRest, after, hmember, hcolon, hnull, hclose⟩ :=
          exists_nullMember_iff.2 ⟨inside, hobject, Eq.refl (inside ++ rest)⟩
        rw [List.cons_append, choice, skipSpace_token hblank (by decide)]
        simp only [if_neg (show openBrace ≠ quote by decide), if_true, bind, Except.bind, hmember,
          hname, hcolon, hnull, hclose]
        rfl
  isValue := by
    rintro a written ⟨name, -, htext | ⟨body, hspells, hobject⟩⟩
    · exact isValue_of_writesText htext
    · have hnull : IsValue nullWord := .word (by decide)
      exact hobject.isValue (List.forall_mem_singleton.2 ⟨hspells.isBody, hnull⟩)

end FirmwareTransparency.Json
