import FirmwareTransparency.Proofs.Json.Record

/-!
# Arrays of any length

An array's elements are read one after the other, each by the same decoder. One step of the loop
takes one item of the grammar, in both directions; the number of steps is not felt because every
element takes a byte or more. Main statement: `list_reads`.
-/

set_option autoImplicit false

namespace FirmwareTransparency.Json

variable {α : Type} {value : Decoder α} {writes : α → Bytes → Prop} {isFirst : Bool} {steps : Nat}
  {done found : List α} {bytes inside rest written : Bytes}

/-- An array of elements that are written each in its own way. -/
def WritesList (writes : α → Bytes → Prop) (list : List α) (written : Bytes) : Prop :=
  ∃ inside, Items writes closeBracket true list inside ∧ written = openBracket :: inside

/-- Items that are written in one way are written in every way that includes it. -/
theorem Items.mono {forms : α → Bytes → Prop} {close : UInt8} {list : List α}
    (h : Items writes close isFirst list inside)
    (hforms : ∀ a written, writes a written → forms a written) :
    Items forms close isFirst list inside := by
  induction h with
  | done hblank => exact .done hblank
  | next hseparator hwrites _ ih => exact .next hseparator (hforms _ _ hwrites) ih

section Elements

variable (h : Reads value writes)
include h

/-- What is read up to the end of an array was written there. -/
theorem exists_of_elements (hread : elements value steps isFirst done bytes = .ok (found, rest)) :
    ∃ list inside, found = done.reverse ++ list ∧ Items writes closeBracket isFirst list inside ∧
      bytes = inside ++ rest := by
  induction steps generalizing isFirst done bytes with
  | zero => cases hread
  | succ steps ih =>
    rw [elements] at hread
    obtain ⟨next, hnext, hstep⟩ := bind_eq_ok_iff.1 hread
    cases next with
    | none =>
      obtain ⟨behind, hclose, heq⟩ := bind_eq_ok_iff.1 hstep
      cases heq
      obtain ⟨blank, hblank, rfl⟩ := (expect_eq_ok_iff (by decide)).1 hclose
      exact ⟨[], blank ++ [closeBracket], by simp, .done hblank, by simp⟩
    | some behind =>
      obtain ⟨⟨a, after⟩, hvalue, hlast⟩ := bind_eq_ok_iff.1 hstep
      obtain ⟨front, rfl, hfront⟩ := nextElement_walks.sound _ _ _ hnext
      obtain ⟨blank, written, hblank, hwrites, rfl⟩ := (h.eq_ok_iff _ _ _).1 hvalue
      obtain ⟨list, inside, rfl, hitems, rfl⟩ := ih hlast
      refine ⟨a :: list, front ++ blank ++ written ++ inside, ?_, ?_, ?_⟩
      · rw [List.reverse_cons, List.append_assoc, List.singleton_append]
      · exact .next (hfront blank hblank) hwrites hitems
      · simp only [List.append_assoc]

/-- The elements that are written up to the end of an array are read behind those so far. -/
theorem elements_of_items {list : List α} (hitems : Items writes closeBracket isFirst list inside)
    (hsteps : list.length < steps) (done : List α) (rest : Bytes) :
    elements value steps isFirst done (inside ++ rest) = .ok (done.reverse ++ list, rest) := by
  induction hitems generalizing steps done with
  | @done isFirst blank hblank =>
    obtain ⟨steps, rfl⟩ := Nat.exists_eq_add_of_lt hsteps
    have hend : nextElement isFirst (blank ++ [closeBracket] ++ rest) = .ok none :=
      (nextElement_walks.end_iff _ _).2 ⟨blank, rest, hblank, by simp⟩
    have hclose : expect closeBracket (blank ++ [closeBracket] ++ rest) = .ok rest :=
      (expect_eq_ok_iff (by decide)).2 ⟨blank, hblank, by simp⟩
    rw [elements, hend]
    simp only [bind, Except.bind, hclose, List.append_nil]
    rfl
  | @next isFirst separator written inside a list hseparator hwrites hitems ih =>
    cases steps with
    | zero => exact absurd hsteps (Nat.not_lt_zero _)
    | succ steps =>
      obtain ⟨byte, more, rfl, hstart⟩ := (h.isValue _ _ hwrites).exists_start
      obtain ⟨blank, hblank, hnext⟩ := nextElement_walks.complete isFirst separator byte
        (more ++ (inside ++ rest)) hseparator hstart.not_isSpace (hstart.ne (by decide))
      have hvalue := (h.eq_ok_iff _ _ _).2
        ⟨blank, byte :: more, hblank, hwrites,
          Eq.refl (blank ++ (byte :: more ++ (inside ++ rest)))⟩
      have hlast := ih (Nat.lt_of_succ_lt_succ hsteps) (a :: done)
      simp only [List.append_assoc, List.cons_append] at hnext hvalue ⊢
      rw [elements, hnext]
      simp only [bind, Except.bind, hvalue, hlast, List.reverse_cons, List.append_assoc,
        List.singleton_append]

/-- The elements that a decoder reads are values. -/
theorem exists_values {list : List α} (hitems : Items writes closeBracket isFirst list inside) :
    ∃ values, Items Eq closeBracket isFirst values inside ∧ ∀ value ∈ values, IsValue value := by
  induction hitems with
  | done hblank => exact ⟨[], .done hblank, List.forall_mem_nil _⟩
  | next hseparator hwrites _ ih =>
    obtain ⟨values, hvalues, hall⟩ := ih
    exact ⟨_ :: values, .next hseparator rfl hvalues,
      List.forall_mem_cons.2 ⟨h.isValue _ _ hwrites, hall⟩⟩

/-- What a decoder reads takes a byte or more. -/
theorem ne_nil_of_writes (a : α) (written : Bytes) (hwrites : writes a written) : written ≠ [] := by
  obtain ⟨byte, more, rfl, -⟩ := (h.isValue a written hwrites).exists_start
  exact List.cons_ne_nil byte more

/-- An array is read exactly where its elements stand written. -/
theorem list_reads : Reads (list value) (WritesList writes) where
  eq_ok_iff bytes found rest := by
    constructor
    · intro hread
      unfold list at hread
      split at hread
      · cases hread
      · next byte behind hskip =>
        split_ifs at hread with hbracket
        subst hbracket
        obtain ⟨blank, hblank, rfl⟩ := exists_blank_of_skipSpace hskip
        obtain ⟨list, inside, rfl, hitems, rfl⟩ := exists_of_elements h hread
        exact ⟨blank, openBracket :: inside, hblank, ⟨inside, hitems, rfl⟩, rfl⟩
    · rintro ⟨blank, written, hblank, ⟨inside, hitems, rfl⟩, rfl⟩
      have hsteps : found.length < (inside ++ rest).length + 1 := by
        have hlength := hitems.length_lt (ne_nil_of_writes h)
        rw [List.length_append]
        omega
      have helements := elements_of_items h hitems hsteps [] rest
      rw [List.cons_append, list, skipSpace_token hblank (by decide)]
      simp only [if_true, helements]
      rfl
  isValue list written := by
    rintro ⟨inside, hitems, rfl⟩
    obtain ⟨values, hvalues, hall⟩ := exists_values h hitems
    exact .array ⟨inside, hvalues, rfl⟩ hall

end Elements

end FirmwareTransparency.Json
