import FirmwareTransparency.Bytes.Search
import Mathlib.Data.List.Chain
import Mathlib.Data.List.Infix
import Mathlib.Tactic

/-!
# Where a search finds a pattern

A search finds the first place where a pattern stands. So it finds nothing where some two bytes of
the pattern never meet (`Apart.find?_eq_none`), and behind bytes among which the first one of the
pattern is not it finds the pattern where it starts (`splitAtPattern?_append`). Main statement:
`findFrom?_eq_some_iff`.
-/

set_option autoImplicit false

namespace FirmwareTransparency.Bytes

/-! ## The first place -/

/-- A pattern is found where it stands, with more bytes to come, and at no place in front of that.
-/
theorem findFrom?_eq_some_iff {pattern bytes : Bytes} {offset found : Nat} :
    findFrom? pattern offset bytes = some found ↔
      ∃ front back, bytes = front ++ back ∧ back ≠ [] ∧ pattern <+: back ∧
        found = offset + front.length ∧
        ∀ before after, before ++ after = front → after ≠ [] → ¬ pattern <+: after ++ back := by
  induction bytes generalizing offset with
  | nil =>
    simp only [findFrom?, reduceCtorEq, false_iff]
    rintro ⟨front, back, h, hback, -⟩
    exact hback (List.append_eq_nil_iff.1 h.symm).2
  | cons byte rest ih =>
    rw [findFrom?]
    by_cases hstarts : pattern.isPrefixOf (byte :: rest) = true
    · -- The pattern stands at the very first place, so nothing is in front of it.
      rw [if_pos hstarts]
      have hstands := List.isPrefixOf_iff_prefix.1 hstarts
      constructor
      · intro h
        obtain rfl := Option.some.inj h
        refine ⟨[], byte :: rest, rfl, List.cons_ne_nil _ _, hstands, rfl, ?_⟩
        intro before after h hafter
        exact absurd (List.append_eq_nil_iff.1 h).2 hafter
      · rintro ⟨front, back, h, -, -, rfl, hfirst⟩
        by_cases hfront : front = []
        · subst hfront
          rfl
        · exact absurd (h ▸ hstands) (hfirst [] front rfl hfront)
    · -- The first place holds no pattern, and every other one is a place of the rest.
      rw [if_neg hstarts, ih]
      have hstands : ¬pattern <+: byte :: rest := fun h =>
        hstarts (List.isPrefixOf_iff_prefix.2 h)
      constructor
      · rintro ⟨front, back, rfl, hback, hpattern, rfl, hfirst⟩
        refine ⟨byte :: front, back, rfl, hback, hpattern, ?_, ?_⟩
        · rw [List.length_cons]
          omega
        · intro before after h hafter
          cases before with
          | nil =>
            rw [List.nil_append] at h
            rw [h]
            exact hstands
          | cons head before => exact hfirst before after (List.cons.inj h).2 hafter
      · rintro ⟨front, back, h, hback, hpattern, rfl, hfirst⟩
        cases front with
        | nil =>
          rw [List.nil_append] at h
          exact absurd (h ▸ hpattern) hstands
        | cons head front =>
          obtain ⟨rfl, rfl⟩ := List.cons.inj h
          refine ⟨front, back, rfl, hback, hpattern, ?_, ?_⟩
          · rw [List.length_cons]
            omega
          · intro before after h hafter
            exact hfirst (byte :: before) after (by rw [← h]; rfl) hafter

variable {pattern front back bytes more : Bytes} {byte next : UInt8}

/-- An end is dropped from what ends with it. -/
theorem dropBack?_append (bytes back : Bytes) : dropBack? back (bytes ++ back) = some bytes := by
  have hends : back.isSuffixOf (bytes ++ back) = true :=
    List.isSuffixOf_iff_suffix.2 (List.suffix_append bytes back)
  rw [dropBack?, if_pos hends, List.length_append, Nat.add_sub_cancel, List.take_left]

/-- Behind bytes among which the first one of a pattern is not, the pattern is found where it
starts. -/
theorem splitAtPattern?_append (hhead : pattern.head? = some byte) (hclear : byte ∉ front)
    (back : Bytes) :
    splitAtPattern? pattern (front ++ (pattern ++ back)) = some (front, back) := by
  have hfind : find? pattern (front ++ (pattern ++ back)) = some front.length := by
    apply findFrom?_eq_some_iff.2
    refine ⟨front, pattern ++ back, rfl, ?_, List.prefix_append pattern back, by omega, ?_⟩
    · intro hnil
      rw [(List.append_eq_nil_iff.1 hnil).1] at hhead
      cases hhead
    · intro before after hfront hafter hstands
      obtain ⟨first, after, rfl⟩ := List.exists_cons_of_ne_nil hafter
      obtain ⟨tail, htail⟩ := hstands
      obtain ⟨rest, rfl⟩ := List.head?_eq_some_iff.1 hhead
      obtain rfl : byte = first := (List.cons.inj htail).1
      apply hclear
      rw [← hfront]
      exact List.mem_append_right before List.mem_cons_self
  rw [splitAtPattern?, hfind]
  simp only [List.take_left, ← List.drop_drop, List.drop_left]

/-! ## Two bytes that never meet -/

/-- Nowhere does the first byte stand right in front of the second. -/
def Apart (byte next : UInt8) (bytes : Bytes) : Prop :=
  bytes.IsChain fun a b => a = byte → b ≠ next

instance (byte next : UInt8) (bytes : Bytes) : Decidable (Apart byte next bytes) :=
  inferInstanceAs (Decidable (List.IsChain _ _))

/-- A byte that does not occur meets no other. -/
theorem apart_of_not_mem (h : byte ∉ bytes) : Apart byte next bytes := by
  induction bytes with
  | nil => exact .nil
  | cons first rest ih =>
    obtain ⟨hfirst, hrest⟩ := List.ne_and_not_mem_of_not_mem_cons h
    exact (ih hrest).cons fun _ _ heq => absurd heq.symm hfirst

/-- Two parts are kept apart as a whole if the bytes do not meet at the border. -/
theorem Apart.append (h : Apart byte next bytes) (hmore : Apart byte next more)
    (hborder : bytes.getLast? ≠ some byte ∨ more.head? ≠ some next) :
    Apart byte next (bytes ++ more) := by
  apply List.IsChain.append h hmore
  rintro last hlast first hfirst rfl rfl
  rcases hborder with hborder | hborder
  · exact hborder hlast
  · exact hborder hfirst

/-- A part in which the first byte does not occur can stand in front. -/
theorem Apart.append_of_not_mem (h : byte ∉ bytes) (hmore : Apart byte next more) :
    Apart byte next (bytes ++ more) :=
  (apart_of_not_mem h).append hmore (.inl fun hlast => h (List.mem_of_getLast? hlast))

/-- A pattern in which two bytes meet does not stand where they never do. -/
theorem Apart.find?_eq_none (h : Apart byte next bytes) (hpattern : [byte, next] <:+: pattern) :
    find? pattern bytes = none := by
  apply findFrom?_eq_none_iff.2
  rintro front back rfl - hstands
  have hpair : [byte, next] <:+: front ++ back :=
    hpattern.trans (hstands.isInfix.trans (List.suffix_append front back).isInfix)
  have hmeet := List.IsChain.infix h hpair
  exact List.isChain_pair.1 hmeet rfl rfl

end FirmwareTransparency.Bytes
