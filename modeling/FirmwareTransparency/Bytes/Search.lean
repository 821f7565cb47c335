import FirmwareTransparency.Bytes.Basic

/-!
# Searching byte strings

The first place where a pattern stands in a byte string, and the parts in front of it and behind it.
-/

set_option autoImplicit false

namespace FirmwareTransparency.Bytes

/-- The first offset at which a pattern stands, the given bytes starting at an offset of their
own. A pattern is looked for at every byte, so an empty string holds none. -/
def findFrom? (pattern : Bytes) (offset : Nat) : Bytes → Option Nat
  | [] => none
  | byte :: rest =>
    if pattern.isPrefixOf (byte :: rest) then some offset
    else findFrom? pattern (offset + 1) rest

/-- The first offset at which a pattern stands. -/
def find? (pattern bytes : Bytes) : Option Nat := findFrom? pattern 0 bytes

/-- The part in front of the first place where a pattern stands, and the part behind the pattern. -/
def splitAtPattern? (pattern bytes : Bytes) : Option (Bytes × Bytes) :=
  match find? pattern bytes with
  | some offset => some (bytes.take offset, bytes.drop (offset + pattern.length))
  | none => none

/-- What follows the given bytes, if they stand at the front. -/
def dropFront? (front bytes : Bytes) : Option Bytes :=
  if front.isPrefixOf bytes then some (bytes.drop front.length) else none

/-- What precedes the given bytes, if they stand at the back. -/
def dropBack? (back bytes : Bytes) : Option Bytes :=
  if back.isSuffixOf bytes then some (bytes.take (bytes.length - back.length)) else none

/-- A front is dropped exactly from what begins with it. -/
theorem dropFront?_eq_some_iff {front bytes rest : Bytes} :
    dropFront? front bytes = some rest ↔ bytes = front ++ rest := by
  unfold dropFront?
  constructor
  · intro h
    split at h
    · next hprefix =>
      obtain ⟨more, rfl⟩ := List.isPrefixOf_iff_prefix.1 hprefix
      simpa [eq_comm] using h
    · cases h
  · rintro rfl
    simp

/-- Searching finds nothing exactly if the pattern stands at no byte. -/
theorem findFrom?_eq_none_iff {pattern bytes : Bytes} {offset : Nat} :
    findFrom? pattern offset bytes = none ↔
      ∀ front back, bytes = front ++ back → back ≠ [] → ¬ pattern <+: back := by
  induction bytes generalizing offset with
  | nil =>
    simp only [findFrom?, true_iff]
    intro front back h hback
    exact absurd (List.append_eq_nil_iff.1 h.symm).2 hback
  | cons byte rest ih =>
    rw [findFrom?]
    split
    · next hprefix =>
      simp only [reduceCtorEq, false_iff]
      intro h
      exact h [] (byte :: rest) rfl (by simp) (List.isPrefixOf_iff_prefix.1 hprefix)
    · next hprefix =>
      rw [ih]
      constructor
      · intro h front back heq hback
        match front with
        | [] =>
          rw [List.nil_append] at heq
          subst heq
          exact fun hp => hprefix (List.isPrefixOf_iff_prefix.2 hp)
        | head :: front =>
          exact h front back (List.cons.inj heq).2 hback
      · intro h front back heq hback
        exact h (byte :: front) back (by rw [heq]; rfl) hback

end FirmwareTransparency.Bytes
