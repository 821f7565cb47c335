import FirmwareTransparency.Proofs.Merkle.Route

/-!
# Positions in words of 64 bits

Index and size of a tree are stored in words of 64 bits, and a machine computes with the words: it
counts the leading zeros of a word and its ones, and it cannot shift a word by its whole width. This
module does the arithmetic of positions that way, with a result only where every shift stays below
the width. Main statements: `pathShape?_eq`, `rootFromPath?_eq` and `largestPowerBelow?_eq` say that
nothing is lost by it, for any two words.
-/

set_option autoImplicit false

namespace FirmwareTransparency.Merkle

/-! ## Binary digits -/

/-- The digit count of a number is told by two powers of two around it. -/
theorem bitLength_eq_succ {n width : Nat} (hle : 2 ^ width ≤ n) (hlt : n < 2 ^ (width + 1)) :
    bitLength n = width + 1 := by
  have hpos := Nat.two_pow_pos width
  have hzero : n ≠ 0 := by omega
  have hlow := (Nat.le_log2 hzero).2 hle
  have hhigh := (Nat.log2_lt hzero).2 hlt
  rw [bitLength, if_neg hzero]
  omega

/-- The highest of so many digits can be counted apart from the others. -/
theorem onesBelow_succ (width n : Nat) :
    onesBelow (width + 1) n = onesBelow width n + (n.testBit width).toNat := by
  induction width generalizing n with
  | zero =>
    rw [onesBelow, onesBelow, Nat.testBit_zero, Nat.zero_add]
    rcases Nat.mod_two_eq_zero_or_one n with h | h <;> simp [h, onesBelow]
  | succ width ih => rw [onesBelow, ih, onesBelow, Nat.testBit_succ, Nat.add_assoc]

/-- All ones of a number stand in its digits, so more digits have no more of them. -/
theorem onesBelow_eq_onesCount {width n : Nat} (h : n < 2 ^ width) :
    onesBelow width n = onesCount n := by
  induction width generalizing n with
  | zero =>
    obtain rfl : n = 0 := by simpa using h
    rfl
  | succ width ih =>
    rw [Nat.pow_succ] at h
    rw [onesBelow, onesCount_eq, ih (by omega)]

/-! ## The arithmetic of a machine -/

namespace Word

/-- How many binary digits a word has: all but its leading zeros. -/
def bitLength (word : UInt64) : Nat := 64 - word.toBitVec.clz.toNat

/-- How many binary digits of a word are one. -/
def onesCount (word : UInt64) : Nat := word.toBitVec.cpop.toNat

/-- A word shifted to the right, if the shift is by less than its width. -/
def shiftRight? (word : UInt64) (count : Nat) : Option UInt64 :=
  if count < 64 then some (word >>> UInt64.ofNat count) else none

/-- A word shifted to the left, if the shift is by less than its width. -/
def shiftLeft? (word : UInt64) (count : Nat) : Option UInt64 :=
  if count < 64 then some (word <<< UInt64.ofNat count) else none

/-- The shape of the audit path of a leaf, or nothing if the tree has no such leaf. Where the index
and the last index differ in the highest digit, no digit is left above the inner ones. -/
def pathShape? (index size : UInt64) : Option PathShape :=
  if size = 0 ∨ size ≤ index then none
  else
    let inner := bitLength (index ^^^ (size - 1))
    some ⟨inner, onesCount ((shiftRight? index inner).getD 0)⟩

/-- Climbs inside a perfect subtree from a level on, taking the digit of the index at every level by
a shift. -/
def climbInner? (index : UInt64) :
    (level : Nat) → (hash : Digest) → (siblings : List Digest) → Option Digest
  | _, hash, [] => some hash
  | level, hash, sibling :: siblings => do
    let digits ← shiftRight? index level
    climbInner? index (level + 1)
      (if digits &&& 1 = 0 then nodeHash hash sibling else nodeHash sibling hash) siblings

/-- The root that an audit path leads to, or nothing if the tree has no such leaf, if the path has
the wrong length for it, or if a shift on the way is too wide. -/
def rootFromPath? (hash : Digest) (index size : UInt64) (path : List Digest) : Option Digest :=
  match pathShape? index size with
  | none => none
  | some shape =>
    if path.length = shape.length then do
      let corner ← climbInner? index 0 hash (path.take shape.inner)
      return climbBorder corner (path.drop shape.inner)
    else none

/-- The largest power of two below a word of at least two, if it is a word. -/
def largestPowerBelow? (n : UInt64) : Option UInt64 :=
  if n ≤ 1 then some n
  else
    match bitLength (n - 1) with
    | 0 => none
    | count + 1 => shiftLeft? 1 count

/-! ## Words and numbers -/

/-- What the leading zeros leave of a word are its binary digits. -/
theorem bitLength_eq (word : UInt64) : bitLength word = Merkle.bitLength word.toNat := by
  have hlt : word.toNat < 2 ^ (64 - word.toBitVec.clz.toNat) := BitVec.toNat_lt_two_pow_sub_clz
  by_cases hzero : word = 0
  · subst hzero
    rfl
  · have hbits : word.toBitVec ≠ 0#64 := fun h => hzero (UInt64.toBitVec_inj.1 h)
    have hle : 2 ^ (64 - 1 - word.toBitVec.clz.toNat) ≤ word.toNat :=
      BitVec.two_pow_sub_clz_le_toNat_of_ne_zero (by decide) hbits
    have hzeros : word.toBitVec.clz.toNat < 64 :=
      BitVec.lt_def.1 (BitVec.clz_lt_iff_ne_zero.2 hbits)
    have hwidth : 64 - word.toBitVec.clz.toNat = 64 - 1 - word.toBitVec.clz.toNat + 1 := by
      omega
    rw [hwidth] at hlt
    rw [bitLength, hwidth, bitLength_eq_succ hle hlt]

/-- A word has at most 64 binary digits. -/
theorem bitLength_le (word : UInt64) : Merkle.bitLength word.toNat ≤ 64 :=
  bitLength_le_of_lt word.toNat_lt

/-- The recursion that counts the ones of a word counts them from the lowest digit on. -/
theorem cpopNatRec_eq_onesBelow (bits : BitVec 64) (width : Nat) :
    bits.cpopNatRec width 0 = onesBelow width bits.toNat := by
  induction width with
  | zero => rfl
  | succ width ih =>
    rw [BitVec.cpopNatRec_succ, BitVec.cpopNatRec_eq, ih, Nat.zero_add, onesBelow_succ]
    rfl

/-- The ones that are counted in a word are those of its number. -/
theorem onesCount_eq (word : UInt64) : onesCount word = Merkle.onesCount word.toNat := by
  rw [onesCount, BitVec.toNat_cpop, cpopNatRec_eq_onesBelow]
  exact onesBelow_eq_onesCount word.toNat_lt

/-- A shift below the width of the word is the shift of its number. -/
theorem exists_shiftRight? (word : UInt64) {count : Nat} (h : count < 64) :
    ∃ shifted, shiftRight? word count = some shifted ∧ shifted.toNat = word.toNat >>> count := by
  refine ⟨_, if_pos h, ?_⟩
  have hcount : (UInt64.ofNat count).toNat = count :=
    UInt64.toNat_ofNat_of_lt' (Nat.lt_trans h (by decide))
  rw [UInt64.toNat_shiftRight, hcount, Nat.mod_eq_of_lt h]

/-- Where a shift is too wide no digit of the number is left. -/
theorem toNat_shiftRight?_getD (word : UInt64) (count : Nat) :
    ((shiftRight? word count).getD 0).toNat = word.toNat >>> count := by
  by_cases h : count < 64
  · obtain ⟨shifted, hshifted, hvalue⟩ := exists_shiftRight? word h
    rw [hshifted, Option.getD_some, hvalue]
  · have hlt : word.toNat < 2 ^ count :=
      Nat.lt_of_lt_of_le word.toNat_lt (Nat.pow_le_pow_right (by decide) (Nat.le_of_not_lt h))
    rw [shiftRight?, if_neg h, Nat.shiftRight_eq_div_pow, Nat.div_eq_of_lt hlt]
    rfl

/-- One less than a word that is not zero does not wrap around. -/
theorem toNat_sub_one {word : UInt64} (h : word ≠ 0) : (word - 1).toNat = word.toNat - 1 := by
  have hpos : word.toNat ≠ 0 := fun hzero => h (UInt64.toNat_inj.1 hzero)
  apply UInt64.toNat_sub_of_le
  rw [UInt64.le_iff_toNat_le]
  exact Nat.one_le_iff_ne_zero.2 hpos

/-! ## Audit paths -/

/-- The shape of a path comes out the same in words. -/
theorem pathShape?_eq (index size : UInt64) :
    pathShape? index size = Merkle.pathShape? index.toNat size.toNat := by
  have hindex : size ≤ index ↔ ¬index.toNat < size.toNat := by
    rw [UInt64.le_iff_toNat_le, Nat.not_lt]
  unfold pathShape? Merkle.pathShape?
  by_cases hlt : index.toNat < size.toNat
  · have hzero : size ≠ 0 := by
      rintro rfl
      exact Nat.not_lt_zero _ hlt
    rw [if_neg (by simp [hzero, hindex, hlt]), if_pos hlt]
    simp only [bitLength_eq, onesCount_eq, toNat_shiftRight?_getD, UInt64.toNat_xor,
      toNat_sub_one hzero]
  · rw [if_pos (.inr (hindex.2 hlt)), if_neg hlt]

/-- The inner part of a path in a tree that a word counts has at most 64 levels. -/
theorem inner_le {index size : UInt64} {shape : PathShape}
    (h : Merkle.pathShape? index.toNat size.toNat = some shape) : shape.inner ≤ 64 := by
  unfold Merkle.pathShape? at h
  split at h
  · cases h
    apply bitLength_le_of_lt
    have hsize := size.toNat_lt
    exact Nat.xor_lt_two_pow index.toNat_lt (by omega)
  · cases h

/-- A mask of one tells whether a word is even. -/
theorem and_one_eq_zero_iff {word : UInt64} : word &&& 1 = 0 ↔ word.toNat % 2 = 0 := by
  rw [← UInt64.toNat_inj, UInt64.toNat_and]
  exact iff_of_eq (congrArg (· = 0) (Nat.and_one_is_mod _))

/-- No shift is too wide as long as the siblings end at level 64. -/
theorem climbInner?_eq (index : UInt64) {level : Nat} (hash : Digest) {siblings : List Digest}
    (h : level + siblings.length ≤ 64) :
    climbInner? index level hash siblings =
      some (climbInner (index.toNat >>> level) hash siblings) := by
  induction siblings generalizing level hash with
  | nil => rfl
  | cons sibling siblings ih =>
    rw [List.length_cons] at h
    obtain ⟨digits, hdigits, hvalue⟩ := exists_shiftRight? index (by omega : level < 64)
    have hnext : index.toNat >>> (level + 1) = (index.toNat >>> level) / 2 := by
      rw [Nat.shiftRight_add, Nat.shiftRight_one]
    rw [climbInner?, hdigits, Option.bind_eq_bind, Option.bind_some, ih _ (by omega), climbInner,
      hnext]
    simp only [and_one_eq_zero_iff, hvalue]

/-- A path leads to the same root in words; since it leads to one wherever it has the right length,
no shift on the way is too wide. -/
theorem rootFromPath?_eq (hash : Digest) (index size : UInt64) (path : List Digest) :
    rootFromPath? hash index size path =
      Merkle.rootFromPath? hash index.toNat size.toNat path := by
  unfold rootFromPath? Merkle.rootFromPath?
  rw [pathShape?_eq]
  cases hshape : Merkle.pathShape? index.toNat size.toNat with
  | none => rfl
  | some shape =>
    have hinner := inner_le hshape
    have hlength : 0 + (path.take shape.inner).length ≤ 64 := by
      rw [List.length_take]
      omega
    simp only [climbInner?_eq index hash hlength, Nat.shiftRight_zero]
    rfl

/-! ## Splitting -/

/-- The largest power of two below a word is a word. -/
theorem largestPowerBelow?_eq (n : UInt64) :
    ∃ power, largestPowerBelow? n = some power ∧ power.toNat = largestPowerBelow n.toNat := by
  unfold largestPowerBelow? largestPowerBelow
  by_cases hone : n ≤ 1
  · exact ⟨n, if_pos hone, (if_pos (UInt64.le_iff_toNat_le.1 hone)).symm⟩
  · have hnumber : ¬n.toNat ≤ 1 := fun h => hone (UInt64.le_iff_toNat_le.2 h)
    have hzero : n ≠ 0 := by
      rintro rfl
      exact hone (by decide)
    have hpred := toNat_sub_one hzero
    have hdigits := bitLength_le (n - 1)
    rw [hpred] at hdigits
    obtain ⟨count, hcount⟩ : ∃ count, Merkle.bitLength (n.toNat - 1) = count + 1 :=
      ⟨_, bitLength_of_pos (by omega)⟩
    have hlt : count < 64 := by omega
    have hwidth : (UInt64.ofNat count).toNat = count :=
      UInt64.toNat_ofNat_of_lt' (Nat.lt_trans hlt (by decide))
    have hpower : 2 ^ count < 2 ^ 64 := Nat.pow_lt_pow_right (by decide) hlt
    rw [if_neg hone, if_neg hnumber, bitLength_eq, hpred, hcount]
    refine ⟨_, if_pos hlt, ?_⟩
    rw [UInt64.toNat_shiftLeft, hwidth, Nat.mod_eq_of_lt hlt, Nat.add_sub_cancel]
    exact Nat.mod_eq_of_lt (by simpa [Nat.one_shiftLeft] using hpower)

end Word

end FirmwareTransparency.Merkle
