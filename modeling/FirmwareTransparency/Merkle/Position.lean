/-!
# Positions in a Merkle tree

A tree of `size` leaves is split at the largest power of two below its size, again and again. On
the way from a leaf to the root the path first climbs inside a perfect subtree, where the bits of
the leaf's index give the sides, and then runs along the right border of the tree, where every
sibling is on the left. This module holds the arithmetic: how many hashes each part has and where
a list of leaves is split.
-/

set_option autoImplicit false

namespace FirmwareTransparency.Merkle

/-- How many binary digits a number has; zero has none. -/
def bitLength (n : Nat) : Nat := if n = 0 then 0 else n.log2 + 1

/-- How many of the lowest `width` binary digits of a number are one. -/
def onesBelow : (width : Nat) → Nat → Nat
  | 0, _ => 0
  | width + 1, n => n % 2 + onesBelow width (n / 2)

/-- How many binary digits of a number are one. -/
def onesCount (n : Nat) : Nat := onesBelow (bitLength n) n

/-- The two parts of an audit path. -/
structure PathShape where
  /-- Hashes below the point where the path meets the right border. -/
  inner : Nat
  /-- Hashes along the right border. -/
  border : Nat
  deriving DecidableEq

/-- How many hashes both parts have together. -/
def PathShape.length (shape : PathShape) : Nat := shape.inner + shape.border

/-- The shape of the audit path of a leaf, or nothing if the tree has no such leaf. -/
def pathShape? (index size : Nat) : Option PathShape :=
  if index < size then
    let inner := bitLength (index ^^^ (size - 1))
    some ⟨inner, onesCount (index >>> inner)⟩
  else none

/-- How many hashes the audit path of a leaf has, or nothing if the tree has no such leaf. -/
def pathLength? (index size : Nat) : Option Nat := (pathShape? index size).map PathShape.length

/-- The largest power of two below a number of at least two. -/
def largestPowerBelow (n : Nat) : Nat := if n ≤ 1 then n else 1 <<< (bitLength (n - 1) - 1)

/-- A path has a shape exactly if the index is in front of the size. -/
theorem pathShape?_eq_none_iff {index size : Nat} :
    pathShape? index size = none ↔ size ≤ index := by
  unfold pathShape?
  split <;> simp <;> omega

/-- A path has a length exactly if the index is in front of the size. -/
theorem pathLength?_eq_none_iff {index size : Nat} :
    pathLength? index size = none ↔ size ≤ index := by
  rw [pathLength?, Option.map_eq_none_iff, pathShape?_eq_none_iff]

/-- A number lies below the power of two that its digit count names. -/
theorem lt_shiftLeft_bitLength (n : Nat) : n < 1 <<< bitLength n := by
  rw [Nat.one_shiftLeft]
  unfold bitLength
  split
  · next h => simp [h]
  · next h => exact Nat.lt_log2_self

/-- The power of two one below the digit count of a positive number does not exceed it. -/
theorem shiftLeft_pred_bitLength_le {n : Nat} (h : 0 < n) : 1 <<< (bitLength n - 1) ≤ n := by
  have hn : n ≠ 0 := by omega
  rw [Nat.one_shiftLeft]
  simpa [bitLength, hn] using Nat.log2_self_le hn

/-- From two leaves on the part in front of the split is not empty. -/
theorem largestPowerBelow_pos {n : Nat} (h : 2 ≤ n) : 0 < largestPowerBelow n := by
  unfold largestPowerBelow
  rw [if_neg (by omega), Nat.one_shiftLeft]
  exact Nat.two_pow_pos _

/-- From two leaves on the part behind the split is not empty. -/
theorem largestPowerBelow_lt {n : Nat} (h : 2 ≤ n) : largestPowerBelow n < n := by
  unfold largestPowerBelow
  rw [if_neg (by omega)]
  have := shiftLeft_pred_bitLength_le (show 0 < n - 1 by omega)
  omega

end FirmwareTransparency.Merkle
