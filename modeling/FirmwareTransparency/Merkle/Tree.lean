import FirmwareTransparency.Merkle.Hash
import FirmwareTransparency.Merkle.Position

/-!
# Merkle trees

The tree over a list of leaves, for making inclusion proofs. It keeps every leaf's hash; a list of
two or more is split at the largest power of two below its length, and a tree without leaves has a
hash of its own.
-/

set_option autoImplicit false

namespace FirmwareTransparency.Merkle

/-- The root over a list of leaf hashes. -/
def rootOver (leaves : List Digest) : Digest :=
  match leaves with
  | [] => emptyHash
  | [leaf] => leaf
  | first :: second :: rest =>
    let all := first :: second :: rest
    let split := largestPowerBelow all.length
    nodeHash (rootOver (all.take split)) (rootOver (all.drop split))
termination_by leaves.length
decreasing_by
  all_goals
    have hpos := largestPowerBelow_pos (n := (first :: second :: rest).length) (by simp)
    have hlt := largestPowerBelow_lt (n := (first :: second :: rest).length) (by simp)
    simp only [List.length_take, List.length_drop]
    omega

/-- The siblings on the way from a leaf to the root over a list of leaf hashes, the leaf's own
sibling first. -/
def pathOver (index : Nat) (leaves : List Digest) : List Digest :=
  match leaves with
  | [] => []
  | [_] => []
  | first :: second :: rest =>
    let all := first :: second :: rest
    let split := largestPowerBelow all.length
    if index < split then
      pathOver index (all.take split) ++ [rootOver (all.drop split)]
    else
      pathOver (index - split) (all.drop split) ++ [rootOver (all.take split)]
termination_by leaves.length
decreasing_by
  all_goals
    have hpos := largestPowerBelow_pos (n := (first :: second :: rest).length) (by simp)
    have hlt := largestPowerBelow_lt (n := (first :: second :: rest).length) (by simp)
    simp only [List.length_take, List.length_drop]
    omega

/-- A Merkle tree, known by the hashes of its leaves. -/
structure Tree where
  leaves : List Digest
  deriving DecidableEq

namespace Tree

/-- The tree without leaves. -/
def empty : Tree := ⟨[]⟩

/-- The tree over a list of leaf data. -/
def ofLeaves (data : List Bytes) : Tree := ⟨data.map leafHash⟩

/-- The tree with one more leaf at its right end. -/
def push (tree : Tree) (data : Bytes) : Tree := ⟨tree.leaves ++ [leafHash data]⟩

/-- How many leaves a tree has. -/
def size (tree : Tree) : Nat := tree.leaves.length

/-- Whether a tree has no leaf. -/
def isEmpty (tree : Tree) : Bool := tree.leaves.isEmpty

/-- The hash of the leaf at an index. -/
def leafHash? (tree : Tree) (index : Nat) : Option Digest := tree.leaves[index]?

/-- The root of a tree. -/
def root (tree : Tree) : Digest := rootOver tree.leaves

/-- The audit path of the leaf at an index, or nothing if there is no such leaf. -/
def path? (tree : Tree) (index : Nat) : Option (List Digest) :=
  if index < tree.size then some (pathOver index tree.leaves) else none

/-- The root of a tree without leaves is the hash of no bytes. -/
@[simp] theorem root_empty : empty.root = emptyHash := by
  simp [root, empty, rootOver]

/-- Adding leaves one by one gives the tree over all of them. -/
theorem push_ofLeaves (data : List Bytes) (last : Bytes) :
    (ofLeaves data).push last = ofLeaves (data ++ [last]) := by
  simp [ofLeaves, push]

/-- A tree has no path exactly for the indices that it has no leaf at. -/
theorem path?_eq_none_iff {tree : Tree} {index : Nat} :
    tree.path? index = none ↔ tree.size ≤ index := by
  simp [path?]

end Tree

end FirmwareTransparency.Merkle
