import FirmwareTransparency.Merkle.Hash
import FirmwareTransparency.Merkle.Position

/-!
# Inclusion proofs

An inclusion proof is the list of sibling hashes on the way from a leaf to the root. The root is
recomputed from the leaf's hash, its index and the size of the tree; the proof holds if the result
is the root that the log signed.
-/

set_option autoImplicit false

namespace FirmwareTransparency.Merkle

/-- Climbs inside a perfect subtree: the lowest digit of the index tells on which side the sibling
stands. -/
def climbInner : (index : Nat) → (hash : Digest) → (siblings : List Digest) → Digest
  | _, hash, [] => hash
  | index, hash, sibling :: siblings =>
    climbInner (index / 2)
      (if index % 2 = 0 then nodeHash hash sibling else nodeHash sibling hash) siblings

/-- Climbs along the right border, where every sibling stands on the left. -/
def climbBorder : (hash : Digest) → (siblings : List Digest) → Digest
  | hash, [] => hash
  | hash, sibling :: siblings => climbBorder (nodeHash sibling hash) siblings

/-- The root that an audit path leads to, or nothing if the tree has no such leaf or the path has
the wrong length for it. -/
def rootFromPath? (hash : Digest) (index size : Nat) (path : List Digest) : Option Digest :=
  match pathShape? index size with
  | none => none
  | some shape =>
    if path.length = shape.length then
      some (climbBorder (climbInner index hash (path.take shape.inner)) (path.drop shape.inner))
    else none

/-- Whether an audit path leads from a leaf's hash to the given root. -/
def includes (hash : Digest) (index size : Nat) (path : List Digest) (root : Digest) : Bool :=
  rootFromPath? hash index size path = some root

/-- A path proves inclusion exactly if it leads to the expected root. -/
theorem includes_iff {hash : Digest} {index size : Nat} {path : List Digest} {root : Digest} :
    includes hash index size path root = true ↔ rootFromPath? hash index size path = some root := by
  simp [includes]

/-- A path leads to some root exactly if it has the length that its position asks for. -/
theorem rootFromPath?_isSome_iff {hash : Digest} {index size : Nat} {path : List Digest} :
    (rootFromPath? hash index size path).isSome ↔ pathLength? index size = some path.length := by
  unfold rootFromPath? pathLength?
  cases pathShape? index size with
  | none => simp
  | some shape =>
    by_cases h : path.length = shape.length
    · simp [h]
    · simp [h, Ne.symm h]

end FirmwareTransparency.Merkle
