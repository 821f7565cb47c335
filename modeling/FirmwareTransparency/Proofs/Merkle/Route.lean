import Mathlib
import FirmwareTransparency.Merkle.Proof

/-!
# The route from a leaf to the root

The nodes of one level of a tree are numbered from the left, and halving a node's number gives the
number of the node above it. So the sides on which the siblings stand can be read off the leaf's
index and the last index alone, level by level: this is `route`. Recomputing a root from an audit
path counts digits instead. Main statement: `rootFromPath?_eq_ascend` says that both come to the
same, and every statement about audit paths is proved along the route.
-/

set_option autoImplicit false

namespace FirmwareTransparency.Merkle

/-- On which side of a path a sibling stands. -/
inductive Side where
  | left
  | right
  deriving DecidableEq

/-- The string that is hashed for a node and its sibling. -/
def Side.preimage : Side → (hash sibling : Digest) → Bytes
  | .left, hash, sibling => nodePreimage sibling hash
  | .right, hash, sibling => nodePreimage hash sibling

/-- The hash of the node above a node and its sibling. -/
def Side.join (side : Side) (hash sibling : Digest) : Digest := sha256 (side.preimage hash sibling)

/-- The sides of the siblings from a node of a level up to the root. The last node of a level has no
sibling if its number is even, and then stands for the node above it. -/
def route (index last : Nat) : List Side :=
  if last = 0 then []
  else if index % 2 = 1 then .left :: route (index / 2) (last / 2)
  else if index = last then route (index / 2) (last / 2)
  else .right :: route (index / 2) (last / 2)
termination_by last

/-- The root that siblings on given sides lead to. -/
def ascend (hash : Digest) : List (Side × Digest) → Digest
  | [] => hash
  | (side, sibling) :: path => ascend (side.join hash sibling) path

/-- A climb along two parts of a route goes on from where the first part led. -/
theorem ascend_append (hash : Digest) (front back : List (Side × Digest)) :
    ascend hash (front ++ back) = ascend (ascend hash front) back := by
  induction front generalizing hash with
  | nil => rfl
  | cons step front ih => exact ih _

/-! ## Digits -/

/-- Halving a positive number takes off one binary digit. -/
theorem bitLength_of_pos {n : Nat} (h : 0 < n) : bitLength n = bitLength (n / 2) + 1 := by
  unfold bitLength
  rw [if_neg (by omega)]
  rw [Nat.log2_def]
  by_cases h2 : 2 ≤ n
  · rw [if_pos h2, if_neg (by omega)]
  · rw [if_neg h2, if_pos (by omega)]

/-- A number below a power of two has no more digits than the exponent. -/
theorem bitLength_le_of_lt {n width : Nat} (h : n < 2 ^ width) : bitLength n ≤ width := by
  unfold bitLength
  split
  · exact Nat.zero_le _
  · next hn => exact (Nat.log2_lt hn).2 h

/-- The ones of a number are its lowest digit and the ones of its half. -/
theorem onesCount_eq (n : Nat) : onesCount n = n % 2 + onesCount (n / 2) := by
  unfold onesCount
  rcases Nat.eq_zero_or_pos n with rfl | h
  · rfl
  · rw [bitLength_of_pos h, onesBelow]

/-- The digits in which two halves differ are those of the numbers but for the lowest. -/
theorem xor_div_two (a b : Nat) : (a ^^^ b) / 2 = (a / 2) ^^^ (b / 2) := by
  simp only [← Nat.shiftRight_one, Nat.shiftRight_xor_distrib]

/-! ## The shape of an audit path -/

/-- The sides that the lowest digits of an index tell. -/
def innerSides : (index width : Nat) → List Side
  | _, 0 => []
  | index, width + 1 => (if index % 2 = 0 then .right else .left) :: innerSides (index / 2) width

/-- So many digits tell so many sides. -/
@[simp] theorem length_innerSides (index width : Nat) :
    (innerSides index width).length = width := by
  induction width generalizing index with
  | zero => rfl
  | succ width ih => simp [innerSides, ih]

/-- A node on the right border has a sibling for every digit that is one, always on the left. -/
theorem route_self (last : Nat) : route last last = List.replicate (onesCount last) .left := by
  induction last using Nat.strongRecOn with
  | ind last ih =>
    rw [route, onesCount_eq]
    split
    · next h => subst h; rfl
    · next h =>
      rw [ih (last / 2) (by omega)]
      split
      · next hodd => rw [hodd, Nat.add_comm, List.replicate_succ]
      · next heven =>
        have hzero : last % 2 = 0 := by omega
        rw [hzero, Nat.zero_add, if_pos rfl]

/-- The digits in which the index and the last index differ tell the sides up to the right border,
and the digits above them the rest. -/
theorem route_eq {index last : Nat} (h : index ≤ last) :
    route index last =
      innerSides index (bitLength (index ^^^ last)) ++
        List.replicate (onesCount (index >>> bitLength (index ^^^ last))) .left := by
  induction last using Nat.strongRecOn generalizing index with
  | ind last ih =>
    by_cases heq : index = last
    · subst heq
      simp [route_self, innerSides, bitLength]
    · have hxor : 0 < index ^^^ last :=
        Nat.pos_of_ne_zero fun hzero => heq (Nat.xor_eq_zero_iff.1 hzero)
      have hup := ih (last / 2) (by omega) (by omega : index / 2 ≤ last / 2)
      have hshift : index >>> (bitLength (index / 2 ^^^ last / 2) + 1) =
          (index / 2) >>> bitLength (index / 2 ^^^ last / 2) := by
        rw [Nat.add_comm, Nat.shiftRight_add, Nat.shiftRight_one]
      rw [bitLength_of_pos hxor, xor_div_two, hshift, innerSides, List.cons_append, ← hup, route,
        if_neg (by omega : last ≠ 0), if_neg heq]
      by_cases hodd : index % 2 = 1
      · rw [if_pos hodd, if_neg (by omega)]
      · rw [if_neg hodd, if_pos (by omega)]

/-- The shape of an audit path says how its route falls into two parts. -/
theorem exists_pathShape {index size : Nat} (h : index < size) :
    ∃ shape, pathShape? index size = some shape ∧
      route index (size - 1) =
        innerSides index shape.inner ++ List.replicate shape.border .left := by
  refine ⟨_, if_pos h, ?_⟩
  exact route_eq (by omega)

/-- The length that a shape states is that of the route. -/
theorem length_route_of_shape {index size : Nat} {shape : PathShape}
    (h : route index (size - 1) =
      innerSides index shape.inner ++ List.replicate shape.border .left) :
    (route index (size - 1)).length = shape.length := by
  rw [h, List.length_append, length_innerSides, List.length_replicate, PathShape.length]

/-- A path has a hash for every side of its route. -/
theorem pathLength?_eq_length_route {index size : Nat} (h : index < size) :
    pathLength? index size = some (route index (size - 1)).length := by
  obtain ⟨shape, hshape, hroute⟩ := exists_pathShape h
  rw [pathLength?, hshape, Option.map_some, length_route_of_shape hroute]

/-- A path has at most a hash for every binary digit of the last index. -/
theorem length_route_le (index last : Nat) : (route index last).length ≤ bitLength last := by
  induction last using Nat.strongRecOn generalizing index with
  | ind last ih =>
    rw [route]
    split
    · exact Nat.zero_le _
    · next h =>
      have hup := ih (last / 2) (by omega) (index / 2)
      rw [bitLength_of_pos (by omega)]
      split
      · exact Nat.succ_le_succ hup
      · split
        · omega
        · exact Nat.succ_le_succ hup

/-- A path of the right length is cut where its route meets the right border. -/
theorem zip_route {index size : Nat} {shape : PathShape} {path : List Digest}
    (hroute : route index (size - 1) =
      innerSides index shape.inner ++ List.replicate shape.border .left)
    (hlength : path.length = shape.length) :
    (route index (size - 1)).zip path =
      (innerSides index (path.take shape.inner).length).zip (path.take shape.inner) ++
        (List.replicate (path.drop shape.inner).length Side.left).zip (path.drop shape.inner) := by
  have hsum : path.length = shape.inner + shape.border := hlength
  have htake : (path.take shape.inner).length = shape.inner := by
    rw [List.length_take]
    omega
  have hdrop : (path.drop shape.inner).length = shape.border := by
    rw [List.length_drop]
    omega
  rw [htake, hdrop, ← List.zip_append (by rw [length_innerSides, htake]), ← hroute,
    List.take_append_drop]

/-! ## Climbing along the route -/

/-- The inner part of a path is a climb along the sides that the index tells. -/
theorem climbInner_eq_ascend (index : Nat) (hash : Digest) (siblings : List Digest) :
    climbInner index hash siblings =
      ascend hash ((innerSides index siblings.length).zip siblings) := by
  induction siblings generalizing index hash with
  | nil => rfl
  | cons sibling siblings ih =>
    rw [climbInner, ih, List.length_cons, innerSides, List.zip_cons_cons, ascend]
    split <;> rfl

/-- The rest of a path is a climb with every sibling on the left. -/
theorem climbBorder_eq_ascend (hash : Digest) (siblings : List Digest) :
    climbBorder hash siblings =
      ascend hash ((List.replicate siblings.length Side.left).zip siblings) := by
  induction siblings generalizing hash with
  | nil => rfl
  | cons sibling siblings ih =>
    rw [climbBorder, ih, List.length_cons, List.replicate_succ, List.zip_cons_cons, ascend]
    rfl

/-- An audit path of the right length leads where its route leads, and no other leads anywhere. -/
theorem rootFromPath?_eq_ascend {hash : Digest} {index size : Nat} {path : List Digest}
    (h : index < size) :
    rootFromPath? hash index size path =
      if path.length = (route index (size - 1)).length then
        some (ascend hash ((route index (size - 1)).zip path))
      else none := by
  obtain ⟨shape, hshape, hroute⟩ := exists_pathShape h
  have hlength := length_route_of_shape hroute
  unfold rootFromPath?
  rw [hshape]
  by_cases hpath : path.length = shape.length
  · simp only [hpath, hlength, if_true]
    rw [zip_route hroute hpath, ascend_append, ← climbInner_eq_ascend, ← climbBorder_eq_ascend]
  · simp only [hpath, hlength, if_false]

/-- A path leads to a root exactly if the index is in front of the size, the path has a hash for
every side of the route and the climb along it comes to that root. -/
theorem rootFromPath?_eq_some_iff {hash root : Digest} {index size : Nat} {path : List Digest} :
    rootFromPath? hash index size path = some root ↔
      index < size ∧ path.length = (route index (size - 1)).length ∧
        ascend hash ((route index (size - 1)).zip path) = root := by
  by_cases h : index < size
  · rw [rootFromPath?_eq_ascend h]
    by_cases hlength : path.length = (route index (size - 1)).length
    · simp [h, hlength]
    · simp [hlength]
  · have hnone : pathShape? index size = none := pathShape?_eq_none_iff.2 (by omega)
    simp [rootFromPath?, hnone, h]

end FirmwareTransparency.Merkle
