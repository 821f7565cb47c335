import FirmwareTransparency.Merkle.Tree
import FirmwareTransparency.Proofs.Merkle.Route

/-!
# Audit paths of a tree

A tree is split from the root down, its leaf numbers halve from the leaves up. Where a list of
leaves is split at a power of two, the route of a leaf is its route inside its part and one side
more (`route_of_lt`, `route_of_le`); so both views of the tree agree at every leaf. Main statements:
`ascend_pathOver` says that the audit path of a leaf leads along its route to the root of the tree,
and `Tree.path?_complete` that a tree proves each of its leaves and nothing behind them.
-/

set_option autoImplicit false

namespace FirmwareTransparency.Merkle

/-- The largest power of two below a number is one, and no smaller one would do. -/
theorem exists_largestPowerBelow {n : Nat} (h : 2 ≤ n) :
    ∃ m, largestPowerBelow n = 2 ^ m ∧ 2 ^ m < n ∧ n ≤ 2 ^ (m + 1) := by
  have hpos : 0 < n - 1 := by omega
  have hsucc : bitLength (n - 1) - 1 + 1 = bitLength (n - 1) := by
    rw [bitLength_of_pos hpos]
    omega
  have hpow : largestPowerBelow n = 2 ^ (bitLength (n - 1) - 1) := by
    rw [largestPowerBelow, if_neg (by omega), Nat.one_shiftLeft]
  refine ⟨bitLength (n - 1) - 1, hpow, hpow ▸ largestPowerBelow_lt h, ?_⟩
  have hlt := lt_shiftLeft_bitLength (n - 1)
  rw [Nat.one_shiftLeft] at hlt
  rw [hsucc]
  omega

/-! ## Routes through a split -/

/-- In front of the split the route is that in the perfect left part, with the right part last. -/
theorem route_of_lt {m index last : Nat} (hindex : index < 2 ^ m) (hle : 2 ^ m ≤ last)
    (hlt : last < 2 ^ (m + 1)) : route index last = route index (2 ^ m - 1) ++ [.right] := by
  induction m generalizing index last with
  | zero =>
    obtain rfl : index = 0 := by simpa using hindex
    obtain rfl : last = 1 := by
      simp only [pow_zero, zero_add, pow_one] at hle hlt
      omega
    simp [route]
  | succ m ih =>
    have hpow := Nat.two_pow_pos m
    rw [pow_succ] at hindex hle hlt
    rw [pow_succ] at hlt
    have hhalf : (2 ^ (m + 1) - 1) / 2 = 2 ^ m - 1 := by
      rw [pow_succ]
      omega
    have hup := @ih (index / 2) (last / 2) (by omega) (by omega)
      (by rw [pow_succ]; omega)
    rw [route, if_neg (by omega : last ≠ 0), route.eq_1 index (2 ^ (m + 1) - 1), hhalf,
      if_neg (by rw [pow_succ]; omega : 2 ^ (m + 1) - 1 ≠ 0)]
    by_cases hodd : index % 2 = 1
    · rw [if_pos hodd, if_pos hodd, hup, List.cons_append]
    · rw [if_neg hodd, if_neg hodd, if_neg (by omega), if_neg (by rw [pow_succ]; omega), hup,
        List.cons_append]

/-- Behind the split the route is that in the right part, with the left part last. -/
theorem route_of_le {m index last : Nat} (hle : 2 ^ m ≤ index) (hindex : index ≤ last)
    (hlt : last < 2 ^ (m + 1)) :
    route index last = route (index - 2 ^ m) (last - 2 ^ m) ++ [.left] := by
  induction m generalizing index last with
  | zero =>
    obtain ⟨rfl, rfl⟩ : index = 1 ∧ last = 1 := by
      simp only [pow_zero, zero_add, pow_one] at hle hlt
      omega
    simp [route]
  | succ m ih =>
    have hpow := Nat.two_pow_pos m
    rw [pow_succ] at hle hlt
    rw [pow_succ] at hlt
    have hup := @ih (index / 2) (last / 2) (by omega) (by omega)
      (by rw [pow_succ]; omega)
    have hdiv : ∀ n, 2 ^ m * 2 ≤ n → (n - 2 ^ m * 2) / 2 = n / 2 - 2 ^ m := by omega
    have hmod : (index - 2 ^ m * 2) % 2 = index % 2 := by omega
    rw [pow_succ, route, if_neg (by omega : last ≠ 0), route.eq_1 (index - 2 ^ m * 2),
      hdiv index hle, hdiv last (by omega), hmod]
    by_cases hzero : last - 2 ^ m * 2 = 0
    · -- The right part is a single leaf, so the climb passes its number unhashed.
      obtain ⟨rfl, rfl⟩ : index = 2 ^ m * 2 ∧ last = 2 ^ m * 2 := by omega
      rw [if_neg (by omega), if_pos rfl, if_pos hzero, hup]
      simp [route]
    · rw [if_neg hzero]
      by_cases hodd : index % 2 = 1
      · rw [if_pos hodd, if_pos hodd, hup, List.cons_append]
      · rw [if_neg hodd, if_neg hodd]
        by_cases heq : index = last
        · rw [if_pos heq, if_pos (by omega), hup]
        · rw [if_neg heq, if_neg (by omega), hup, List.cons_append]

/-- In front of the split the route is that in the left part, with the right part as the last
sibling. -/
theorem route_left {index size : Nat} (h : 2 ≤ size) (hindex : index < largestPowerBelow size) :
    route index (size - 1) = route index (largestPowerBelow size - 1) ++ [.right] := by
  obtain ⟨m, hm, hlt, hle⟩ := exists_largestPowerBelow h
  rw [hm] at hindex ⊢
  exact route_of_lt hindex (by omega) (by omega)

/-- Behind the split the route is that in the right part, with the left part as the last sibling. -/
theorem route_right {index size : Nat} (h : 2 ≤ size) (hle : largestPowerBelow size ≤ index)
    (hindex : index < size) :
    route index (size - 1) =
      route (index - largestPowerBelow size) (size - largestPowerBelow size - 1) ++ [.left] := by
  obtain ⟨m, hm, hlt, hpow⟩ := exists_largestPowerBelow h
  rw [hm] at hle ⊢
  rw [Nat.sub_right_comm]
  exact route_of_le hle (by omega) (by omega)

/-! ## Going down a tree -/

/-- The root over two leaves or more joins the roots over the two parts. -/
theorem rootOver_of_two_le {leaves : List Digest} (h : 2 ≤ leaves.length) :
    rootOver leaves = nodeHash (rootOver (leaves.take (largestPowerBelow leaves.length)))
      (rootOver (leaves.drop (largestPowerBelow leaves.length))) := by
  match leaves, h with
  | first :: second :: rest, _ => rw [rootOver]

/-- The path of a leaf in front of the split is that in the left part and the root over the right
part. -/
theorem pathOver_of_lt {index : Nat} {leaves : List Digest} (h : 2 ≤ leaves.length)
    (hindex : index < largestPowerBelow leaves.length) :
    pathOver index leaves =
      pathOver index (leaves.take (largestPowerBelow leaves.length)) ++
        [rootOver (leaves.drop (largestPowerBelow leaves.length))] := by
  match leaves, h with
  | first :: second :: rest, _ => rw [pathOver, if_pos hindex]

/-- The path of a leaf behind the split is that in the right part and the root over the left part.
-/
theorem pathOver_of_le {index : Nat} {leaves : List Digest} (h : 2 ≤ leaves.length)
    (hindex : largestPowerBelow leaves.length ≤ index) :
    pathOver index leaves =
      pathOver (index - largestPowerBelow leaves.length)
          (leaves.drop (largestPowerBelow leaves.length)) ++
        [rootOver (leaves.take (largestPowerBelow leaves.length))] := by
  match leaves, h with
  | first :: second :: rest, _ => rw [pathOver, if_neg (by omega)]

/-- The part in front of the split has as many leaves as the split says. -/
theorem length_take_split {leaves : List Digest} (h : 2 ≤ leaves.length) :
    (leaves.take (largestPowerBelow leaves.length)).length = largestPowerBelow leaves.length := by
  rw [List.length_take, Nat.min_eq_left (largestPowerBelow_lt h).le]

/-- An index behind the split, counted from there, is inside the part that follows. -/
theorem sub_lt_length_drop {leaves : List Digest} {index split : Nat} (hindex : split ≤ index)
    (h : index < leaves.length) : index - split < (leaves.drop split).length := by
  rw [List.length_drop]
  omega

/-- What holds of a single leaf and passes from the part of a split that holds a leaf to the whole
holds of every leaf of every tree. -/
@[elab_as_elim]
theorem split_induction
    {motive : (leaves : List Digest) → (index : Nat) → index < leaves.length → Prop}
    (single : ∀ hash, motive [hash] 0 Nat.one_pos)
    (left : ∀ leaves index (h : index < leaves.length) (htwo : 2 ≤ leaves.length)
      (hindex : index < largestPowerBelow leaves.length),
      motive (leaves.take (largestPowerBelow leaves.length)) index
        ((length_take_split htwo).symm ▸ hindex) → motive leaves index h)
    (right : ∀ leaves index (h : index < leaves.length) (_ : 2 ≤ leaves.length)
      (hindex : largestPowerBelow leaves.length ≤ index),
      motive (leaves.drop (largestPowerBelow leaves.length))
        (index - largestPowerBelow leaves.length) (sub_lt_length_drop hindex h) →
      motive leaves index h)
    (leaves : List Digest) (index : Nat) (h : index < leaves.length) : motive leaves index h := by
  induction hn : leaves.length using Nat.strongRecOn generalizing leaves index with
  | ind n ih =>
    subst hn
    by_cases htwo : 2 ≤ leaves.length
    · have hpos := largestPowerBelow_pos htwo
      have hlt := largestPowerBelow_lt htwo
      by_cases hindex : index < largestPowerBelow leaves.length
      · apply left leaves index h htwo hindex
        refine ih _ ?_ _ _ _ rfl
        rw [length_take_split htwo]
        exact hlt
      · apply right leaves index h htwo (by omega)
        refine ih _ ?_ _ _ _ rfl
        rw [List.length_drop]
        omega
    · obtain ⟨hash, rfl⟩ := List.length_eq_one_iff.1 (by omega : leaves.length = 1)
      obtain rfl : index = 0 := by simpa using h
      exact single hash

/-- The route and the audit path of a leaf side by side. -/
def steps (leaves : List Digest) (index : Nat) : List (Side × Digest) :=
  (route index (leaves.length - 1)).zip (pathOver index leaves)

/-- A path has a hash for every side of the route. -/
theorem length_pathOver {leaves : List Digest} {index : Nat} (h : index < leaves.length) :
    (pathOver index leaves).length = (route index (leaves.length - 1)).length := by
  induction leaves, index, h using split_induction with
  | single hash => simp [pathOver, route]
  | left leaves index h htwo hindex ih =>
    rw [length_take_split htwo] at ih
    rw [pathOver_of_lt htwo hindex, route_left htwo hindex, List.length_append, ih,
      List.length_append]
    rfl
  | right leaves index h htwo hindex ih =>
    rw [List.length_drop] at ih
    rw [pathOver_of_le htwo hindex, route_right htwo hindex h, List.length_append, ih,
      List.length_append]
    rfl

/-- The steps from a leaf in front of the split are those in the left part and one more to the
right. -/
theorem steps_of_lt {leaves : List Digest} {index : Nat} (h : 2 ≤ leaves.length)
    (hindex : index < largestPowerBelow leaves.length) :
    steps leaves index = steps (leaves.take (largestPowerBelow leaves.length)) index ++
      [(.right, rootOver (leaves.drop (largestPowerBelow leaves.length)))] := by
  have htake := length_take_split h
  have hlength : (pathOver index (leaves.take (largestPowerBelow leaves.length))).length =
      (route index ((leaves.take (largestPowerBelow leaves.length)).length - 1)).length :=
    length_pathOver (htake.symm ▸ hindex)
  unfold steps
  rw [htake] at hlength ⊢
  rw [pathOver_of_lt h hindex, route_left h hindex, List.zip_append hlength.symm]
  rfl

/-- The steps from a leaf behind the split are those in the right part and one more to the left. -/
theorem steps_of_le {leaves : List Digest} {index : Nat} (h : 2 ≤ leaves.length)
    (hindex : largestPowerBelow leaves.length ≤ index) (hlast : index < leaves.length) :
    steps leaves index =
      steps (leaves.drop (largestPowerBelow leaves.length))
          (index - largestPowerBelow leaves.length) ++
        [(.left, rootOver (leaves.take (largestPowerBelow leaves.length)))] := by
  have hlength := length_pathOver (sub_lt_length_drop hindex hlast)
  unfold steps
  rw [List.length_drop] at hlength ⊢
  rw [pathOver_of_le h hindex, route_right h hindex hlast, List.zip_append hlength.symm]
  rfl

/-- The audit path of a leaf leads along its route to the root of the tree. -/
theorem ascend_pathOver {leaves : List Digest} {index : Nat} (h : index < leaves.length) :
    ascend leaves[index] (steps leaves index) = rootOver leaves := by
  induction leaves, index, h using split_induction with
  | single hash => simp [steps, pathOver, ascend, rootOver]
  | left leaves index h htwo hindex ih =>
    rw [List.getElem_take] at ih
    rw [steps_of_lt htwo hindex, ascend_append, ih, rootOver_of_two_le htwo]
    rfl
  | right leaves index h htwo hindex ih =>
    simp only [List.getElem_drop, Nat.add_sub_of_le hindex] at ih
    rw [steps_of_le htwo hindex h, ascend_append, ih, rootOver_of_two_le htwo]
    rfl

/-- The audit path that a tree gives for a leaf leads to its root. -/
theorem rootFromPath?_pathOver {leaves : List Digest} {index : Nat} (h : index < leaves.length) :
    rootFromPath? leaves[index] index leaves.length (pathOver index leaves) =
      some (rootOver leaves) :=
  rootFromPath?_eq_some_iff.2 ⟨h, length_pathOver h, ascend_pathOver h⟩

/-! ## Proofs that a tree gives -/

/-- A tree has as many leaves as it was made from. -/
@[simp] theorem Tree.size_ofLeaves (data : List Bytes) : (ofLeaves data).size = data.length :=
  List.length_map leafHash

/-- The leaf hashes of a tree are those of the data that it was made from. -/
@[simp] theorem Tree.leafHash?_ofLeaves (data : List Bytes) (index : Nat) :
    (ofLeaves data).leafHash? index = data[index]?.map leafHash :=
  List.getElem?_map

/-- The path of a leaf has the length that its position asks for and leads to the root. -/
theorem Tree.path?_leads {tree : Tree} {index : Nat} {hash : Digest} {path : List Digest}
    (hleaf : tree.leafHash? index = some hash) (hpath : tree.path? index = some path) :
    pathLength? index tree.size = some path.length ∧
      rootFromPath? hash index tree.size path = some tree.root := by
  obtain ⟨hindex, rfl⟩ := List.getElem?_eq_some_iff.1 hleaf
  rw [path?, size, if_pos hindex] at hpath
  obtain rfl := Option.some.inj hpath
  refine ⟨?_, rootFromPath?_pathOver hindex⟩
  rw [size, pathLength?_eq_length_route hindex, length_pathOver hindex]

/-- A tree gives every leaf a path of the length that the leaf's position asks for, and this path
proves the leaf; behind the last leaf there is neither a path nor a length. -/
theorem Tree.path?_complete (data : List Bytes) (index : Nat) :
    (index < data.length → ∃ hash path,
      (ofLeaves data).leafHash? index = some hash ∧
        (ofLeaves data).path? index = some path ∧
        pathLength? index data.length = some path.length ∧
        rootFromPath? hash index data.length path = some (ofLeaves data).root ∧
        includes hash index data.length path (ofLeaves data).root = true) ∧
      (data.length ≤ index →
        (ofLeaves data).path? index = none ∧ pathLength? index data.length = none) := by
  constructor
  · intro hindex
    have hleaf : (ofLeaves data).leafHash? index = some (leafHash data[index]) := by
      rw [leafHash?_ofLeaves, List.getElem?_eq_getElem hindex, Option.map_some]
    have hpath : (ofLeaves data).path? index = some (pathOver index (ofLeaves data).leaves) := by
      rw [path?, size_ofLeaves, if_pos hindex]
    obtain ⟨hlength, hroot⟩ := path?_leads hleaf hpath
    rw [size_ofLeaves] at hlength hroot
    exact ⟨_, _, hleaf, hpath, hlength, hroot, includes_iff.2 hroot⟩
  · intro hindex
    rw [path?_eq_none_iff, size_ofLeaves, pathLength?_eq_none_iff]
    exact ⟨hindex, hindex⟩

/-- The last leaf of three stands on the right border, one hash below the root. -/
theorem Tree.path?_complete_three :
    (∃ hash path, (ofLeaves [[1], [2], [3]]).leafHash? 2 = some hash ∧
        (ofLeaves [[1], [2], [3]]).path? 2 = some path ∧ path.length = 1 ∧
        includes hash 2 3 path (ofLeaves [[1], [2], [3]]).root = true) ∧
      (ofLeaves [[1], [2], [3]]).path? 3 = none := by
  obtain ⟨hash, path, hhash, hpath, hlength, -, hincludes⟩ :=
    (path?_complete [[1], [2], [3]] 2).1 (by decide)
  have hone : pathLength? 2 3 = some 1 := by decide
  have hsize := hone.symm.trans hlength
  exact ⟨⟨hash, path, hhash, hpath, (Option.some.inj hsize).symm, hincludes⟩,
    ((path?_complete [[1], [2], [3]] 3).2 (by decide)).1⟩

end FirmwareTransparency.Merkle
