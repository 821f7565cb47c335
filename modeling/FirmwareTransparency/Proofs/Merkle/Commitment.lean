import FirmwareTransparency.Proofs.Merkle.Membership

/-!
# What a root commits to

No size is hashed into a root, so two lists of leaves may be split at different places and still
have to be told apart by their roots. Again the strings that were hashed last tell: that of the tree
without leaves is empty, that of a single leaf starts with the mark of a leaf, and that of a node
spells the roots of both parts, so equal strings come from lists with equal parts. Main statement:
`eq_of_root_eq`.
-/

set_option autoImplicit false

namespace FirmwareTransparency.Merkle

variable {leaves others : List Bytes}

/-! ## The two parts of a list of leaves -/

/-- The two parts of a list of leaves make up the list. -/
theorem Side.ownPart_append (leaves : List Bytes) :
    Side.right.ownPart leaves ++ Side.left.ownPart leaves = leaves :=
  List.take_append_drop _ _

/-- From two leaves on each part is shorter than the whole. -/
theorem Side.length_ownPart_lt (side : Side) (h : 2 ≤ leaves.length) :
    (side.ownPart leaves).length < leaves.length := by
  have hpos := largestPowerBelow_pos h
  have hlt := largestPowerBelow_lt h
  cases side with
  | left =>
    rw [ownPart, List.length_drop]
    omega
  | right =>
    rw [ownPart, List.length_take]
    omega

/-- The root string over two leaves or more consists of the roots over the two parts. -/
theorem rootPreimage_of_two_le (h : 2 ≤ leaves.length) :
    rootPreimage leaves =
      nodePreimage (Tree.ofLeaves (Side.right.ownPart leaves)).root
        (Tree.ofLeaves (Side.left.ownPart leaves)).root := by
  match leaves, h with
  | first :: second :: rest, _ => rfl

/-! ## Equal strings at the root -/

/-- Only without leaves is the root string empty. -/
theorem eq_nil_of_rootPreimage (h : rootPreimage leaves = []) : leaves = [] := by
  match leaves, h with
  | [], _ => rfl
  | [leaf], h => cases h
  | first :: second :: rest, h => cases h

/-- A tree of two leaves or more shares the string at its root only with trees that have two leaves
or more as well, and parts with the same roots as its own. -/
theorem parts_of_rootPreimage_eq (htwo : 2 ≤ leaves.length)
    (h : rootPreimage leaves = rootPreimage others) :
    2 ≤ others.length ∧ ∀ side : Side,
      (Tree.ofLeaves (side.ownPart leaves)).root = (Tree.ofLeaves (side.ownPart others)).root := by
  let front : Digest := (Tree.ofLeaves (Side.right.ownPart leaves)).root
  let back : Digest := (Tree.ofLeaves (Side.left.ownPart leaves)).root
  rw [rootPreimage_of_two_le htwo] at h
  -- Either part is the one that a path may come from, with the other one as its sibling.
  have hright : Side.right.preimage front back = rootPreimage others := h
  have hleft : Side.left.preimage back front = rootPreimage others := h
  obtain ⟨hothers, hfront⟩ := Side.root_ownPart hright
  obtain ⟨-, hback⟩ := Side.root_ownPart hleft
  refine ⟨hothers, ?_⟩
  intro side
  cases side with
  | left => exact hback
  | right => exact hfront

/-- Equal roots have equal root strings, unless these collide. -/
theorem rootPreimage_eq_of_root_eq
    (hroot : (Tree.ofLeaves leaves).root = (Tree.ofLeaves others).root)
    (hfree : CollisionFree (treePreimages leaves ++ treePreimages others)) :
    rootPreimage leaves = rootPreimage others := by
  rw [Tree.root_ofLeaves, Tree.root_ofLeaves] at hroot
  apply hfree _ _ _ _ hroot
  · exact List.mem_append_left _ (rootPreimage_mem leaves)
  · exact List.mem_append_right _ (rootPreimage_mem others)

/-- Without a collision between two trees there is none between their parts on one side. -/
theorem CollisionFree.ownPart (hfree : CollisionFree (treePreimages leaves ++ treePreimages others))
    (hleaves : 2 ≤ leaves.length) (hothers : 2 ≤ others.length) (side : Side) :
    CollisionFree
      (treePreimages (side.ownPart leaves) ++ treePreimages (side.ownPart others)) := by
  apply hfree.subset
  intro string hstring
  rcases List.mem_append.1 hstring with hleft | hright
  · exact List.mem_append_left _ (side.treePreimages_ownPart_subset hleaves hleft)
  · exact List.mem_append_right _ (side.treePreimages_ownPart_subset hothers hright)

/-! ## Equal roots -/

/-- The root of a tree commits to its whole list of leaves, their number included: no other list has
it, unless two of the strings that are hashed for the two lists collide. -/
theorem eq_of_root_eq (hroot : (Tree.ofLeaves leaves).root = (Tree.ofLeaves others).root)
    (hfree : CollisionFree (treePreimages leaves ++ treePreimages others)) : leaves = others := by
  -- Both trees are taken apart at once, along the shape of the first one. Their splits may differ,
  -- but equal parts make equal lists wherever the split was.
  induction hsize : leaves.length using Nat.strongRecOn generalizing leaves others with
  | ind size ih =>
    subst hsize
    have hstring : rootPreimage leaves = rootPreimage others :=
      rootPreimage_eq_of_root_eq hroot hfree
    by_cases htwo : 2 ≤ leaves.length
    · obtain ⟨hothers, hparts⟩ := parts_of_rootPreimage_eq htwo hstring
      have hpart : ∀ side : Side, side.ownPart leaves = side.ownPart others := by
        intro side
        have hsmaller := side.length_ownPart_lt htwo
        exact ih _ hsmaller (hparts side) (hfree.ownPart htwo hothers side) rfl
      rw [← Side.ownPart_append leaves, hpart .right, hpart .left, Side.ownPart_append]
    · match leaves, htwo with
      | [], _ => exact (eq_nil_of_rootPreimage hstring.symm).symm
      | [leaf], _ => exact (eq_singleton_of_leafPreimage hstring).symm
      | first :: second :: rest, htwo => exact absurd (by simp) htwo

/-- A list of leaves that was put together from two, and the same list written out. -/
theorem eq_of_root_eq_three :
    (Tree.ofLeaves ([[1], [2]] ++ [[3]])).root = (Tree.ofLeaves [[1], [2], [3]]).root ∧
      CollisionFree (treePreimages ([[1], [2]] ++ [[3]]) ++ treePreimages [[1], [2], [3]]) ∧
      ([[1], [2]] ++ [[3]] : List Bytes) = [[1], [2], [3]] := by
  have hroot : (Tree.ofLeaves ([[1], [2]] ++ [[3]])).root = (Tree.ofLeaves [[1], [2], [3]]).root :=
    rfl
  have hfree : CollisionFree
      (treePreimages ([[1], [2]] ++ [[3]]) ++ treePreimages [[1], [2], [3]]) := by
    unfold CollisionFree
    decide +kernel
  exact ⟨hroot, hfree, eq_of_root_eq hroot hfree⟩

end FirmwareTransparency.Merkle
