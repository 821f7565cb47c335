import FirmwareTransparency.Proofs.Merkle.Binding

/-!
# Membership

The size and the index that a proof claims need not be those of the tree, so the shape of its route
says nothing about the shape of the tree. What binds the two is the string that was hashed last: it
is the string of a leaf or that of a node, and a node's string spells both children. Main statement:
`mem_of_includes` says that whatever position a proof claims, a leaf that it leads from to the root
of a tree is one of the tree's leaves, unless two of the hashed strings collide.
-/

set_option autoImplicit false

namespace FirmwareTransparency.Merkle

/-! ## The string hashed last -/

/-- The part of a list of leaves that a path comes from if its last sibling stands on the given
side. -/
def Side.ownPart : Side → List Bytes → List Bytes
  | .left, leaves => leaves.drop (largestPowerBelow leaves.length)
  | .right, leaves => leaves.take (largestPowerBelow leaves.length)

/-- The string whose digest is the root over a list of leaf data. -/
def rootPreimage (leaves : List Bytes) : Bytes :=
  match leaves with
  | [] => []
  | [leaf] => leafPreimage leaf
  | first :: second :: rest =>
    nodePreimage (Tree.ofLeaves (Side.right.ownPart (first :: second :: rest))).root
      (Tree.ofLeaves (Side.left.ownPart (first :: second :: rest))).root

/-- The root of a tree is the hash of its root string, whatever the number of leaves. -/
theorem Tree.root_ofLeaves (leaves : List Bytes) :
    (ofLeaves leaves).root = sha256 (rootPreimage leaves) := by
  match leaves with
  | [] => exact root_empty
  | [leaf] => simp [root, ofLeaves, rootOver, rootPreimage, leafHash]
  | first :: second :: rest =>
    have htwo : 2 ≤ ((first :: second :: rest).map leafHash).length := by simp
    simp only [root, ofLeaves, rootPreimage, Side.ownPart]
    rw [rootOver_of_two_le htwo, List.length_map, ← List.map_take, ← List.map_drop]
    rfl

/-- Above the leaves, a tree hashes the string of its root and what its two parts hash. -/
theorem nodePreimages_map {leaves : List Bytes} (h : 2 ≤ leaves.length) :
    nodePreimages (leaves.map leafHash) =
      rootPreimage leaves ::
        (nodePreimages ((Side.right.ownPart leaves).map leafHash) ++
          nodePreimages ((Side.left.ownPart leaves).map leafHash)) := by
  match leaves, h with
  | first :: second :: rest, h =>
    have htwo : 2 ≤ ((first :: second :: rest).map leafHash).length := by
      rw [List.length_map]
      exact h
    rw [nodePreimages_of_two_le htwo, List.length_map, ← List.map_take, ← List.map_drop]
    rfl

/-- Building a tree hashes the string of its root. -/
theorem rootPreimage_mem (leaves : List Bytes) : rootPreimage leaves ∈ treePreimages leaves := by
  match leaves with
  | [] => simp [rootPreimage, treePreimages, nodePreimages]
  | [leaf] => simp [rootPreimage, treePreimages]
  | first :: second :: rest =>
    apply List.mem_append_right
    rw [nodePreimages_map (by simp)]
    exact List.mem_cons_self

/-- Only a single leaf has the string of a leaf at its root. -/
theorem eq_singleton_of_leafPreimage {data : Bytes} {leaves : List Bytes}
    (h : leafPreimage data = rootPreimage leaves) : leaves = [data] := by
  match leaves, h with
  | [], h => simp [leafPreimage, rootPreimage] at h
  | [leaf], h => rw [leafPreimage_injective h]
  | first :: second :: rest, h => exact absurd h (leafPreimage_ne_nodePreimage _ _ _)

/-- Only two leaves or more have the string of a node at their root, and the child that the path
comes from is the root over one part of them. -/
theorem Side.root_ownPart {side : Side} {hash sibling : Digest} {leaves : List Bytes}
    (h : side.preimage hash sibling = rootPreimage leaves) :
    2 ≤ leaves.length ∧ hash = (Tree.ofLeaves (side.ownPart leaves)).root := by
  match leaves, h with
  | [], h => cases side <;> simp [Side.preimage, nodePreimage, rootPreimage] at h
  | [leaf], h => cases side <;> exact absurd h.symm (leafPreimage_ne_nodePreimage _ _ _)
  | first :: second :: rest, h =>
    refine ⟨by simp, ?_⟩
    cases side with
    | left => exact (nodePreimage_injective h).2
    | right => exact (nodePreimage_injective h).1

/-- The leaves of a part are leaves of the whole. -/
theorem Side.ownPart_subset (side : Side) (leaves : List Bytes) : side.ownPart leaves ⊆ leaves := by
  cases side with
  | left => exact List.drop_subset _ _
  | right => exact List.take_subset _ _

/-- Building a tree hashes what building its parts hashes. -/
theorem Side.treePreimages_ownPart_subset (side : Side) {leaves : List Bytes}
    (h : 2 ≤ leaves.length) : treePreimages (side.ownPart leaves) ⊆ treePreimages leaves := by
  intro string hstring
  rcases List.mem_append.1 hstring with hleaf | hnode
  · exact List.mem_append_left _ (List.map_subset _ (side.ownPart_subset leaves) hleaf)
  · apply List.mem_append_right
    rw [nodePreimages_map h]
    apply List.mem_cons_of_mem
    cases side with
    | left => exact List.mem_append_right _ hnode
    | right => exact List.mem_append_left _ hnode

/-! ## A path against a tree of another shape -/

/-- A leaf from which any steps lead to the root of a tree is one of the tree's leaves. -/
theorem mem_of_ascend {leaves : List Bytes} {data : Bytes} {steps : List (Side × Digest)}
    (hroot : ascend (leafHash data) steps = (Tree.ofLeaves leaves).root)
    (hfree : CollisionFree
      (treePreimages leaves ++ leafPreimage data :: ascendPreimages (leafHash data) steps)) :
    data ∈ leaves := by
  -- The steps are taken back from the root, and the tree goes down to the part that they came from.
  induction steps using List.reverseRecOn generalizing leaves with
  | nil =>
    rw [Tree.root_ofLeaves] at hroot
    have hstring : leafPreimage data = rootPreimage leaves :=
      hfree _ (by simp) _ (List.mem_append_left _ (rootPreimage_mem leaves)) hroot
    rw [eq_singleton_of_leafPreimage hstring]
    exact List.mem_singleton_self data
  | append_singleton steps step ih =>
    obtain ⟨side, sibling⟩ := step
    rw [ascend_append, Tree.root_ofLeaves] at hroot
    rw [ascendPreimages_append] at hfree
    have hstring : side.preimage (ascend (leafHash data) steps) sibling = rootPreimage leaves :=
      hfree _ (by simp [ascendPreimages]) _
        (List.mem_append_left _ (rootPreimage_mem leaves)) hroot
    obtain ⟨htwo, hpart⟩ := Side.root_ownPart hstring
    apply side.ownPart_subset leaves
    apply ih hpart
    apply hfree.subset
    intro string hmem
    rcases List.mem_append.1 hmem with htree | hpath
    · exact List.mem_append_left _ (side.treePreimages_ownPart_subset htwo htree)
    · rcases List.mem_cons.1 hpath with rfl | hpath
      · simp
      · exact List.mem_append_right _
          (List.mem_cons_of_mem _ (List.mem_append_left _ hpath))

/-- Whatever position a proof claims, a leaf that it leads from to the root of a tree is one of the
tree's leaves. -/
theorem mem_of_includes {leaves : List Bytes} {data : Bytes} {index size : Nat}
    {path : List Digest}
    (h : includes (leafHash data) index size path (Tree.ofLeaves leaves).root = true)
    (hfree : CollisionFree (treePreimages leaves ++ proofPreimages data index size path)) :
    data ∈ leaves := by
  obtain ⟨hindex, hlength, hascend⟩ := rootFromPath?_eq_some_iff.1 (includes_iff.1 h)
  rw [proofPreimages, pathPreimages_eq_ascendPreimages hindex hlength] at hfree
  exact mem_of_ascend hascend hfree

/-- The last of three leaves, claimed to be the last of two, is a leaf all the same. -/
theorem mem_of_includes_misplaced :
    includes (leafHash [3]) 1 2 [nodeHash (leafHash [1]) (leafHash [2])]
        (Tree.ofLeaves [[1], [2], [3]]).root = true ∧
      CollisionFree (treePreimages [[1], [2], [3]] ++
        proofPreimages [3] 1 2 [nodeHash (leafHash [1]) (leafHash [2])]) ∧
      [3] ∈ ([[1], [2], [3]] : List Bytes) := by
  have hincludes : includes (leafHash [3]) 1 2 [nodeHash (leafHash [1]) (leafHash [2])]
      (Tree.ofLeaves [[1], [2], [3]]).root = true := by
    decide +kernel
  have hfree : CollisionFree (treePreimages [[1], [2], [3]] ++
      proofPreimages [3] 1 2 [nodeHash (leafHash [1]) (leafHash [2])]) := by
    unfold CollisionFree
    decide +kernel
  exact ⟨hincludes, hfree, mem_of_includes hincludes hfree⟩

end FirmwareTransparency.Merkle
