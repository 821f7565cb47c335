import FirmwareTransparency.Proofs.Merkle.AuditPath

/-!
# What a root binds

A hash function cannot be injective, so a statement that a root determines something names the
strings that would have to collide otherwise. `treePreimages` are the strings that are hashed while
a tree is built, `proofPreimages` those that are hashed while a root is recomputed for a leaf. Main
statements: `eq_or_clash_of_includes` says that at one position one root is reached from one leaf
hash by one path only, unless both climbs hash different pairs to one digest at some level;
`getElem?_of_rootFromPath?` that a proof that leads to the root of a tree of the claimed size is a
proof of the leaf that the tree has at the claimed index, unless two of these strings collide.
-/

set_option autoImplicit false

namespace FirmwareTransparency.Merkle

/-- No two different strings of a list have the same digest. -/
def CollisionFree (strings : List Bytes) : Prop :=
  ∀ a ∈ strings, ∀ b ∈ strings, sha256 a = sha256 b → a = b

/-- Without a collision among some strings there is none among fewer. -/
theorem CollisionFree.subset {strings others : List Bytes} (h : CollisionFree others)
    (hsub : strings ⊆ others) : CollisionFree strings :=
  fun a ha b hb => h a (hsub ha) b (hsub hb)

/-! ## Hashed strings -/

/-- The strings that are hashed while a path climbs inside a perfect subtree. -/
def innerPreimages : (index : Nat) → (hash : Digest) → (siblings : List Digest) → List Bytes
  | _, _, [] => []
  | index, hash, sibling :: siblings =>
    if index % 2 = 0 then
      nodePreimage hash sibling :: innerPreimages (index / 2) (nodeHash hash sibling) siblings
    else nodePreimage sibling hash :: innerPreimages (index / 2) (nodeHash sibling hash) siblings

/-- The strings that are hashed while a path climbs along the right border. -/
def borderPreimages : (hash : Digest) → (siblings : List Digest) → List Bytes
  | _, [] => []
  | hash, sibling :: siblings =>
    nodePreimage sibling hash :: borderPreimages (nodeHash sibling hash) siblings

/-- The strings that are hashed while a root is recomputed from a hash and its audit path. -/
def pathPreimages (hash : Digest) (index size : Nat) (path : List Digest) : List Bytes :=
  match pathShape? index size with
  | none => []
  | some shape =>
    if path.length = shape.length then
      innerPreimages index hash (path.take shape.inner) ++
        borderPreimages (climbInner index hash (path.take shape.inner)) (path.drop shape.inner)
    else []

/-- The strings that are hashed while a root is recomputed from a leaf and its audit path. -/
def proofPreimages (data : Bytes) (index size : Nat) (path : List Digest) : List Bytes :=
  leafPreimage data :: pathPreimages (leafHash data) index size path

/-- The strings that are hashed while the root over a list of leaf hashes is computed. -/
def nodePreimages (leaves : List Digest) : List Bytes :=
  match leaves with
  | [] => [[]]
  | [_] => []
  | first :: second :: rest =>
    let all := first :: second :: rest
    let split := largestPowerBelow all.length
    nodePreimage (rootOver (all.take split)) (rootOver (all.drop split)) ::
      (nodePreimages (all.take split) ++ nodePreimages (all.drop split))
termination_by leaves.length
decreasing_by
  all_goals
    have hpos := largestPowerBelow_pos (n := (first :: second :: rest).length) (by simp)
    have hlt := largestPowerBelow_lt (n := (first :: second :: rest).length) (by simp)
    simp only [List.length_take, List.length_drop]
    omega

/-- The strings that are hashed while a tree is built over a list of leaf data. -/
def treePreimages (data : List Bytes) : List Bytes :=
  data.map leafPreimage ++ nodePreimages (data.map leafHash)

/-- The strings that are hashed along a route. -/
def ascendPreimages (hash : Digest) : List (Side × Digest) → List Bytes
  | [] => []
  | (side, sibling) :: path =>
    side.preimage hash sibling :: ascendPreimages (side.join hash sibling) path

/-- Along two parts of a route the strings of the first are hashed, then those of the second. -/
theorem ascendPreimages_append (hash : Digest) (front back : List (Side × Digest)) :
    ascendPreimages hash (front ++ back) =
      ascendPreimages hash front ++ ascendPreimages (ascend hash front) back := by
  induction front generalizing hash with
  | nil => rfl
  | cons step front ih =>
    rw [List.cons_append, ascendPreimages, ascendPreimages, ih, List.cons_append, ascend]

/-- The inner part of a path hashes the strings along the sides that the index tells. -/
theorem innerPreimages_eq (index : Nat) (hash : Digest) (siblings : List Digest) :
    innerPreimages index hash siblings =
      ascendPreimages hash ((innerSides index siblings.length).zip siblings) := by
  induction siblings generalizing index hash with
  | nil => rfl
  | cons sibling siblings ih =>
    rw [innerPreimages, ih, ih, List.length_cons, innerSides, List.zip_cons_cons, ascendPreimages]
    split <;> rfl

/-- The rest of a path hashes the strings of a climb with every sibling on the left. -/
theorem borderPreimages_eq (hash : Digest) (siblings : List Digest) :
    borderPreimages hash siblings =
      ascendPreimages hash ((List.replicate siblings.length Side.left).zip siblings) := by
  induction siblings generalizing hash with
  | nil => rfl
  | cons sibling siblings ih =>
    rw [borderPreimages, ih, List.length_cons, List.replicate_succ, List.zip_cons_cons,
      ascendPreimages]
    rfl

/-- Recomputing a root hashes the strings along the route. -/
theorem pathPreimages_eq_ascendPreimages {hash : Digest} {index size : Nat} {path : List Digest}
    (h : index < size) (hlength : path.length = (route index (size - 1)).length) :
    pathPreimages hash index size path =
      ascendPreimages hash ((route index (size - 1)).zip path) := by
  obtain ⟨shape, hshape, hroute⟩ := exists_pathShape h
  have hpath : path.length = shape.length := hlength.trans (length_route_of_shape hroute)
  unfold pathPreimages
  simp only [hshape, hpath, if_true]
  rw [zip_route hroute hpath, ascendPreimages_append, innerPreimages_eq, borderPreimages_eq,
    climbInner_eq_ascend]

/-! ## Two paths to one root -/

/-- At one level two climbs hash different pairs of children to the same digest. The strings that
each climb hashes are given from the leaf upwards. -/
def Clash (strings others : List Bytes) : Prop :=
  ∃ (level : Nat) (a b c d : Digest), strings[level]? = some (nodePreimage a b) ∧
    others[level]? = some (nodePreimage c d) ∧ (a, b) ≠ (c, d) ∧ nodeHash a b = nodeHash c d

/-- A clash remains one, a level higher, where each climb starts a level further down. -/
theorem Clash.cons {strings others : List Bytes} (h : Clash strings others) (x y : Bytes) :
    Clash (x :: strings) (y :: others) := by
  obtain ⟨level, a, b, c, d, hstring, hother, hne, hhash⟩ := h
  exact ⟨level + 1, a, b, c, d, hstring, hother, hne, hhash⟩

/-- A clash is a collision among the strings of both climbs. -/
theorem Clash.not_collisionFree {strings others : List Bytes} (h : Clash strings others) :
    ¬CollisionFree (strings ++ others) := by
  obtain ⟨level, a, b, c, d, hstring, hother, hne, hhash⟩ := h
  intro hfree
  have hequal := hfree _ (List.mem_append_left _ (List.mem_of_getElem? hstring)) _
    (List.mem_append_right _ (List.mem_of_getElem? hother)) hhash
  obtain ⟨rfl, rfl⟩ := nodePreimage_injective hequal
  exact hne rfl

/-- Nodes with the same hash have the same children, or their pairs of children clash. -/
theorem Side.eq_or_clash {side : Side} {a b s t : Digest} (h : side.join a s = side.join b t)
    (strings others : List Bytes) :
    (a = b ∧ s = t) ∨ Clash (side.preimage a s :: strings) (side.preimage b t :: others) := by
  by_cases hpair : a = b ∧ s = t
  · exact .inl hpair
  · right
    cases side with
    | left =>
      refine ⟨0, s, a, t, b, rfl, rfl, ?_, h⟩
      intro heq
      exact hpair (Prod.mk.inj heq).symm
    | right =>
      refine ⟨0, a, s, b, t, rfl, rfl, ?_, h⟩
      intro heq
      exact hpair (Prod.mk.inj heq)

/-- Two paths with the same sides that lead to the same root are the same path from the same hash,
or clash. -/
theorem ascend_eq_or_clash {sides : List Side} {a b : Digest} {path other : List Digest}
    (hpath : path.length = sides.length) (hother : other.length = sides.length)
    (hroot : ascend a (sides.zip path) = ascend b (sides.zip other)) :
    (a = b ∧ path = other) ∨
      Clash (ascendPreimages a (sides.zip path)) (ascendPreimages b (sides.zip other)) := by
  induction sides generalizing a b path other with
  | nil =>
    obtain rfl := List.length_eq_zero_iff.1 hpath
    obtain rfl := List.length_eq_zero_iff.1 hother
    exact .inl ⟨hroot, rfl⟩
  | cons side sides ih =>
    obtain ⟨s, path, rfl⟩ := List.exists_cons_of_length_eq_add_one hpath
    obtain ⟨t, other, rfl⟩ := List.exists_cons_of_length_eq_add_one hother
    simp only [List.zip_cons_cons, ascend, ascendPreimages] at hroot ⊢
    rcases ih (by simpa using hpath) (by simpa using hother) hroot with ⟨hjoin, rfl⟩ | hclash
    · -- The climbs agree above this level, so a clash can only be at it.
      rcases Side.eq_or_clash hjoin _ _ with ⟨rfl, rfl⟩ | hclash
      · exact .inl ⟨rfl, rfl⟩
      · exact .inr hclash
    · exact .inr (hclash.cons _ _)

/-- Without a collision, two paths with the same sides that lead to the same root are the same path
from the same hash. -/
theorem ascend_injective {sides : List Side} {a b : Digest} {path other : List Digest}
    (hpath : path.length = sides.length) (hother : other.length = sides.length)
    (hroot : ascend a (sides.zip path) = ascend b (sides.zip other))
    (hfree : CollisionFree
      (ascendPreimages a (sides.zip path) ++ ascendPreimages b (sides.zip other))) :
    a = b ∧ path = other :=
  (ascend_eq_or_clash hpath hother hroot).resolve_right fun hclash => hclash.not_collisionFree hfree

/-- With the position and the root kept, no other leaf hash and no other path are accepted, unless
two climbs clash. -/
theorem eq_or_clash_of_includes {a b root : Digest} {index size : Nat} {path other : List Digest}
    (hpath : includes a index size path root = true)
    (hother : includes b index size other root = true) :
    path.length = other.length ∧
      ((a = b ∧ path = other) ∨
        Clash (pathPreimages a index size path) (pathPreimages b index size other)) := by
  obtain ⟨hindex, hlength, hascend⟩ := rootFromPath?_eq_some_iff.1 (includes_iff.1 hpath)
  obtain ⟨-, hotherLength, hotherAscend⟩ := rootFromPath?_eq_some_iff.1 (includes_iff.1 hother)
  refine ⟨hlength.trans hotherLength.symm, ?_⟩
  rw [pathPreimages_eq_ascendPreimages hindex hlength,
    pathPreimages_eq_ascendPreimages hindex hotherLength]
  exact ascend_eq_or_clash hlength hotherLength (hascend.trans hotherAscend.symm)

/-- The path that is taken from the tree is the one path that proves its first leaf. -/
theorem eq_or_clash_of_includes_three :
    includes (leafHash [1]) 0 3 [leafHash [2], leafHash [3]]
        (Tree.ofLeaves [[1], [2], [3]]).root = true ∧
      includes (leafHash [1]) 0 3 (pathOver 0 [leafHash [1], leafHash [2], leafHash [3]])
        (Tree.ofLeaves [[1], [2], [3]]).root = true ∧
      ((leafHash [1] = leafHash [1] ∧ [leafHash [2], leafHash [3]] =
          pathOver 0 [leafHash [1], leafHash [2], leafHash [3]]) ∨
        Clash (pathPreimages (leafHash [1]) 0 3 [leafHash [2], leafHash [3]])
          (pathPreimages (leafHash [1]) 0 3
            (pathOver 0 [leafHash [1], leafHash [2], leafHash [3]]))) := by
  have hpath : includes (leafHash [1]) 0 3 [leafHash [2], leafHash [3]]
      (Tree.ofLeaves [[1], [2], [3]]).root = true := by
    decide +kernel
  have hother : includes (leafHash [1]) 0 3
      (pathOver 0 [leafHash [1], leafHash [2], leafHash [3]])
      (Tree.ofLeaves [[1], [2], [3]]).root = true := by
    decide +kernel
  exact ⟨hpath, hother, (eq_or_clash_of_includes hpath hother).2⟩

/-! ## A path and a tree -/

/-- Above two leaves or more the string of the root is hashed and those of the two parts. -/
theorem nodePreimages_of_two_le {leaves : List Digest} (h : 2 ≤ leaves.length) :
    nodePreimages leaves =
      nodePreimage (rootOver (leaves.take (largestPowerBelow leaves.length)))
          (rootOver (leaves.drop (largestPowerBelow leaves.length))) ::
        (nodePreimages (leaves.take (largestPowerBelow leaves.length)) ++
          nodePreimages (leaves.drop (largestPowerBelow leaves.length))) := by
  match leaves, h with
  | first :: second :: rest, _ => rw [nodePreimages]

/-- What is hashed along the audit path of a leaf is hashed while the tree is built. -/
theorem ascendPreimages_steps_subset {leaves : List Digest} {index : Nat}
    (h : index < leaves.length) :
    ascendPreimages leaves[index] (steps leaves index) ⊆ nodePreimages leaves := by
  induction leaves, index, h using split_induction with
  | single hash => simp [steps, pathOver, ascendPreimages]
  | left leaves index h htwo hindex ih =>
    have hroot := ascend_pathOver ((length_take_split htwo).symm ▸ hindex)
    rw [List.getElem_take] at ih hroot
    rw [steps_of_lt htwo hindex, ascendPreimages_append, nodePreimages_of_two_le htwo, hroot]
    intro string hstring
    rcases List.mem_append.1 hstring with hfront | hlast
    · exact List.mem_cons_of_mem _ (List.mem_append_left _ (ih hfront))
    · obtain rfl := List.mem_singleton.1 hlast
      exact List.mem_cons_self
  | right leaves index h htwo hindex ih =>
    have hroot := ascend_pathOver (sub_lt_length_drop hindex h)
    simp only [List.getElem_drop, Nat.add_sub_of_le hindex] at ih hroot
    rw [steps_of_le htwo hindex h, ascendPreimages_append, nodePreimages_of_two_le htwo, hroot]
    intro string hstring
    rcases List.mem_append.1 hstring with hfront | hlast
    · exact List.mem_cons_of_mem _ (List.mem_append_right _ (ih hfront))
    · obtain rfl := List.mem_singleton.1 hlast
      exact List.mem_cons_self

/-- A proof that leads to the root of a tree of the claimed size is about the leaf that the tree has
at the claimed index. -/
theorem getElem?_of_rootFromPath? {leaves : List Bytes} {data : Bytes} {index size : Nat}
    {path : List Digest} (hsize : leaves.length = size)
    (hroot : rootFromPath? (leafHash data) index size path = some (Tree.ofLeaves leaves).root)
    (hfree : CollisionFree (treePreimages leaves ++ proofPreimages data index size path)) :
    leaves[index]? = some data := by
  subst hsize
  obtain ⟨hindex, hlength, hascend⟩ := rootFromPath?_eq_some_iff.1 hroot
  have hhashes : index < (leaves.map leafHash).length := by
    rw [List.length_map]
    exact hindex
  have htree := ascend_pathOver hhashes
  have hsteps := ascendPreimages_steps_subset hhashes
  have hpath := length_pathOver hhashes
  simp only [steps, List.length_map, List.getElem_map] at htree hsteps hpath
  rw [proofPreimages, pathPreimages_eq_ascendPreimages hindex hlength] at hfree
  -- The given path and the tree's own climb from the same place to the same root.
  have hboth : CollisionFree
      (ascendPreimages (leafHash data) ((route index (leaves.length - 1)).zip path) ++
        ascendPreimages (leafHash leaves[index])
          ((route index (leaves.length - 1)).zip (pathOver index (leaves.map leafHash)))) := by
    apply hfree.subset
    intro string hstring
    rcases List.mem_append.1 hstring with hproof | htree
    · exact List.mem_append_right _ (List.mem_cons_of_mem _ hproof)
    · exact List.mem_append_left _ (List.mem_append_right _ (hsteps htree))
  obtain ⟨hleaf, -⟩ := ascend_injective hlength hpath (hascend.trans htree.symm) hboth
  have hmem : leafPreimage leaves[index] ∈ treePreimages leaves :=
    List.mem_append_left _ (List.mem_map_of_mem (List.getElem_mem hindex))
  have hstring : leafPreimage data = leafPreimage leaves[index] :=
    hfree _ (List.mem_append_right _ List.mem_cons_self) _ (List.mem_append_left _ hmem) hleaf
  rw [leafPreimage_injective hstring, List.getElem?_eq_getElem hindex]

end FirmwareTransparency.Merkle
