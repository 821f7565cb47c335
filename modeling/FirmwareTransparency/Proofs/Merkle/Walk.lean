import FirmwareTransparency.Proofs.Merkle.Route

/-!
# The walk of the standard

RFC 9162, section 2.1.3.2, checks an inclusion proof without computing a shape for it: it walks up
the tree with the number of a node and the number of the last node of its level, and shifts both to
the right as it takes one sibling after the other. Recomputing a root from the shape of the path is
meant to be the same check. One step of the walk is one side of the route (`Walk.step?_eq`), and a
whole walk is the route (`walk_eq_some_iff`). Main statement: `rootFromPath?_eq_walk` says that both
accept the same paths and come to the same root, for paths of every length and at every position,
the numbers having no width that they could outgrow.
-/

set_option autoImplicit false

namespace FirmwareTransparency.Merkle

/-! ## The walk -/

/-- The state of the walk: a node's number and hash and the number of the last node of its level.
The RFC calls them `fn`, `r` and `sn`. -/
structure Walk where
  node : Nat
  last : Nat
  hash : Digest

/-- Shifts both numbers to the right until the first is odd or zero. -/
def shiftToOdd (node last : Nat) : Nat × Nat :=
  if node % 2 = 1 ∨ node = 0 then (node, last) else shiftToOdd (node >>> 1) (last >>> 1)
termination_by node
decreasing_by
  rw [Nat.shiftRight_one]
  omega

/-- Takes one sibling of the path, or fails where the walk is at the root already. -/
def Walk.step? (walk : Walk) (sibling : Digest) : Option Walk :=
  if walk.last = 0 then none
  else if walk.node % 2 = 1 ∨ walk.node = walk.last then
    let (node, last) :=
      if walk.node % 2 = 1 then (walk.node, walk.last) else shiftToOdd walk.node walk.last
    some ⟨node >>> 1, last >>> 1, nodeHash sibling walk.hash⟩
  else some ⟨walk.node >>> 1, walk.last >>> 1, nodeHash walk.hash sibling⟩

/-- The hash that the walk has come to, if it is at the root. -/
def Walk.root? (walk : Walk) : Option Digest := if walk.last = 0 then some walk.hash else none

/-- The root that a walk along a whole path comes to, or nothing if the tree has no such leaf or the
path ends below the root or goes on above it. -/
def rootByWalk? (hash : Digest) (index size : Nat) (path : List Digest) : Option Digest :=
  if size ≤ index then none
  else (path.foldlM Walk.step? ⟨index, size - 1, hash⟩).bind Walk.root?

/-! ## One step -/

/-- Shifting on the right border passes the levels on which the last node has no sibling. -/
theorem exists_shiftToOdd {node : Nat} (h : 0 < node) :
    ∃ odd, shiftToOdd node node = (odd, odd) ∧ odd % 2 = 1 ∧ route node node = route odd odd := by
  induction node using Nat.strongRecOn with
  | ind node ih =>
    rw [shiftToOdd]
    by_cases hodd : node % 2 = 1
    · exact ⟨node, if_pos (.inl hodd), hodd, rfl⟩
    · obtain ⟨odd, hshift, hlast, hroute⟩ := ih (node / 2) (by omega) (by omega)
      refine ⟨odd, ?_, hlast, ?_⟩
      · rw [if_neg (by omega), Nat.shiftRight_one, hshift]
      · rw [route, if_neg (by omega), if_neg hodd, if_pos rfl, hroute]

/-- Below the root a step of the walk takes the sibling on the side that comes next on the route. -/
theorem Walk.step?_eq {node last : Nat} (hle : node ≤ last) (hlast : last ≠ 0) :
    ∃ side above aboveLast, above ≤ aboveLast ∧ route node last = side :: route above aboveLast ∧
      ∀ hash sibling, step? ⟨node, last, hash⟩ sibling =
        some ⟨above, aboveLast, side.join hash sibling⟩ := by
  have hhalf : node / 2 ≤ last / 2 := Nat.div_le_div_right hle
  by_cases hodd : node % 2 = 1
  · refine ⟨.left, node / 2, last / 2, hhalf, ?_, ?_⟩
    · rw [route, if_neg hlast, if_pos hodd]
    · intro hash sibling
      simp only [step?, hlast, hodd, true_or, if_true, if_false, Nat.shiftRight_one]
      rfl
  · by_cases heq : node = last
    · subst heq
      obtain ⟨odd, hshift, hoddNode, hroute⟩ := exists_shiftToOdd (Nat.pos_of_ne_zero hlast)
      refine ⟨.left, odd / 2, odd / 2, le_rfl, ?_, ?_⟩
      · rw [hroute, route, if_neg (by omega), if_pos hoddNode]
      · intro hash sibling
        simp only [step?, hlast, hodd, hshift, or_true, if_true, if_false, Nat.shiftRight_one]
        rfl
    · refine ⟨.right, node / 2, last / 2, hhalf, ?_, ?_⟩
      · rw [route, if_neg hlast, if_neg hodd, if_neg heq]
      · intro hash sibling
        simp only [step?, hlast, hodd, heq, or_self, if_false, Nat.shiftRight_one]
        rfl

/-! ## A whole walk -/

/-- A route ends exactly at the root, which is the only node of its level. -/
theorem route_eq_nil_iff {node last : Nat} (hle : node ≤ last) :
    route node last = [] ↔ last = 0 := by
  constructor
  · intro hnil
    by_contra hlast
    obtain ⟨side, above, aboveLast, -, hroute, -⟩ := Walk.step?_eq hle hlast
    rw [hroute] at hnil
    cases hnil
  · rintro rfl
    rw [route, if_pos rfl]

/-- A walk has come to a root exactly if it is at the top and has that hash. -/
theorem Walk.root?_eq_some_iff {walk : Walk} {root : Digest} :
    walk.root? = some root ↔ walk.last = 0 ∧ walk.hash = root := by
  unfold root?
  by_cases hlast : walk.last = 0 <;> simp [hlast]

/-- A walk comes to the root exactly along a path that has a sibling for every side of the route,
and then to the root that the route leads to. -/
theorem walk_eq_some_iff {node last : Nat} {hash root : Digest} {path : List Digest}
    (hle : node ≤ last) :
    (path.foldlM Walk.step? ⟨node, last, hash⟩).bind Walk.root? = some root ↔
      path.length = (route node last).length ∧ ascend hash ((route node last).zip path) = root := by
  induction path generalizing node last hash with
  | nil =>
    have hend : 0 = (route node last).length ↔ last = 0 := by
      rw [eq_comm, List.length_eq_zero_iff, route_eq_nil_iff hle]
    rw [List.length_nil, hend, List.zip_nil_right, List.foldlM_nil]
    exact Walk.root?_eq_some_iff
  | cons sibling path ih =>
    rw [List.foldlM_cons]
    by_cases hlast : last = 0
    · -- The walk is at the root, and a sibling is left over.
      have hstep : Walk.step? ⟨node, last, hash⟩ sibling = none := if_pos hlast
      rw [hstep, (route_eq_nil_iff hle).2 hlast]
      simp
    · obtain ⟨side, above, aboveLast, habove, hroute, hstep⟩ := Walk.step?_eq hle hlast
      rw [hstep, hroute, List.length_cons, List.length_cons, Nat.succ_inj, List.zip_cons_cons,
        ascend]
      exact ih habove

/-- Recomputing a root from the shape of a path and walking up the tree as the standard has it
accept the same paths, of whatever length, at every position, and come to the same root. -/
theorem rootFromPath?_eq_walk (hash : Digest) (index size : Nat) (path : List Digest) :
    rootFromPath? hash index size path = rootByWalk? hash index size path := by
  apply Option.ext
  intro root
  rw [rootFromPath?_eq_some_iff, rootByWalk?]
  by_cases hindex : index < size
  · have hle : index ≤ size - 1 := by omega
    rw [if_neg (Nat.not_le.2 hindex), walk_eq_some_iff hle]
    exact and_iff_right hindex
  · rw [if_pos (Nat.not_lt.1 hindex)]
    simp [hindex]

end FirmwareTransparency.Merkle
