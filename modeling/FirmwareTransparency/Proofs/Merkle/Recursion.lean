import FirmwareTransparency.Proofs.Merkle.AuditPath
import FirmwareTransparency.Proofs.Merkle.Words

/-!
# The two recursions over a tree

The root and the audit path of a leaf are computed by splitting the list of leaf hashes. A list
without leaves would be split into itself and so without end (`not_acc_root_nil`); what keeps the
recursions from such a list is how the tree starts them. `Call` is one call of either, and
`Call.next` are the calls that it makes itself. One step from a proper call leads to proper calls on
shorter lists (`Call.Proper.of_mem_next`), hence so does any number of steps, and there is an end of
steps. Main statement: `recursion_wellFounded`.
-/

set_option autoImplicit false

namespace FirmwareTransparency.Merkle

/-! ## The point of a split -/

/-- A power of two below a number that twice reaches it. -/
structure IsLargestPowerBelow (n power : Nat) : Prop where
  isPower : ∃ m, power = 2 ^ m
  lt : power < n
  le : n ≤ 2 * power

/-- The split of two leaves or more is such a power. -/
theorem isLargestPowerBelow {n : Nat} (h : 2 ≤ n) :
    IsLargestPowerBelow n (largestPowerBelow n) := by
  obtain ⟨m, hpower, hlt, hle⟩ := exists_largestPowerBelow h
  rw [Nat.pow_succ'] at hle
  rw [hpower]
  exact ⟨⟨m, rfl⟩, hlt, hle⟩

/-- Two such powers would lie below twice each other. -/
theorem IsLargestPowerBelow.unique {n power other : Nat} (h : IsLargestPowerBelow n power)
    (hother : IsLargestPowerBelow n other) : other = power := by
  obtain ⟨⟨m, rfl⟩, hlt, hle⟩ := h
  obtain ⟨⟨k, rfl⟩, hotherLt, hotherLe⟩ := hother
  rw [← Nat.pow_succ'] at hle hotherLe
  have hup : m < k + 1 := (Nat.pow_lt_pow_iff_right (by decide)).1 (Nat.lt_of_lt_of_le hlt hotherLe)
  have hdown : k < m + 1 :=
    (Nat.pow_lt_pow_iff_right (by decide)).1 (Nat.lt_of_lt_of_le hotherLt hle)
  rw [show k = m by omega]

/-! ## Calls -/

/-- A call of one of the recursions. -/
inductive Call where
  /-- For the root over a list of leaf hashes. -/
  | root (leaves : List Digest)
  /-- For the audit path of the leaf at an index of a list. -/
  | path (index : Nat) (leaves : List Digest)

namespace Call

/-- The list that a call works on. -/
def leaves : Call → List Digest
  | root leaves => leaves
  | path _ leaves => leaves

/-- Where a call splits its list. -/
def split (call : Call) : Nat := largestPowerBelow call.leaves.length

/-- The part of a call's list in front of the split. -/
def front (call : Call) : List Digest := call.leaves.take call.split

/-- The part of a call's list behind the split. -/
def back (call : Call) : List Digest := call.leaves.drop call.split

/-- The calls that a call makes itself. For a root only a list of one leaf is not split, for a path
no list of less than two. -/
def next : Call → List Call
  | root leaves =>
    if leaves.length = 1 then [] else [root (root leaves).front, root (root leaves).back]
  | path index leaves =>
    let call := path index leaves
    if leaves.length ≤ 1 then []
    else if index < call.split then [path index call.front, root call.back]
    else [path (index - call.split) call.back, root call.front]

/-- The hashes that a call gives. -/
def result : Call → List Digest
  | root leaves => [rootOver leaves]
  | path index leaves => pathOver index leaves

/-- What a call makes of the hashes that its own calls give. -/
def combine : Call → List (List Digest) → List Digest
  | root _, [[left], [right]] => [nodeHash left right]
  | root leaves, _ => leaves
  | path _ _, [siblings, [last]] => siblings ++ [last]
  | path _ _, _ => []

/-- A call is proper if there is a leaf for it: any for a root, that at the index for a path. -/
def Proper : Call → Prop
  | root leaves => leaves ≠ []
  | path index leaves => index < leaves.length

/-- A call makes another, through any number of calls in between. -/
def Reaches : Call → Call → Prop := Relation.ReflTransGen fun call sub => sub ∈ call.next

variable {call sub : Call}

/-- A proper call has a leaf to work on. -/
theorem Proper.length_pos (h : call.Proper) : 0 < call.leaves.length := by
  cases call with
  | root leaves => exact List.length_pos_of_ne_nil h
  | path index leaves => exact Nat.zero_lt_of_lt h

/-! ## One step -/

/-- The part in front of the split has as many leaves as the split says. -/
theorem length_front (h : 2 ≤ call.leaves.length) : call.front.length = call.split :=
  length_take_split h

/-- The part behind the split has the others. -/
theorem length_back (call : Call) : call.back.length = call.leaves.length - call.split :=
  List.length_drop

/-- A list of two leaves or more is split inside. -/
theorem split_bounds (h : 2 ≤ call.leaves.length) :
    0 < call.split ∧ call.split < call.leaves.length :=
  ⟨largestPowerBelow_pos h, largestPowerBelow_lt h⟩

/-- Both parts of two leaves or more are shorter than the list, and neither is empty. -/
theorem parts_shorter (h : 2 ≤ call.leaves.length) :
    ∀ part ∈ [call.front, call.back], part ≠ [] ∧ part.length < call.leaves.length := by
  obtain ⟨hpos, hlt⟩ := split_bounds h
  have hfront := length_front h
  have hback := call.length_back
  intro part hpart
  rw [← List.length_pos_iff]
  rcases List.mem_pair.1 hpart with rfl | rfl <;> omega

/-! The equations of `next`, one for each case. -/

/-- Over one leaf no call is made. -/
theorem next_of_one (h : call.leaves.length = 1) : call.next = [] := by
  cases call with
  | root leaves => exact if_pos h
  | path index leaves => exact if_pos (Nat.le_of_eq h)

/-- Over two leaves or more a root asks for the roots over both parts. -/
theorem next_root {leaves : List Digest} (h : 2 ≤ (root leaves).leaves.length) :
    (root leaves).next = [root (root leaves).front, root (root leaves).back] :=
  if_neg (Nat.ne_of_gt h)

/-- A path to an index in front of the split goes on there and asks for the root over what is
behind. -/
theorem next_path_of_lt {index : Nat} {leaves : List Digest}
    (h : 2 ≤ (path index leaves).leaves.length)
    (hindex : index < (path index leaves).split) :
    (path index leaves).next =
      [path index (path index leaves).front, root (path index leaves).back] :=
  (if_neg (Nat.not_le.2 h)).trans (if_pos hindex)

/-- A path to an index behind the split goes on there, counting from the split, and asks for the
root over what is in front. -/
theorem next_path_of_le {index : Nat} {leaves : List Digest}
    (h : 2 ≤ (path index leaves).leaves.length)
    (hindex : (path index leaves).split ≤ index) :
    (path index leaves).next =
      [path (index - (path index leaves).split) (path index leaves).back,
        root (path index leaves).front] :=
  (if_neg (Nat.not_le.2 h)).trans (if_neg (Nat.not_lt.2 hindex))

/-- A proper call works on one leaf, or on a list that is split. -/
theorem Proper.one_or_two_le (h : call.Proper) :
    call.leaves.length = 1 ∨ 2 ≤ call.leaves.length := by
  have hpos := h.length_pos
  omega

/-- The calls that a proper call makes are proper, and their lists are shorter. -/
theorem Proper.of_mem_next (h : call.Proper) (hsub : sub ∈ call.next) :
    sub.Proper ∧ sub.leaves.length < call.leaves.length := by
  rcases h.one_or_two_le with hone | htwo
  · rw [next_of_one hone] at hsub
    cases hsub
  · have hfrontLength := length_front htwo
    have hbackLength := call.length_back
    obtain ⟨hfront, hfrontLt⟩ := parts_shorter htwo call.front (List.mem_pair.2 (.inl rfl))
    obtain ⟨hback, hbackLt⟩ := parts_shorter htwo call.back (List.mem_pair.2 (.inr rfl))
    cases call with
    | root leaves =>
      rw [next_root htwo] at hsub
      rcases List.mem_pair.1 hsub with rfl | rfl
      · exact ⟨hfront, hfrontLt⟩
      · exact ⟨hback, hbackLt⟩
    | path index leaves =>
      have hlast : index < (path index leaves).leaves.length := h
      -- The path goes on in the part that holds its leaf, which keeps the index inside.
      rcases Nat.lt_or_ge index (path index leaves).split with hindex | hindex
      · rw [next_path_of_lt htwo hindex] at hsub
        rcases List.mem_pair.1 hsub with rfl | rfl
        · exact ⟨hindex.trans_eq hfrontLength.symm, hfrontLt⟩
        · exact ⟨hback, hbackLt⟩
      · rw [next_path_of_le htwo hindex] at hsub
        rcases List.mem_pair.1 hsub with rfl | rfl
        · have hshift : index - (path index leaves).split < (path index leaves).back.length := by
            omega
          exact ⟨hshift, hbackLt⟩
        · exact ⟨hfront, hfrontLt⟩

/-- A proper call gives what it makes of the hashes that its calls give. -/
theorem Proper.result_eq (h : call.Proper) : call.result = call.combine (call.next.map result) := by
  rcases h.one_or_two_le with hone | htwo
  · obtain ⟨leaf, hleaf⟩ := List.length_eq_one_iff.1 hone
    rw [next_of_one hone]
    cases call with
    | root leaves =>
      obtain rfl : leaves = [leaf] := hleaf
      rw [result, rootOver]
      rfl
    | path index leaves =>
      obtain rfl : leaves = [leaf] := hleaf
      rw [result, pathOver]
      rfl
  · cases call with
    | root leaves =>
      rw [next_root htwo, result, @rootOver_of_two_le leaves htwo]
      rfl
    | path index leaves =>
      rcases Nat.lt_or_ge index (path index leaves).split with hindex | hindex
      · rw [next_path_of_lt htwo hindex, result, @pathOver_of_lt index leaves htwo hindex]
        rfl
      · rw [next_path_of_le htwo hindex, result, @pathOver_of_le index leaves htwo hindex]
        rfl

/-! ## Any number of steps -/

/-- All calls that a proper call leads to are proper. -/
theorem Proper.of_reaches (h : call.Proper) (hreaches : call.Reaches sub) : sub.Proper := by
  induction hreaches with
  | refl => exact h
  | tail _ hsub ih => exact (ih.of_mem_next hsub).1

/-- The calls that a proper call leads to come to an end, since their lists get shorter. -/
theorem Proper.acc (h : call.Proper) : Acc (fun sub call => sub ∈ next call) call := by
  induction hsize : call.leaves.length using Nat.strongRecOn generalizing call with
  | ind size ih =>
    subst hsize
    refine Acc.intro call fun sub hsub => ?_
    obtain ⟨hproper, hlt⟩ := h.of_mem_next hsub
    exact ih _ hlt hproper rfl

/-- A list without leaves is split into itself. -/
theorem not_acc_root_nil : ¬Acc (fun sub call => sub ∈ next call) (root []) := by
  intro hacc
  have hself : root [] ∈ next (root []) := List.mem_cons_self
  generalize root [] = call at hacc hself
  induction hacc with
  | intro call _ ih => exact ih call hself hself

end Call

/-! ## From a tree -/

/-- The calls that a tree makes: for its root if it has a leaf, and for the path of any leaf that it
has. -/
inductive Tree.Calls (tree : Tree) : Call → Prop where
  | root (h : tree.isEmpty = false) : Calls tree (.root tree.leaves)
  | path {index : Nat} (h : index < tree.size) : Calls tree (.path index tree.leaves)

/-- The calls that a tree makes are proper. -/
theorem Tree.Calls.proper {tree : Tree} {call : Call} (h : tree.Calls call) : call.Proper := by
  cases h with
  | root h => simpa [isEmpty, Call.Proper] using h
  | path h => exact h

/-- The split of a list of leaves is at the one power of two below their number that twice reaches
it, and words of 64 bits suffice to find it. Starting from a tree, with leaves or without, the
recursions come only to calls that have a leaf to work on: they split every list of two leaves or
more into two that are shorter and not empty, keep an index inside the part that they go on with,
give what they make of the results of their own calls, and come to an end. -/
theorem recursion_wellFounded :
    (∀ n : UInt64, 2 ≤ n → ∃ power, Word.largestPowerBelow? n = some power ∧
      power.toNat = largestPowerBelow n.toNat ∧ IsLargestPowerBelow n.toNat power.toNat ∧
      ∀ other, IsLargestPowerBelow n.toNat other → other = power.toNat) ∧
    ∀ tree : Tree, (tree.isEmpty = true → tree.root = emptyHash) ∧
      ∀ call, tree.Calls call → Acc (fun sub call => sub ∈ Call.next call) call ∧
        ∀ sub, call.Reaches sub → sub.Proper ∧
          (2 ≤ sub.leaves.length → 0 < sub.split ∧ sub.split < sub.leaves.length ∧
            ∀ part ∈ [sub.front, sub.back], part ≠ [] ∧ part.length < sub.leaves.length) ∧
          sub.result = sub.combine (sub.next.map Call.result) := by
  constructor
  · intro n hn
    obtain ⟨power, hpower, hvalue⟩ := Word.largestPowerBelow?_eq n
    have hlargest : IsLargestPowerBelow n.toNat power.toNat := by
      rw [hvalue]
      exact isLargestPowerBelow (UInt64.le_iff_toNat_le.1 hn)
    exact ⟨power, hpower, hvalue, hlargest, fun other hother => hlargest.unique hother⟩
  · intro tree
    constructor
    · intro hempty
      have hnil : tree.leaves = [] := List.isEmpty_iff.1 hempty
      rw [Tree.root, hnil, rootOver]
    · intro call hcall
      refine ⟨hcall.proper.acc, ?_⟩
      intro sub hreaches
      have hproper := hcall.proper.of_reaches hreaches
      refine ⟨hproper, ?_, hproper.result_eq⟩
      intro htwo
      obtain ⟨hpos, hlt⟩ := Call.split_bounds htwo
      exact ⟨hpos, hlt, Call.parts_shorter htwo⟩

/-- The tree over three leaves makes a call for the path of the last one, which makes one for the
root over the first two. -/
theorem recursion_wellFounded_three :
    let tree := Tree.ofLeaves [[1], [2], [3]]
    let call := Call.path 2 tree.leaves
    let sub := Call.root call.front
    (∃ power, Word.largestPowerBelow? 3 = some power ∧ power.toNat = largestPowerBelow 3) ∧
      Tree.empty.isEmpty = true ∧ Tree.empty.root = emptyHash ∧
      tree.Calls call ∧ Acc (fun sub call => sub ∈ Call.next call) call ∧
      call.Reaches sub ∧ sub.Proper ∧ 2 ≤ sub.leaves.length ∧ 0 < sub.split ∧
      sub.split < sub.leaves.length := by
  intro tree call sub
  obtain ⟨hpowers, htrees⟩ := recursion_wellFounded
  obtain ⟨power, hpower, hvalue, -⟩ := hpowers 3 (by decide)
  have hempty : Tree.empty.isEmpty = true := rfl
  have hcall : tree.Calls call := .path (show 2 < 3 by decide)
  have hsplit : call.split ≤ 2 := by decide
  have hsub : sub ∈ call.next := by
    rw [Call.next_path_of_le (show 2 ≤ call.leaves.length by decide) hsplit]
    exact List.mem_cons_of_mem _ List.mem_cons_self
  have hreaches : call.Reaches sub := .single hsub
  have htwo : 2 ≤ sub.leaves.length := by decide
  obtain ⟨hacc, hreached⟩ := (htrees tree).2 call hcall
  obtain ⟨hproper, hinside, -⟩ := hreached sub hreaches
  obtain ⟨hpos, hlt, -⟩ := hinside htwo
  exact ⟨⟨power, hpower, hvalue⟩, hempty, (htrees .empty).1 hempty, hcall, hacc, hreaches, hproper,
    htwo, hpos, hlt⟩

end FirmwareTransparency.Merkle
