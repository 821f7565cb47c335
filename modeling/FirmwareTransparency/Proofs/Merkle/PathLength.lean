import FirmwareTransparency.Proofs.Descriptor.Layout
import FirmwareTransparency.Proofs.Descriptor.RoundTrip
import FirmwareTransparency.Proofs.Merkle.Words

/-!
# How long an audit path can be

A path has at most one hash for every binary digit of the last index, and that of the first leaf has
one for each. So no path in a tree that a word of 64 bits can count is longer than 64 hashes: its
length fits the byte that an entry has for it, and its levels are those that a word can be shifted
by. Main statement: `pathLength?_bounded`.
-/

set_option autoImplicit false

namespace FirmwareTransparency

namespace Merkle

/-- The first node of a level is a left child on every level but the last. -/
theorem length_route_zero (last : Nat) : (route 0 last).length = bitLength last := by
  induction last using Nat.strongRecOn with
  | ind last ih =>
    rw [route]
    by_cases hlast : last = 0
    · subst hlast
      rfl
    · rw [if_neg hlast, if_neg (by decide), if_neg (Ne.symm hlast), List.length_cons,
        Nat.zero_div, ih _ (by omega), bitLength_of_pos (Nat.pos_of_ne_zero hlast)]

/-- The path of a leaf has at most as many hashes as the last index has digits, that of the first
leaf exactly so many. -/
theorem exists_pathLength {index size : Nat} (h : index < size) :
    ∃ count, pathLength? index size = some count ∧ count ≤ bitLength (size - 1) ∧
      (index = 0 → count = bitLength (size - 1)) := by
  refine ⟨_, pathLength?_eq_length_route h, length_route_le _ _, ?_⟩
  rintro rfl
  exact length_route_zero _

/-- The last index of a tree that a word counts has at most 64 digits. -/
theorem bitLength_pred_le (size : UInt64) : bitLength (size.toNat - 1) ≤ 64 := by
  apply bitLength_le_of_lt
  have hsize := size.toNat_lt
  omega

end Merkle

/-- The number of hashes and their size stand in an entry as they are. -/
theorem Entry.WellFormed.numberAt_proof {entry : Entry} (h : entry.WellFormed) :
    entry.encode.numberAt 22 1 = entry.proof.length ∧
      entry.encode.numberAt 23 4 = entry.proof.length * 32 := by
  let upToSignature := Bytes.bigEndian 4 entry.urlBytes.length ++ Bytes.ofUInt64 entry.leafIndex ++
    Bytes.bigEndian 4 entry.logRoot.encodedSize ++ Bytes.bigEndian 4 entry.leaf.raw.length ++
    Bytes.bigEndian 2 entry.signature.length
  have hcount : upToSignature ++ Bytes.bigEndian 1 entry.proof.length <+: entry.encode := by
    simp [encode, upToSignature]
  have hlength : upToSignature.length = 22 := by
    simp [upToSignature, Bytes.ofUInt64]
  have hstands : [] ++ entry.encode <+: entry.encode := List.prefix_rfl
  obtain ⟨-, -, -, -, hsize⟩ := numberAt_behind h hstands
  refine ⟨?_, hsize⟩
  rw [← hlength]
  exact Bytes.numberAt_behind hcount h.header_fits.count

namespace Merkle

/-- At any position that two words name there is a path exactly in front of the tree's size, and it
has at most as many hashes as the last index has digits, hence at most 64; at index zero it has
exactly so many. Its inner part ends at level 64 or below, so its root can be recomputed in words.
An entry of any origin states the number of its hashes in one byte and their size in four, and both
as they are. -/
theorem pathLength?_bounded :
    (∀ index size : UInt64,
      (pathLength? index.toNat size.toNat = none ↔ size ≤ index) ∧
        (index < size → ∃ count, pathLength? index.toNat size.toNat = some count ∧
          count ≤ bitLength (size.toNat - 1) ∧
          (index = 0 → count = bitLength (size.toNat - 1))) ∧
        bitLength (size.toNat - 1) ≤ 64 ∧
        (∀ shape, pathShape? index.toNat size.toNat = some shape → shape.inner ≤ 64) ∧
        Word.pathShape? index size = pathShape? index.toNat size.toNat ∧
        ∀ hash path, Word.rootFromPath? hash index size path =
          rootFromPath? hash index.toNat size.toNat path) ∧
      ∀ entry : Entry, entry.Obtainable →
        entry.encode.numberAt 22 1 = entry.proof.length ∧
          entry.encode.numberAt 23 4 = entry.proof.length * 32 := by
  constructor
  · intro index size
    refine ⟨?_, ?_, bitLength_pred_le size, ?_, Word.pathShape?_eq index size, ?_⟩
    · rw [pathLength?_eq_none_iff, UInt64.le_iff_toNat_le]
    · intro hlt
      obtain ⟨count, hcount, hle, hfirst⟩ := exists_pathLength (UInt64.lt_iff_toNat_lt.1 hlt)
      refine ⟨count, hcount, hle, ?_⟩
      rintro rfl
      exact hfirst rfl
    · intro shape hshape
      exact Word.inner_le hshape
    · intro hash path
      exact Word.rootFromPath?_eq hash index size path
  · intro entry hentry
    exact hentry.wellFormed.numberAt_proof

/-- The entry of the first leaf of the largest tree, with a proof of 64 hashes. -/
def longestEntry : Entry where
  logUrl := "log"
  leafIndex := 0
  logRoot := ⟨0xffffffffffffffff, ⟨List.replicate 32 8, rfl⟩, 5, 7, []⟩
  leaf := .author ⟨⟨List.replicate 32 8, rfl⟩, none, none, none, none⟩
  signature := [1, 2, 3]
  proof := List.replicate 64 ⟨List.replicate 32 9, rfl⟩

/-- It can be made from its parts. -/
theorem longestEntry_obtainable : longestEntry.Obtainable := by
  have hroot : longestEntry.logRoot.Obtainable :=
    @LogRoot.Obtainable.make 0xffffffffffffffff 5 7 ⟨List.replicate 32 8, rfl⟩ [] _ rfl
  exact @Entry.Obtainable.make "log" 0 _ longestEntry.leaf [1, 2, 3] longestEntry.proof _ hroot
    (.author _) (by decide +kernel)

/-- The first leaf of the largest tree has the longest path, and its entry states 64 hashes in one
byte and their 2048 bytes in four. -/
theorem pathLength?_bounded_largest :
    ((0 : UInt64) < 0xffffffffffffffff ∧
      pathLength? (0 : UInt64).toNat (0xffffffffffffffff : UInt64).toNat = some 64) ∧
    (longestEntry.Obtainable ∧ longestEntry.encode.numberAt 22 1 = 64 ∧
      longestEntry.encode.numberAt 23 4 = 2048) := by
  obtain ⟨hpositions, hentries⟩ := pathLength?_bounded
  have hlt : (0 : UInt64) < 0xffffffffffffffff := by decide
  obtain ⟨count, hcount, -, hfirst⟩ := (hpositions 0 0xffffffffffffffff).2.1 hlt
  have hdigits : bitLength ((0xffffffffffffffff : UInt64).toNat - 1) = 64 := by decide
  rw [hcount, hfirst rfl, hdigits]
  exact ⟨⟨hlt, rfl⟩, longestEntry_obtainable, hentries _ longestEntry_obtainable⟩

end Merkle

end FirmwareTransparency
