import FirmwareTransparency.Proofs.Descriptor.RoundTrip
import FirmwareTransparency.Proofs.Verify.Entries

/-!
# What is read could have been built

An entry comes from bytes or from parts. Reading looks at declared sizes and caps, building at the
widths of the format, and the two ask their questions in different orders; in the end they let the
same entries pass. Main statement: `obtainable_rebuilds`. Its last part is why checking an entry
never meets a proof of the wrong length: the root that the proof leads to always exists.
-/

set_option autoImplicit false

namespace FirmwareTransparency

/-- An address is accepted exactly if it is not empty and consists of visible ASCII. -/
theorem isLogUrl_iff {url : Bytes} :
    isLogUrl url = true ↔ url ≠ [] ∧ ∀ byte ∈ url, 0x21 ≤ byte ∧ byte ≤ 0x7e := by
  simp [isLogUrl, Text.isGraphic, List.all_eq_true]

namespace Entry

variable {entry : Entry}

/-- The constructors give back an entry and its leaf from their own parts, and what these parts
satisfy. -/
structure Rebuilds (entry : Entry) : Prop where
  url_ne_nil : entry.urlBytes ≠ []
  url_visible : ∀ byte ∈ entry.urlBytes, 0x21 ≤ byte ∧ byte ≤ 0x7e
  index_lt : entry.leafIndex.toNat < entry.treeSize.toNat
  length_proof : Merkle.pathLength? entry.leafIndex.toNat entry.treeSize.toNat =
    some entry.proof.length
  make_eq : make entry.logUrl entry.leafIndex entry.logRoot entry.leaf entry.signature entry.proof =
    .ok entry
  parse_leaf : Leaf.parse entry.leaf.raw = .ok entry.leaf

/-- A well-formed entry is made again of its own parts. -/
theorem WellFormed.make_eq (h : entry.WellFormed) :
    make entry.logUrl entry.leafIndex entry.logRoot entry.leaf entry.signature entry.proof =
      .ok entry :=
  make_eq_ok_iff.2 ⟨⟨h.url, h.url_size, h.leaf_size, h.signature_size, h.position⟩, rfl⟩

/-- A well-formed entry is rebuilt from its parts, which satisfy what is asked of them. -/
theorem WellFormed.rebuilds (h : entry.WellFormed) : entry.Rebuilds where
  url_ne_nil := (isLogUrl_iff.1 h.url).1
  url_visible := (isLogUrl_iff.1 h.url).2
  index_lt := h.index_lt
  length_proof := h.length_proof
  make_eq := h.make_eq
  parse_leaf := Leaf.parse_eq_ok_iff.2 ⟨rfl, h.leaf⟩

/-- The proof of such an entry leads to some root. -/
theorem Rebuilds.exists_root (h : entry.Rebuilds) :
    ∃ root, Merkle.rootFromPath? entry.leaf.hash entry.leafIndex.toNat entry.treeSize.toNat
      entry.proof = some root := by
  apply Option.isSome_iff_exists.1
  exact Merkle.rootFromPath?_isSome_iff.2 h.length_proof

end Entry

namespace Descriptor

/-- A well-formed descriptor is made again of its entries, up to its version. -/
theorem WellFormed.ofEntries_eq {descriptor : Descriptor} (h : descriptor.WellFormed) :
    ofEntries descriptor.entries =
      .ok ⟨currentMajor, currentMinor, descriptor.totalSize, descriptor.entries⟩ := by
  apply ofEntries_eq_ok_iff.2
  have hsize := h.size_le
  rw [h.size] at hsize ⊢
  exact ⟨⟨h.ne_nil, h.length_le, hsize⟩, rfl⟩

end Descriptor

namespace Verifier

/-- Where the proof leads to a root, an entry fails the check of the root exactly if that is another
one. -/
theorem failedGate?_eq_rootMismatch_iff_ne {store : TrustStore} {metadataHash root : Digest}
    {entry : Entry} (hroot : Merkle.rootFromPath? entry.leaf.hash entry.leafIndex.toNat
      entry.treeSize.toNat entry.proof = some root) :
    failedGate? store metadataHash entry = some .rootMismatch ↔
      entry.leaf.imageHash = metadataHash ∧ root ≠ entry.logRoot.rootHash := by
  rw [failedGate?_eq_rootMismatch_iff, ← Bool.not_eq_true, Merkle.includes_iff, hroot,
    Option.some.injEq]

end Verifier

/-- Every entry, be it made from parts or read under any limits, is made again from its own parts
and names a place in its tree that its proof has the right length for; so its proof leads to a root,
and the check of the root fails only because that root is another. The entries of a descriptor that
was read make a descriptor again, of the same size. -/
theorem Entry.obtainable_rebuilds :
    (∀ entry : Entry, entry.Obtainable → entry.Rebuilds ∧
      ∃ root, Merkle.rootFromPath? entry.leaf.hash entry.leafIndex.toNat entry.treeSize.toNat
          entry.proof = some root ∧
        ∀ store metadataHash, Verifier.failedGate? store metadataHash entry = some .rootMismatch ↔
          entry.leaf.imageHash = metadataHash ∧ root ≠ entry.logRoot.rootHash) ∧
      ∀ limits bytes descriptor, Descriptor.parse limits bytes = .ok descriptor →
        (∀ entry ∈ descriptor.entries, entry.Rebuilds) ∧
          ∃ rebuilt, Descriptor.ofEntries descriptor.entries = .ok rebuilt ∧
            rebuilt.entries = descriptor.entries ∧ rebuilt.totalSize = descriptor.totalSize := by
  constructor
  · intro entry hentry
    have hrebuilds := hentry.wellFormed.rebuilds
    obtain ⟨root, hroot⟩ := hrebuilds.exists_root
    refine ⟨hrebuilds, root, hroot, ?_⟩
    intro store metadataHash
    exact Verifier.failedGate?_eq_rootMismatch_iff_ne hroot
  · intro limits bytes descriptor hparse
    have hformed := Descriptor.wellFormed_of_parse hparse
    refine ⟨?_, _, hformed.ofEntries_eq, rfl, rfl⟩
    intro entry hentry
    exact (hformed.entries entry hentry).rebuilds

/-- The sample's descriptor is read from its encoding, its entry was made from parts. -/
theorem Entry.obtainable_rebuilds_sample :
    Descriptor.sampleEntry.Obtainable ∧ Descriptor.sampleEntry.Rebuilds ∧
      Descriptor.parse .standard (Descriptor.sample.header.encode ++ Descriptor.sample.body) =
        .ok Descriptor.sample ∧
      ∃ rebuilt, Descriptor.ofEntries Descriptor.sample.entries = .ok rebuilt ∧
        rebuilt.entries = Descriptor.sample.entries ∧ rebuilt.totalSize = 257 := by
  have hparse : Descriptor.parse .standard
      (Descriptor.sample.header.encode ++ Descriptor.sample.body) = .ok Descriptor.sample := by
    decide +kernel
  have hsize : Descriptor.sample.totalSize = 257 := by decide +kernel
  have hobtainable : Descriptor.sampleEntry.Obtainable :=
    .ofParsed hparse (List.mem_singleton_self _)
  obtain ⟨hentries, hdescriptors⟩ := Entry.obtainable_rebuilds
  obtain ⟨hrebuilds, -⟩ := hentries _ hobtainable
  obtain ⟨-, hrebuilt⟩ := hdescriptors _ _ _ hparse
  rw [hsize] at hrebuilt
  exact ⟨hobtainable, hrebuilds, hparse, hrebuilt⟩

end FirmwareTransparency
