import FirmwareTransparency.Proofs.Descriptor.Codec
import FirmwareTransparency.Proofs.Descriptor.Leaf

/-!
# Writing and reading descriptors

Every descriptor that can come about, be it built from parts or read, is well formed. Main
statements: `encode_of_parse` says that writing a descriptor that was read gives back the very bytes
it was read from, so nothing but the one encoding is ever accepted; `parse_encode` that reading the
encoding of any descriptor gives the descriptor again or the cause for which the limits refuse it.
-/

set_option autoImplicit false

namespace FirmwareTransparency

/-! ## Values that can come about -/

/-- A log root that was made, read, or taken from a descriptor that was read. -/
inductive LogRoot.Obtainable : LogRoot → Prop where
  | make {treeSize timestamp revision : UInt64} {rootHash : Digest} {metadata : Bytes}
      {root : LogRoot} (h : make treeSize rootHash timestamp revision metadata = .ok root) :
      Obtainable root
  | read {cursor after : Cursor} {root : LogRoot} (h : LogRoot.read cursor = .ok root after) :
      Obtainable root
  | ofParsed {limits : Limits} {bytes : Bytes} {descriptor : Descriptor} {entry : Entry}
      (h : Descriptor.parse limits bytes = .ok descriptor) (hentry : entry ∈ descriptor.entries) :
      Obtainable entry.logRoot

/-- A leaf that was authored, read, or taken from a descriptor that was read. -/
inductive Leaf.Obtainable : Leaf → Prop where
  | author (info : FirmwareInfo) : Obtainable (author info)
  | parse {bytes : Bytes} {leaf : Leaf} (h : parse bytes = .ok leaf) : Obtainable leaf
  | ofParsed {limits : Limits} {bytes : Bytes} {descriptor : Descriptor} {entry : Entry}
      (h : Descriptor.parse limits bytes = .ok descriptor) (hentry : entry ∈ descriptor.entries) :
      Obtainable entry.leaf

/-- An entry that was made from such parts or taken from a descriptor that was read. -/
inductive Entry.Obtainable : Entry → Prop where
  | make {logUrl : String} {leafIndex : UInt64} {logRoot : LogRoot} {leaf : Leaf}
      {signature : Bytes} {proof : List Digest} {entry : Entry} (hroot : logRoot.Obtainable)
      (hleaf : leaf.Obtainable)
      (h : make logUrl leafIndex logRoot leaf signature proof = .ok entry) : Obtainable entry
  | ofParsed {limits : Limits} {bytes : Bytes} {descriptor : Descriptor} {entry : Entry}
      (h : Descriptor.parse limits bytes = .ok descriptor) (hentry : entry ∈ descriptor.entries) :
      Obtainable entry

/-- A descriptor over such entries, or one that was read. -/
inductive Descriptor.Obtainable : Descriptor → Prop where
  | ofEntries {entries : List Entry} {descriptor : Descriptor}
      (hentries : ∀ entry ∈ entries, entry.Obtainable) (h : ofEntries entries = .ok descriptor) :
      Obtainable descriptor
  | parse {limits : Limits} {bytes : Bytes} {descriptor : Descriptor}
      (h : parse limits bytes = .ok descriptor) : Obtainable descriptor

/-- A descriptor that was read is well formed. -/
theorem Descriptor.wellFormed_of_parse {limits : Limits} {bytes : Bytes} {descriptor : Descriptor}
    (h : parse limits bytes = .ok descriptor) : descriptor.WellFormed :=
  (parse_eq_ok_iff.1 h).1.1

/-- A log root of any origin has an encoding. -/
theorem LogRoot.Obtainable.encodable {root : LogRoot} (h : root.Obtainable) : root.Encodable := by
  cases h with
  | make h => exact (make_eq_ok_iff.1 h).2
  | read h => exact ((read_exact _ _ _).1 h).1
  | ofParsed h hentry => exact ((Descriptor.wellFormed_of_parse h).entries _ hentry).root

/-- A leaf of any origin is valid. -/
theorem Leaf.Obtainable.valid {leaf : Leaf} (h : leaf.Obtainable) : leaf.Valid := by
  cases h with
  | author info => exact author_valid info
  | parse h => exact (parse_eq_ok_iff.1 h).2
  | ofParsed h hentry => exact ((Descriptor.wellFormed_of_parse h).entries _ hentry).leaf

/-- An entry of any origin is well formed. -/
theorem Entry.Obtainable.wellFormed {entry : Entry} (h : entry.Obtainable) : entry.WellFormed := by
  cases h with
  | make hroot hleaf h => exact wellFormed_of_make hroot.encodable hleaf.valid h
  | ofParsed h hentry => exact (Descriptor.wellFormed_of_parse h).entries _ hentry

namespace Descriptor

/-- A descriptor of any origin is well formed. -/
theorem Obtainable.wellFormed {descriptor : Descriptor} (h : descriptor.Obtainable) :
    descriptor.WellFormed := by
  cases h with
  | ofEntries hentries h =>
    exact wellFormed_of_ofEntries (fun entry hentry => (hentries entry hentry).wellFormed) h
  | parse h => exact wellFormed_of_parse h

/-- The only leaf of a log's tree. -/
def sampleEntry : Entry where
  logUrl := "log"
  leafIndex := 0
  logRoot := ⟨1, ⟨List.replicate 32 0, rfl⟩, 5, 7, [9]⟩
  leaf := .author ⟨⟨List.replicate 32 0, rfl⟩, none, some [1, 2], none, some "a\"b"⟩
  signature := [1, 2, 3]
  proof := []

/-- A descriptor of one entry. -/
def sample : Descriptor := ⟨currentMajor, currentMinor, sizeOver [sampleEntry], [sampleEntry]⟩

/-- It can be made from its parts. -/
theorem sample_obtainable : sample.Obtainable := by
  have hroot : sampleEntry.logRoot.Obtainable :=
    @LogRoot.Obtainable.make 1 5 7 ⟨List.replicate 32 0, rfl⟩ [9] _ rfl
  have hentry : sampleEntry.Obtainable :=
    @Entry.Obtainable.make "log" 0 _ sampleEntry.leaf [1, 2, 3] [] _ hroot (.author _)
      (by decide +kernel)
  refine @Obtainable.ofEntries [sampleEntry] sample ?_ (by decide +kernel)
  exact fun entry hmem => List.mem_singleton.1 hmem ▸ hentry

/-! ## Reading, then writing -/

/-- Writing a descriptor that was read gives back the bytes that it was read from, up to the
declared size; hence these bytes are the same wherever the same descriptor is read. -/
theorem encode_of_parse {limits : Limits} {bytes : Bytes} {descriptor : Descriptor}
    (h : parse limits bytes = .ok descriptor) :
    descriptor.totalSize ≤ bytes.length ∧
      descriptor.encode = .ok (bytes.take descriptor.totalSize) ∧
      ∀ otherLimits other, parse otherLimits other = .ok descriptor →
        other.take descriptor.totalSize = bytes.take descriptor.totalSize ∧
          (bytes.length = descriptor.totalSize → other.length = descriptor.totalSize →
            other = bytes) := by
  have htake : ∀ limits bytes, parse limits bytes = .ok descriptor →
      descriptor.totalSize ≤ bytes.length ∧
        bytes.take descriptor.totalSize = descriptor.header.encode ++ descriptor.body := by
    intro limits bytes h
    obtain ⟨⟨hformed, -⟩, rest, rfl⟩ := parse_eq_ok_iff.1 h
    refine ⟨?_, List.take_left' hformed.length_encode⟩
    rw [List.length_append, hformed.length_encode]
    exact Nat.le_add_right _ _
  obtain ⟨hle, hbytes⟩ := htake limits bytes h
  refine ⟨hle, ?_, ?_⟩
  · rw [(wellFormed_of_parse h).encode_eq, hbytes]
  · intro otherLimits other hother
    obtain ⟨-, hotherBytes⟩ := htake otherLimits other hother
    have heq : other.take descriptor.totalSize = bytes.take descriptor.totalSize :=
      hotherBytes.trans hbytes.symm
    refine ⟨heq, fun hlength hotherLength => ?_⟩
    rwa [← hlength, List.take_length, hlength, ← hotherLength, List.take_length] at heq

/-- A byte behind the descriptor is not written again. -/
theorem encode_of_parse_sample :
    parse .standard (sample.header.encode ++ sample.body ++ [255]) = .ok sample ∧
      sample.encode = .ok ((sample.header.encode ++ sample.body ++ [255]).take 257) := by
  have h : parse .standard (sample.header.encode ++ sample.body ++ [255]) = .ok sample := by
    decide +kernel
  have hsize : sample.totalSize = 257 := by decide +kernel
  have hencode := (encode_of_parse h).2.1
  rw [hsize] at hencode
  exact ⟨h, hencode⟩

/-! ## Writing, then reading -/

/-- The encoding of a descriptor has the declared size, and whatever follows it, it is read as the
descriptor or refused with the cause that `validate` gives. -/
theorem parse_encode {descriptor : Descriptor} (h : descriptor.Obtainable) :
    ∃ encoded, descriptor.encode = .ok encoded ∧ encoded.length = descriptor.totalSize ∧
      ∀ (limits : Limits) (rest : Bytes),
        (descriptor.validate limits = .ok () → parse limits (encoded ++ rest) = .ok descriptor) ∧
          ∀ e, descriptor.validate limits = .error e →
            parse limits (encoded ++ rest) = .error e := by
  have hformed := h.wellFormed
  refine ⟨_, hformed.encode_eq, hformed.length_encode, fun limits rest => ⟨?_, ?_⟩⟩
  · intro hvalid
    exact parse_eq_ok_iff.2 ⟨⟨hformed, hvalid⟩, rest, rfl⟩
  · intro e hvalid
    exact parse_of_validate_error hformed hvalid rest

/-- The descriptor is read back under the standard limits, and refused under limits that allow for
no entry. -/
theorem parse_encode_sample :
    ∃ encoded, sample.encode = .ok encoded ∧ encoded.length = 257 ∧
      parse .standard (encoded ++ [255]) = .ok sample ∧
        parse ⟨0, 9, 9, 9⟩ (encoded ++ [255]) = .error (.tooManyEntries 1 0) := by
  obtain ⟨encoded, hencode, hlength, hparse⟩ := parse_encode sample_obtainable
  refine ⟨encoded, hencode, ?_, ?_, ?_⟩
  · rw [hlength]
    decide +kernel
  · exact (hparse .standard [255]).1 (by decide +kernel)
  · exact (hparse ⟨0, 9, 9, 9⟩ [255]).2 _ (by decide +kernel)

end Descriptor

end FirmwareTransparency
