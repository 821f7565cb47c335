import FirmwareTransparency.Proofs.Descriptor.LogRoot
import FirmwareTransparency.Proofs.Merkle.Route
import FirmwareTransparency.Proofs.Text.Ascii

/-!
# Entries on the wire

All sizes of an entry stand in its header and all of them follow from its parts, so an entry has
one encoding. Main statements: `read_exact` says that an entry is read exactly where its encoding
stands, if it is well formed and within the limits; `read_fails` that one beyond the limits is
refused with the cause that `validate` gives.
-/

set_option autoImplicit false

namespace FirmwareTransparency.Entry

open Read

/-! ## The header -/

/-- The written form of the fields in front of an entry's parts. -/
def Header.encode (header : Header) : Bytes :=
  Bytes.bigEndian 4 header.urlSize ++ Bytes.ofUInt64 header.leafIndex ++
    Bytes.bigEndian 4 header.rootSize ++ Bytes.bigEndian 4 header.leafSize ++
    Bytes.bigEndian 2 header.signatureSize ++ Bytes.bigEndian 1 header.proofCount ++
    Bytes.bigEndian 4 header.proofSize

/-- Every number of a header fits the width that it is written in. -/
structure Header.Fits (header : Header) : Prop where
  url : header.urlSize < 256 ^ 4
  root : header.rootSize < 256 ^ 4
  leaf : header.leafSize < 256 ^ 4
  signature : header.signatureSize < 256 ^ 2
  count : header.proofCount < 256 ^ 1
  proof : header.proofSize < 256 ^ 4

/-- The header of an entry is read exactly where it is written. -/
theorem Header.read_exact : Exact Header.read Header.Fits Header.encode := by
  intro cursor header after
  simp only [Header.read, bind_eq_ok_iff, uint8_eq_ok_iff, uint16_eq_ok_iff, uint32_eq_ok_iff,
    uint64_eq_ok_iff, pure_eq_ok_iff]
  constructor
  · rintro ⟨url, c1, h1, index, c2, h2, root, c3, h3, leaf, c4, h4, signature, c5, h5,
      count, c6, h6, proof, c7, h7, rfl, rfl⟩
    have hcount : Bytes.bigEndian 1 count.toNat = [count] := by
      simp [Bytes.bigEndian]
    refine ⟨⟨url.toNat_lt, root.toNat_lt, leaf.toNat_lt, signature.toNat_lt, count.toNat_lt,
      proof.toNat_lt⟩, ?_⟩
    rw [Header.encode, hcount]
    exact (((((h1.append h2).append h3).append h4).append h5).append h6).append h7
  · rintro ⟨hfits, hpasses⟩
    simp only [Header.encode, Cursor.Passes.append_iff] at hpasses
    obtain ⟨c6, ⟨c5, ⟨c4, ⟨c3, ⟨c2, ⟨c1, h1, h2⟩, h3⟩, h4⟩, h5⟩, h6⟩, h7⟩ := hpasses
    have hurl : (UInt32.ofNat header.urlSize).toNat = header.urlSize :=
      UInt32.toNat_ofNat_of_lt' hfits.url
    have hroot : (UInt32.ofNat header.rootSize).toNat = header.rootSize :=
      UInt32.toNat_ofNat_of_lt' hfits.root
    have hleaf : (UInt32.ofNat header.leafSize).toNat = header.leafSize :=
      UInt32.toNat_ofNat_of_lt' hfits.leaf
    have hsignature : (UInt16.ofNat header.signatureSize).toNat = header.signatureSize :=
      UInt16.toNat_ofNat_of_lt' hfits.signature
    have hcount : (UInt8.ofNat header.proofCount).toNat = header.proofCount :=
      UInt8.toNat_ofNat_of_lt' hfits.count
    have hproof : (UInt32.ofNat header.proofSize).toNat = header.proofSize :=
      UInt32.toNat_ofNat_of_lt' hfits.proof
    refine ⟨UInt32.ofNat header.urlSize, c1, ?_, header.leafIndex, c2, h2,
      UInt32.ofNat header.rootSize, c3, ?_, UInt32.ofNat header.leafSize, c4, ?_,
      UInt16.ofNat header.signatureSize, c5, ?_, UInt8.ofNat header.proofCount, c6, h6,
      UInt32.ofNat header.proofSize, after, ?_, ?_, rfl⟩
    · rwa [Bytes.ofUInt32, hurl]
    · rwa [Bytes.ofUInt32, hroot]
    · rwa [Bytes.ofUInt32, hleaf]
    · rwa [Bytes.ofUInt16, hsignature]
    · rwa [Bytes.ofUInt32, hproof]
    · rw [hurl, hroot, hleaf, hsignature, hcount, hproof]

/-- The header of an entry. -/
def header (entry : Entry) : Header where
  urlSize := entry.urlBytes.length
  leafIndex := entry.leafIndex
  rootSize := entry.logRoot.encodedSize
  leafSize := entry.leaf.raw.length
  signatureSize := entry.signature.length
  proofCount := entry.proof.length
  proofSize := entry.proof.length * 32

/-- An entry is its header and its parts, one after the other. -/
theorem encode_eq (entry : Entry) :
    entry.encode =
      entry.header.encode ++ entry.urlBytes ++ entry.logRoot.encode ++ entry.leaf.raw ++
        entry.signature ++ entry.proof.flatMap FixedBytes.toBytes :=
  rfl

/-! ## Well-formed entries -/

/-- A position is accepted exactly if the proof is as long as the path there. -/
theorem checkPosition_eq_ok_iff {index size : UInt64} {length : Nat} :
    checkPosition index size length = .ok () ↔
      Merkle.pathLength? index.toNat size.toNat = some length := by
  unfold checkPosition
  by_cases hsize : size = 0
  · subst hsize
    have hnone : Merkle.pathLength? index.toNat (0 : UInt64).toNat = none :=
      Merkle.pathLength?_eq_none_iff.2 (Nat.zero_le _)
    rw [if_pos rfl, hnone]
    simp
  · rw [if_neg hsize]
    cases Merkle.pathLength? index.toNat size.toNat with
    | none => simp
    | some expected => by_cases h : length = expected <;> simp [h, eq_comm]

/-- An entry can be made of parts exactly if they fit their fields and the proof fits the position.
-/
theorem make_eq_ok_iff {logUrl : String} {leafIndex : UInt64} {logRoot : LogRoot} {leaf : Leaf}
    {signature : Bytes} {proof : List Digest} {entry : Entry} :
    make logUrl leafIndex logRoot leaf signature proof = .ok entry ↔
      (isLogUrl (Text.utf8 logUrl) = true ∧ (Text.utf8 logUrl).length ≤ maxSize32 ∧
        leaf.raw.length ≤ maxSize32 ∧ signature.length ≤ maxSize16 ∧
        checkPosition leafIndex logRoot.treeSize proof.length = .ok ()) ∧
      entry = ⟨logUrl, leafIndex, logRoot, leaf, signature, proof⟩ := by
  simp only [make, check_guard_eq_ok_iff, check_bind_eq_ok_iff, checkSize_eq_ok_iff, pure,
    Except.pure, Except.ok.injEq, Bool.not_eq_true', Bool.not_eq_false, and_assoc,
    eq_comm (a := entry)]

/-- An entry that was made of a root with an encoding and a valid leaf is well formed. -/
theorem wellFormed_of_make {logUrl : String} {leafIndex : UInt64} {logRoot : LogRoot} {leaf : Leaf}
    {signature : Bytes} {proof : List Digest} {entry : Entry} (hroot : logRoot.Encodable)
    (hleaf : leaf.Valid) (h : make logUrl leafIndex logRoot leaf signature proof = .ok entry) :
    entry.WellFormed := by
  obtain ⟨⟨hurl, hurlSize, hleafSize, hsignature, hposition⟩, rfl⟩ := make_eq_ok_iff.1 h
  exact ⟨hurl, hurlSize, hroot, hleaf, hleafSize, hsignature, hposition⟩

/-- The proof of an entry is as long as the path at its position. -/
theorem WellFormed.length_proof {entry : Entry} (h : entry.WellFormed) :
    Merkle.pathLength? entry.leafIndex.toNat entry.treeSize.toNat = some entry.proof.length :=
  checkPosition_eq_ok_iff.1 h.position

/-- The index of an entry is in front of the size of its tree. -/
theorem WellFormed.index_lt {entry : Entry} (h : entry.WellFormed) :
    entry.leafIndex.toNat < entry.treeSize.toNat := by
  by_contra hle
  have hlength := h.length_proof
  rw [Merkle.pathLength?_eq_none_iff.2 (Nat.le_of_not_lt hle)] at hlength
  cases hlength

/-- A proof of the right length has at most one hash for every binary digit of a tree size. -/
theorem WellFormed.length_proof_le {entry : Entry} (h : entry.WellFormed) :
    entry.proof.length ≤ 64 := by
  have hlength := h.length_proof
  rw [Merkle.pathLength?_eq_length_route h.index_lt] at hlength
  have hroute := Merkle.length_route_le entry.leafIndex.toNat (entry.treeSize.toNat - 1)
  have hdigits : Merkle.bitLength (entry.treeSize.toNat - 1) ≤ 64 := by
    apply Merkle.bitLength_le_of_lt
    have hlt := entry.treeSize.toNat_lt
    omega
  rw [← Option.some.inj hlength]
  omega

/-- The numbers of a well-formed entry fit their fields. -/
theorem WellFormed.header_fits {entry : Entry} (h : entry.WellFormed) : entry.header.Fits := by
  have hproof := h.length_proof_le
  have hurl := h.url_size
  have hroot := h.root
  have hleaf := h.leaf_size
  have hsignature := h.signature_size
  simp only [maxSize32, maxSize16, LogRoot.Encodable, LogRoot.maxMetadataSize] at *
  constructor
  · change entry.urlBytes.length < 4294967296
    omega
  · change 61 + entry.logRoot.metadata.length < 4294967296
    omega
  · change entry.leaf.raw.length < 4294967296
    omega
  · change entry.signature.length < 65536
    omega
  · change entry.proof.length < 256
    omega
  · change entry.proof.length * 32 < 4294967296
    omega

/-- Reading checks the declared sizes as `validate` checks the real ones: a log root always fits. -/
theorem check_header {entry : Entry} (h : entry.logRoot.Encodable) (limits : Limits) :
    entry.header.check limits = entry.validate limits := by
  have hroot : checkSize .logRoot entry.logRoot.encodedSize LogRoot.maxSize = .ok () := by
    apply checkSize_eq_ok_iff.2
    simp only [LogRoot.Encodable, LogRoot.encodedSize, LogRoot.maxSize] at *
    omega
  unfold Header.check validate
  simp only [header, hroot]
  cases checkSize .logUrl entry.urlBytes.length limits.maxLogUrlSize with
  | ok u => cases u; rfl
  | error e => rfl

/-- The bytes of an address that was read are those that it was read from. -/
theorem urlBytes_ofAscii {url : Bytes} (h : isLogUrl url = true) :
    Text.utf8 (Text.ofAscii url) = url := by
  simp only [isLogUrl, Bool.and_eq_true, List.all_eq_true] at h
  exact Text.utf8_ofAscii fun byte hbyte => Text.lt_of_isGraphic (h.2 byte hbyte)

/-- An address is read back from its bytes. -/
theorem ofAscii_urlBytes {entry : Entry} (h : isLogUrl entry.urlBytes = true) :
    Text.ofAscii entry.urlBytes = entry.logUrl :=
  Text.utf8_injective (urlBytes_ofAscii h)

/-! ## Reading -/

/-- An entry is read exactly where its encoding stands, if it is well formed and within the limits.
-/
theorem read_exact (limits : Limits) :
    Exact (read limits) (fun entry => entry.WellFormed ∧ entry.validate limits = .ok ())
      encode := by
  intro cursor entry after
  simp only [read, bind_eq_ok_iff, guard_eq_ok_iff, ofExcept_eq_ok_iff, bytes_eq_ok_iff,
    readLogRoot_eq_ok_iff, pure_eq_ok_iff, Leaf.parse_eq_ok_iff, Header.read_exact _ _ _,
    digest_exact.times _ _ _ _, not_not]
  constructor
  · rintro ⟨found, c1, ⟨hfits, h1⟩, _, _, ⟨hcheck, rfl⟩, url, c2, ⟨hurlSize, h2⟩, hurl, root, c3,
      ⟨hroot, hrootSize, h3⟩, raw, c4, ⟨hleafSize, h4⟩, leaf, _, ⟨⟨rfl, hleaf⟩, rfl⟩, signature, c5,
      ⟨hsignatureSize, h5⟩, _, _, ⟨hposition, rfl⟩, hproofSize, proof, c6, ⟨⟨hcount, -⟩, h6⟩, rfl,
      rfl⟩
    have hurl : isLogUrl url = true := by simpa using hurl
    have hbytes := urlBytes_ofAscii hurl
    set entry : Entry := ⟨Text.ofAscii url, found.leafIndex, root, leaf, signature, proof⟩
      with hentry
    -- Every part was read by the size that the header declares for it.
    have hheader : entry.header = found := by
      simp only [header, hentry, urlBytes, hbytes, hurlSize, ← hrootSize, hleafSize, hsignatureSize,
        hcount, ← hproofSize]
    have hsizes := hfits
    rw [← hheader] at hsizes hcheck h1
    refine ⟨⟨⟨?_, ?_, hroot, hleaf, ?_, ?_, ?_⟩, ?_⟩, ?_⟩
    · rw [urlBytes, hbytes]
      exact hurl
    · exact Nat.le_of_lt_succ hsizes.url
    · exact Nat.le_of_lt_succ hsizes.leaf
    · exact Nat.le_of_lt_succ hsizes.signature
    · rw [← hcount] at hposition
      exact hposition
    · rw [← check_header hroot]
      exact hcheck
    · rw [encode_eq, urlBytes, hbytes]
      exact ((((h1.append h2).append h3).append h4).append h5).append h6
  · rintro ⟨⟨hformed, hvalid⟩, hpasses⟩
    simp only [encode_eq, Cursor.Passes.append_iff] at hpasses
    obtain ⟨c5, ⟨c4, ⟨c3, ⟨c2, ⟨c1, h1, h2⟩, h3⟩, h4⟩, h5⟩, h6⟩ := hpasses
    refine ⟨entry.header, c1, ⟨hformed.header_fits, h1⟩, (), c1, ⟨?_, rfl⟩, entry.urlBytes, c2,
      ⟨rfl, h2⟩, by simp [hformed.url], entry.logRoot, c3, ⟨hformed.root, rfl, h3⟩, entry.leaf.raw,
      c4, ⟨rfl, h4⟩, entry.leaf, c4, ⟨⟨rfl, hformed.leaf⟩, rfl⟩, entry.signature, c5, ⟨rfl, h5⟩, (),
      c5, ⟨hformed.position, rfl⟩, rfl, entry.proof, after, ⟨⟨rfl, by simp⟩, h6⟩, ?_, rfl⟩
    · rw [check_header hformed.root]
      exact hvalid
    · rw [ofAscii_urlBytes hformed.url]
      rfl

/-- An entry beyond the limits is refused with the cause that `validate` gives. -/
theorem read_fails {entry : Entry} (h : entry.WellFormed) {limits : Limits} {e : FormatError}
    (hvalid : entry.validate limits = .error e) : Fails (read limits) entry.encode e := by
  rw [← check_header h.root] at hvalid
  have hheader : Fails (read limits) (entry.header.encode ++ []) e := by
    unfold read
    apply Fails.bind_right (a := entry.header)
    · intro cursor middle hpasses
      exact (Header.read_exact _ _ _).2 ⟨h.header_fits, hpasses⟩
    · apply Fails.bind_left
      rw [hvalid]
      exact fails_ofExcept []
  rw [List.append_nil] at hheader
  rw [encode_eq]
  exact hheader.of_front.of_front.of_front.of_front.of_front

end FirmwareTransparency.Entry
