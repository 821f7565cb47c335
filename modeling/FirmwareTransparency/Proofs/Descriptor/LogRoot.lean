import FirmwareTransparency.Descriptor.Entry
import FirmwareTransparency.Proofs.Descriptor.Reads

/-!
# Log roots on the wire

Reading a log root is exact: it succeeds only in front of an encoding, with the log root that is
encoded there, and it succeeds on every encoding. So the encoding of a log root that was read is
the very byte string that it was read from, which is what the log has signed. Main statement:
`LogRoot.read_exact`.
-/

set_option autoImplicit false

namespace FirmwareTransparency

open Read

/-- The size field of the metadata holds their size. -/
theorem LogRoot.Encodable.toNat_size {root : LogRoot} (h : root.Encodable) :
    (UInt16.ofNat root.metadata.length).toNat = root.metadata.length := by
  apply UInt16.toNat_ofNat_of_lt'
  simp only [LogRoot.Encodable, LogRoot.maxMetadataSize] at h
  change _ < 65536
  omega

/-- A log root is read exactly where it is written, if its metadata fit. -/
theorem LogRoot.read_exact : Exact LogRoot.read LogRoot.Encodable LogRoot.encode := by
  intro cursor root after
  simp only [LogRoot.read, bind_eq_ok_iff, guard_eq_ok_iff, uint8_eq_ok_iff, uint16_eq_ok_iff,
    uint64_eq_ok_iff, digest_eq_ok_iff, bytes_eq_ok_iff, pure_eq_ok_iff, not_not]
  constructor
  · rintro ⟨_, c1, h1, rfl, treeSize, c2, h2, _, c3, h3, rfl, rootHash, c4, h4, timestamp, c5, h5,
      revision, c6, h6, size, c7, h7, metadata, c8, ⟨hsize, h8⟩, rfl, rfl⟩
    have hlt := size.toNat_lt
    refine ⟨by simp only [LogRoot.Encodable, LogRoot.maxMetadataSize]; omega, ?_⟩
    simp only [LogRoot.encode, hsize, UInt16.ofNat_toNat]
    exact ((((((h1.append h2).append h3).append h4).append h5).append h6).append h7).append h8
  · rintro ⟨hencodable, hpasses⟩
    simp only [LogRoot.encode, Cursor.Passes.append_iff] at hpasses
    obtain ⟨c7, ⟨c6, ⟨c5, ⟨c4, ⟨c3, ⟨c2, ⟨c1, h1, h2⟩, h3⟩, h4⟩, h5⟩, h6⟩, h7⟩, h8⟩ := hpasses
    exact ⟨_, c1, h1, rfl, _, c2, h2, _, c3, h3, rfl, _, c4, h4, _, c5, h5, _, c6, h6, _, c7, h7,
      _, after, ⟨hencodable.toNat_size.symm, h8⟩, rfl, rfl⟩

/-- A log root in a field of its own has to fill the field. -/
theorem Entry.readLogRoot_eq_ok_iff {size : Nat} {cursor after : Cursor} {root : LogRoot} :
    Entry.readLogRoot size cursor = .ok root after ↔
      root.Encodable ∧ size = root.encodedSize ∧ cursor.Passes root.encode after := by
  simp only [Entry.readLogRoot, bind_eq_ok_iff]
  constructor
  · rintro ⟨inner, middle, hinner, ⟨found, last⟩, _, hwithin, hguard⟩
    obtain ⟨hempty, hpure⟩ := guard_eq_ok_iff.1 hguard
    obtain ⟨rfl, rfl⟩ := pure_eq_ok_iff.1 hpure
    obtain ⟨hencodable, hlength, hpasses⟩ :=
      LogRoot.read_exact.part_eq_ok_iff.1
        ⟨inner, middle, last, hinner, hwithin, by simpa using hempty⟩
    exact ⟨hencodable, by rw [← hlength, LogRoot.length_encode], hpasses⟩
  · rintro ⟨hencodable, rfl, hpasses⟩
    obtain ⟨inner, middle, last, hinner, hwithin, hempty⟩ :=
      LogRoot.read_exact.part_eq_ok_iff.2 ⟨hencodable, LogRoot.length_encode root, hpasses⟩
    exact ⟨inner, middle, hinner, (root, last), after, hwithin,
      guard_eq_ok_iff.2 ⟨by simp [hempty], pure_eq_ok_iff.2 ⟨rfl, rfl⟩⟩⟩

end FirmwareTransparency
