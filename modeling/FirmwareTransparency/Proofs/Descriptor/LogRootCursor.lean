import FirmwareTransparency.Proofs.Descriptor.RoundTrip
import FirmwareTransparency.Proofs.Descriptor.Truncation

/-!
# Log roots at a cursor

A log signs the encoding of its root, and the signature is checked over the encoding of the root
that was read. So wherever the cursor stands, the bytes that are passed have to be that encoding and
no others, and a root of which a byte is missing must not be read as another one. Main statement:
`LogRoot.read_at_cursor`.
-/

set_option autoImplicit false

namespace FirmwareTransparency

open Read

/-- A log root that breaks off cannot be read, since bytes are missing. -/
theorem LogRoot.read_starves {root : LogRoot} (h : root.Encodable) :
    Starves LogRoot.read root.encode := by
  have hword : ∀ value, (Bytes.bigEndian 8 value).length = 8 := Bytes.length_bigEndian 8
  have hshort : ∀ value, (Bytes.bigEndian 2 value).length = 2 := Bytes.length_bigEndian 2
  simp only [LogRoot.read, LogRoot.encode, List.append_assoc]
  -- One step for each field, in the order of the encoding; the two checks hold of every encoding.
  refine Starves.bind (fun _ _ h => uint16_eq_ok_iff.2 h) (starves_word _ (hshort _))
    (Starves.guard (by simp) ?_)
  refine Starves.bind (fun _ _ h => uint64_eq_ok_iff.2 h) (starves_word _ (hword _)) ?_
  refine Starves.bind (fun _ _ h => uint8_eq_ok_iff.2 h) (starves_word _ rfl)
    (Starves.guard (by simp) ?_)
  refine Starves.bind (fun _ _ h => digest_eq_ok_iff.2 h) (starves_fixed root.rootHash.length_eq) ?_
  refine Starves.bind (fun _ _ h => uint64_eq_ok_iff.2 h) (starves_word _ (hword _)) ?_
  refine Starves.bind (fun _ _ h => uint64_eq_ok_iff.2 h) (starves_word _ (hword _)) ?_
  refine Starves.bind (fun _ _ h => uint16_eq_ok_iff.2 h) (starves_word _ (hshort _)) ?_
  -- Nothing is read behind the metadata.
  exact (starves_bytes h.toNat_size.symm).bind_left

/-- A log root that is read at a cursor is read from its encoding, and the cursor moves behind it.
Every log root that can come about is read again from its encoding, whatever follows it and stays
unread; where a byte of the encoding is missing, the read fails because bytes are missing. -/
theorem LogRoot.read_at_cursor :
    (∀ (cursor after : Cursor) (root : LogRoot), read cursor = .ok root after →
        cursor.rest = root.encode ++ after.rest ∧
          after.offset = cursor.offset + root.encodedSize) ∧
      ∀ root : LogRoot, root.Obtainable → ∀ offset : Nat,
        (∀ tail : Bytes,
          read ⟨offset, root.encode ++ tail⟩ = .ok root ⟨offset + root.encodedSize, tail⟩) ∧
          ∀ cut : Bytes, cut <+: root.encode → cut ≠ root.encode →
            ∃ position needed available last,
              read ⟨offset, cut⟩ = .error (.outOfBounds position needed available) last := by
  constructor
  · intro cursor after root h
    obtain ⟨-, hpasses⟩ := (read_exact _ _ _).1 h
    refine ⟨hpasses.rest, ?_⟩
    rw [hpasses.offset, length_encode]
  · intro root h offset
    constructor
    · intro tail
      apply (read_exact _ _ _).2
      refine ⟨h.encodable, ?_⟩
      rw [← length_encode]
      exact .of_append offset root.encode tail
    · intro cut hcut hne
      exact read_starves h.encodable ⟨offset, cut⟩ hcut hne

/-- A log root with metadata of four bytes. -/
def LogRoot.sample : LogRoot where
  treeSize := 5
  rootHash := ⟨List.replicate 32 171, rfl⟩
  timestamp := 1600000000000000000
  revision := 7
  metadata := [109, 101, 116, 97]

/-- The log root stands behind three bytes that were read before, once with a byte behind it and
once without its own last byte. -/
theorem LogRoot.read_at_cursor_sample :
    (read ⟨3, sample.encode ++ [7]⟩ = .ok sample ⟨68, [7]⟩ ∧
        Cursor.rest ⟨3, sample.encode ++ [7]⟩ = sample.encode ++ [7] ∧
          68 = 3 + sample.encodedSize) ∧
      sample.Obtainable ∧ sample.encode.take 64 <+: sample.encode ∧
        sample.encode.take 64 ≠ sample.encode ∧
        ∃ position needed available last, read ⟨3, sample.encode.take 64⟩ =
          .error (.outOfBounds position needed available) last := by
  have hobtainable : sample.Obtainable :=
    @LogRoot.Obtainable.make 5 1600000000000000000 7 sample.rootHash sample.metadata _ rfl
  obtain ⟨hencoded, hstarves⟩ := read_at_cursor.2 sample hobtainable 3
  have hread : read ⟨3, sample.encode ++ [7]⟩ = .ok sample ⟨68, [7]⟩ := hencoded [7]
  have hcut : sample.encode.take 64 ≠ sample.encode := by decide +kernel
  exact ⟨⟨hread, read_at_cursor.1 _ _ _ hread⟩, hobtainable, List.take_prefix _ _, hcut,
    hstarves _ (List.take_prefix _ _) hcut⟩

end FirmwareTransparency
