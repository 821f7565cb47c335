import FirmwareTransparency.Proofs.Descriptor.Codec

/-!
# Where the fields of a descriptor stand

The offset of every field follows from the sizes that stand in front of it, so a field can be taken
from the bytes without reading the descriptor: `entryOffset` goes from entry to entry by their
declared sizes and `logRootField` cuts out the bytes that a log has signed. Main statement:
`logRootField_eq` says that these bytes are the encoding of the log root that reading gives.
-/

set_option autoImplicit false

namespace FirmwareTransparency

namespace Bytes

/-- So many bytes from an offset on. -/
def field (bytes : Bytes) (offset size : Nat) : Bytes := (bytes.drop offset).take size

/-- The big-endian number of so many bytes that stands at an offset. -/
def numberAt (bytes : Bytes) (offset width : Nat) : Nat := toNat (bytes.field offset width)

/-- The field behind a front is what stands there. -/
theorem field_behind {bytes front part : Bytes} (h : front ++ part <+: bytes) :
    bytes.field front.length part.length = part := by
  obtain ⟨back, rfl⟩ := h
  rw [field, List.append_assoc, List.drop_left, List.take_left]

/-- The number behind a front is the one that is written there. -/
theorem numberAt_behind {bytes front : Bytes} {width value : Nat}
    (h : front ++ bigEndian width value <+: bytes) (hvalue : value < 256 ^ width) :
    bytes.numberAt front.length width = value := by
  have hfield := field_behind h
  rw [length_bigEndian] at hfield
  rw [numberAt, hfield, toNat_bigEndian, Nat.mod_eq_of_lt hvalue]

end Bytes

namespace Entry

/-- The size of the entry whose header stands at an offset: the header and the sizes that it
declares, those of the address, the log root, the leaf, the signature and the proof. -/
def sizeAt (bytes : Bytes) (offset : Nat) : Nat :=
  headerSize + bytes.numberAt offset 4 + bytes.numberAt (offset + 12) 4 +
    bytes.numberAt (offset + 16) 4 + bytes.numberAt (offset + 20) 2 +
    bytes.numberAt (offset + 23) 4

/-- The log root of the entry whose header stands at an offset. It follows the address. -/
def logRootFieldAt (bytes : Bytes) (offset : Nat) : Bytes :=
  bytes.field (offset + headerSize + bytes.numberAt offset 4) (bytes.numberAt (offset + 12) 4)

section

variable {bytes front : Bytes} {entry : Entry}

/-- What stands in an entry stands where the entry does. -/
theorem part_behind {before part : Bytes} (hbytes : front ++ entry.encode <+: bytes)
    (hpart : before ++ part <+: entry.encode) : front ++ before ++ part <+: bytes := by
  rw [List.append_assoc]
  exact ((List.prefix_append_right_inj front).2 hpart).trans hbytes

/-- The sizes that the header of an entry declares, where the entry stands. -/
theorem numberAt_behind (h : entry.WellFormed) (hbytes : front ++ entry.encode <+: bytes) :
    bytes.numberAt front.length 4 = entry.urlBytes.length ∧
      bytes.numberAt (front.length + 12) 4 = entry.logRoot.encodedSize ∧
      bytes.numberAt (front.length + 16) 4 = entry.leaf.raw.length ∧
      bytes.numberAt (front.length + 20) 2 = entry.signature.length ∧
      bytes.numberAt (front.length + 23) 4 = entry.proof.length * 32 := by
  have hfits := h.header_fits
  have hnumber : ∀ before width value, before ++ Bytes.bigEndian width value <+: entry.encode →
      value < 256 ^ width → bytes.numberAt (front.length + before.length) width = value := by
    intro before width value hpart hvalue
    rw [← List.length_append]
    exact Bytes.numberAt_behind (part_behind hbytes hpart) hvalue
  let upToIndex := Bytes.bigEndian 4 entry.urlBytes.length ++ Bytes.ofUInt64 entry.leafIndex
  let upToRoot := upToIndex ++ Bytes.bigEndian 4 entry.logRoot.encodedSize
  let upToLeaf := upToRoot ++ Bytes.bigEndian 4 entry.leaf.raw.length
  let upToCount := upToLeaf ++ Bytes.bigEndian 2 entry.signature.length ++
    Bytes.bigEndian 1 entry.proof.length
  refine ⟨?_, ?_, ?_, ?_, ?_⟩
  · exact hnumber [] 4 _ (by simp [encode]) hfits.url
  · exact hnumber upToIndex 4 _ (by simp [encode, upToIndex]) hfits.root
  · exact hnumber upToRoot 4 _ (by simp [encode, upToIndex, upToRoot]) hfits.leaf
  · exact hnumber upToLeaf 2 _ (by simp [encode, upToIndex, upToRoot, upToLeaf]) hfits.signature
  · exact hnumber upToCount 4 _ (by simp [encode, upToIndex, upToRoot, upToLeaf, upToCount])
      hfits.proof

/-- The size that an entry's header declares is that of its encoding. -/
theorem sizeAt_behind (h : entry.WellFormed) (hbytes : front ++ entry.encode <+: bytes) :
    sizeAt bytes front.length = entry.encode.length := by
  obtain ⟨hurl, hroot, hleaf, hsignature, hproof⟩ := numberAt_behind h hbytes
  rw [sizeAt, hurl, hroot, hleaf, hsignature, hproof, length_encode]
  rfl

/-- What an entry's header declares to be the log root is its encoding. -/
theorem logRootFieldAt_behind (h : entry.WellFormed) (hbytes : front ++ entry.encode <+: bytes) :
    logRootFieldAt bytes front.length = entry.logRoot.encode := by
  obtain ⟨hurl, hroot, -⟩ := numberAt_behind h hbytes
  have hpart : entry.header.encode ++ entry.urlBytes ++ entry.logRoot.encode <+: entry.encode := by
    simp [encode_eq]
  have hfield := Bytes.field_behind (part_behind hbytes hpart)
  have hlength : entry.header.encode.length = headerSize := by
    simp [Header.encode, headerSize, Bytes.ofUInt64]
  simp only [List.length_append, hlength, LogRoot.length_encode, ← Nat.add_assoc] at hfield
  rw [logRootFieldAt, hurl, hroot, hfield]

end

end Entry

namespace Descriptor

/-- Where an entry's header stands in the bytes of a descriptor. -/
def entryOffset (bytes : Bytes) : Nat → Nat
  | 0 => headerSize
  | index + 1 => entryOffset bytes index + Entry.sizeAt bytes (entryOffset bytes index)

/-- The bytes that stand as an entry's log root in the bytes of a descriptor. -/
def logRootField (bytes : Bytes) (index : Nat) : Bytes :=
  Entry.logRootFieldAt bytes (entryOffset bytes index)

/-- The header and the entries in front of one. -/
def upTo (descriptor : Descriptor) (index : Nat) : Bytes :=
  descriptor.header.encode ++ (descriptor.entries.take index).flatMap Entry.encode

/-- One entry more is written behind those so far. -/
theorem upTo_succ {descriptor : Descriptor} {index : Nat} {entry : Entry}
    (hentry : descriptor.entries[index]? = some entry) :
    descriptor.upTo (index + 1) = descriptor.upTo index ++ entry.encode := by
  simp [upTo, List.take_add_one, hentry]

/-- An entry stands behind the header and the entries in front of it. -/
theorem upTo_append_isPrefix {descriptor : Descriptor} {index : Nat} {entry : Entry}
    (hentry : descriptor.entries[index]? = some entry) :
    descriptor.upTo index ++ entry.encode <+: descriptor.header.encode ++ descriptor.body := by
  rw [← upTo_succ hentry, upTo, List.prefix_append_right_inj, body]
  conv_rhs => rw [← List.take_append_drop (index + 1) descriptor.entries]
  rw [List.flatMap_append]
  exact List.prefix_append _ _

/-- The declared sizes lead from entry to entry. -/
theorem entryOffset_eq {bytes : Bytes} {descriptor : Descriptor} (h : descriptor.WellFormed)
    (hbytes : descriptor.header.encode ++ descriptor.body <+: bytes) {index : Nat}
    (hindex : index ≤ descriptor.entries.length) :
    entryOffset bytes index = (descriptor.upTo index).length := by
  induction index with
  | zero => simp [entryOffset, upTo, Header.length_encode]
  | succ index ih =>
    have hentry := List.getElem?_eq_getElem (Nat.lt_of_succ_le hindex)
    have hformed := h.entries _ (List.mem_of_getElem? hentry)
    have hsize := Entry.sizeAt_behind hformed ((upTo_append_isPrefix hentry).trans hbytes)
    rw [entryOffset, ih (Nat.le_of_succ_le hindex), hsize, upTo_succ hentry, List.length_append]

/-- The bytes that stand as an entry's log root are the encoding of the log root that is read. -/
theorem logRootField_eq {limits : Limits} {bytes : Bytes} {descriptor : Descriptor}
    (h : parse limits bytes = .ok descriptor) {index : Nat} {entry : Entry}
    (hentry : descriptor.entries[index]? = some entry) :
    logRootField bytes index = entry.logRoot.encode := by
  obtain ⟨⟨hformed, -⟩, rest, hrest⟩ := parse_eq_ok_iff.1 h
  have hbytes : descriptor.header.encode ++ descriptor.body <+: bytes := ⟨rest, hrest.symm⟩
  have hindex : index < descriptor.entries.length := (List.getElem?_eq_some_iff.1 hentry).1
  have hstarts := (upTo_append_isPrefix hentry).trans hbytes
  rw [logRootField, entryOffset_eq hformed hbytes hindex.le]
  exact Entry.logRootFieldAt_behind (hformed.entries entry (List.mem_of_getElem? hentry)) hstarts

end Descriptor

end FirmwareTransparency
