import FirmwareTransparency.Descriptor.Cursor
import FirmwareTransparency.Text

/-!
# Log roots

A log root is the head of a log's tree: the root hash at a tree size, with a time stamp, a revision
and metadata of the log's own. Its encoding is the very message that the log signs.
-/

set_option autoImplicit false

namespace FirmwareTransparency

/-- The head of a log's tree. -/
structure LogRoot where
  treeSize : UInt64
  rootHash : Digest
  /-- When the log signed, in nanoseconds. -/
  timestamp : UInt64
  revision : UInt64
  metadata : Bytes
  deriving DecidableEq

namespace LogRoot

/-- The only known version of the encoding. -/
def version : UInt16 := 1

/-- The size of an encoding without its metadata. -/
def fixedSize : Nat := 61

/-- The largest size of metadata. -/
def maxMetadataSize : Nat := 65535

/-- The largest size of an encoding. -/
def maxSize : Nat := fixedSize + maxMetadataSize

/-- The size of the encoding. -/
def encodedSize (root : LogRoot) : Nat := fixedSize + root.metadata.length

/-- A log root that has an encoding: its metadata fits their size field. -/
def Encodable (root : LogRoot) : Prop := root.metadata.length ≤ maxMetadataSize

/-- A log root of the given parts, if it has an encoding. -/
def make (treeSize : UInt64) (rootHash : Digest) (timestamp revision : UInt64) (metadata : Bytes) :
    Except FormatError LogRoot :=
  if metadata.length ≤ maxMetadataSize then
    .ok ⟨treeSize, rootHash, timestamp, revision, metadata⟩
  else .error (.fieldTooLarge .rootMetadata metadata.length maxMetadataSize)

/-- Reads a log root. -/
def read : Read LogRoot := do
  let found ← Read.uint16
  if found ≠ version then
    throw (.unsupportedLogRootVersion found)
  let treeSize ← Read.uint64
  let hashSize ← Read.uint8
  if hashSize ≠ 32 then
    throw (.invalidRootHashSize hashSize)
  let rootHash ← Read.digest
  let timestamp ← Read.uint64
  let revision ← Read.uint64
  let metadataSize ← Read.uint16
  let metadata ← Read.bytes metadataSize.toNat
  return ⟨treeSize, rootHash, timestamp, revision, metadata⟩

/-- The encoding, which is the message that the log signs. -/
def encode (root : LogRoot) : Bytes :=
  Bytes.ofUInt16 version ++ Bytes.ofUInt64 root.treeSize ++ [32] ++ root.rootHash.toBytes ++
    Bytes.ofUInt64 root.timestamp ++ Bytes.ofUInt64 root.revision ++
    Bytes.ofUInt16 (UInt16.ofNat root.metadata.length) ++ root.metadata

/-- The lines that show a log root. -/
def lines (root : LogRoot) : List String :=
  let row := Text.labelled 6 23
  ["    Log Root Descriptor:",
    row "Version:" (toString version.toNat),
    row "Tree size:" (toString root.treeSize.toNat),
    row "Root hash:" root.rootHash.toBytes.toHex,
    row "Timestamp (ns):" (toString root.timestamp.toNat),
    row "Revision:" (toString root.revision.toNat),
    row "Metadata size:" (toString root.metadata.length)] ++
  if root.metadata.isEmpty then [] else [row "Metadata:" root.metadata.toHex]

/-- A log root is written in as many bytes as it says. -/
@[simp] theorem length_encode (root : LogRoot) : root.encode.length = root.encodedSize := by
  simp [encode, encodedSize, fixedSize, Bytes.ofUInt16, Bytes.ofUInt64, root.rootHash.length_eq]
  omega

/-- A log root can be made exactly if its metadata fits the field for their size. -/
theorem make_eq_ok_iff {treeSize timestamp revision : UInt64} {rootHash : Digest}
    {metadata : Bytes} {root : LogRoot} :
    make treeSize rootHash timestamp revision metadata = .ok root ↔
      root = ⟨treeSize, rootHash, timestamp, revision, metadata⟩ ∧ root.Encodable := by
  unfold make
  split
  · next h =>
    constructor
    · intro heq
      cases heq
      exact ⟨rfl, h⟩
    · rintro ⟨rfl, -⟩
      rfl
  · next h =>
    constructor
    · intro heq
      cases heq
    · rintro ⟨rfl, henc⟩
      exact absurd henc h

end LogRoot

end FirmwareTransparency
