import FirmwareTransparency.Descriptor.Leaf
import FirmwareTransparency.Descriptor.Limits
import FirmwareTransparency.Descriptor.LogRoot
import FirmwareTransparency.Merkle.Position

/-!
# Entries

An entry is one inclusion proof: a log's claim that a firmware leaf stands at an index of the tree
whose root the log signed. On the wire all sizes of an entry come first, then its parts in order.
-/

set_option autoImplicit false

namespace FirmwareTransparency

/-- One inclusion proof of a descriptor. -/
structure Entry where
  /-- The address of the log, which also names its key. -/
  logUrl : String
  leafIndex : UInt64
  logRoot : LogRoot
  leaf : Leaf
  /-- The log's signature over the encoded log root. -/
  signature : Bytes
  /-- The audit path from the leaf to the root, the leaf's sibling first. -/
  proof : List Digest
  deriving DecidableEq

/-- Whether bytes can be the address of a log: one or more visible ASCII characters. -/
def isLogUrl (url : Bytes) : Bool := !url.isEmpty && url.all Text.isGraphic

/-- Refuses a position that no tree has and a proof that is too long or too short for it. -/
def checkPosition (index size : UInt64) (proofLength : Nat) : Except FormatError Unit :=
  if size = 0 then .error .emptyTree
  else
    match Merkle.pathLength? index.toNat size.toNat with
    | none => .error (.leafIndexOutOfRange index size)
    | some expected =>
      if proofLength = expected then .ok ()
      else .error (.proofLengthMismatch expected proofLength)

namespace Entry

/-- The size of the fields in front of the parts. -/
def headerSize : Nat := 27

/-- The largest number that two bytes hold. -/
def maxSize16 : Nat := 65535

/-- The largest number that four bytes hold. -/
def maxSize32 : Nat := 4294967295

/-- The size of the log tree that the entry claims. -/
def treeSize (entry : Entry) : UInt64 := entry.logRoot.treeSize

/-- The bytes of the log's address. -/
def urlBytes (entry : Entry) : Bytes := Text.utf8 entry.logUrl

/-- The size of the encoding. -/
def encodedSize (entry : Entry) : Nat :=
  headerSize + entry.urlBytes.length + entry.logRoot.encodedSize + entry.leaf.raw.length +
    entry.signature.length + entry.proof.length * 32

/-- An entry that can be in a descriptor. -/
structure WellFormed (entry : Entry) : Prop where
  url : isLogUrl entry.urlBytes = true
  url_size : entry.urlBytes.length ≤ maxSize32
  root : entry.logRoot.Encodable
  leaf : entry.leaf.Valid
  leaf_size : entry.leaf.raw.length ≤ maxSize32
  signature_size : entry.signature.length ≤ maxSize16
  position : checkPosition entry.leafIndex entry.treeSize entry.proof.length = .ok ()

/-- An entry of the given parts, if they fit the format. Limits are not applied here. -/
def make (logUrl : String) (leafIndex : UInt64) (logRoot : LogRoot) (leaf : Leaf)
    (signature : Bytes) (proof : List Digest) : Except FormatError Entry := do
  let url := Text.utf8 logUrl
  if !isLogUrl url then
    throw .invalidLogUrl
  checkSize .logUrl url.length maxSize32
  checkSize .firmwareLeaf leaf.raw.length maxSize32
  checkSize .rootSignature signature.length maxSize16
  checkPosition leafIndex logRoot.treeSize proof.length
  return ⟨logUrl, leafIndex, logRoot, leaf, signature, proof⟩

/-- Whether reading would accept the sizes of an entry under some limits. -/
def validate (entry : Entry) (limits : Limits) : Except FormatError Unit := do
  checkSize .logUrl entry.urlBytes.length limits.maxLogUrlSize
  checkSize .firmwareLeaf entry.leaf.raw.length limits.maxLeafSize
  checkSize .rootSignature entry.signature.length limits.maxSignatureSize

/-- The sizes and numbers in front of an entry's parts. -/
structure Header where
  urlSize : Nat
  leafIndex : UInt64
  rootSize : Nat
  leafSize : Nat
  signatureSize : Nat
  proofCount : Nat
  proofSize : Nat
  deriving DecidableEq

/-- Reads the fields in front of an entry's parts. -/
def Header.read : Read Header := do
  let urlSize ← Read.uint32
  let leafIndex ← Read.uint64
  let rootSize ← Read.uint32
  let leafSize ← Read.uint32
  let signatureSize ← Read.uint16
  let proofCount ← Read.uint8
  let proofSize ← Read.uint32
  return ⟨urlSize.toNat, leafIndex, rootSize.toNat, leafSize.toNat, signatureSize.toNat,
    proofCount.toNat, proofSize.toNat⟩

/-- Refuses declared sizes that a limit or the format excludes. -/
def Header.check (header : Header) (limits : Limits) : Except FormatError Unit := do
  checkSize .logUrl header.urlSize limits.maxLogUrlSize
  checkSize .logRoot header.rootSize LogRoot.maxSize
  checkSize .firmwareLeaf header.leafSize limits.maxLeafSize
  checkSize .rootSignature header.signatureSize limits.maxSignatureSize

/-- Reads a log root that must fill its declared size. -/
def readLogRoot (size : Nat) : Read LogRoot := do
  let cursor ← Read.part size
  let (root, cursor) ← Read.within cursor LogRoot.read
  if !cursor.isEmpty then
    throw (.sizeMismatch size root.encodedSize)
  return root

/-- Reads an entry. -/
def read (limits : Limits) : Read Entry := do
  let header ← Header.read
  Read.ofExcept (header.check limits)
  let url ← Read.bytes header.urlSize
  if !isLogUrl url then
    throw .invalidLogUrl
  let logRoot ← readLogRoot header.rootSize
  let rawLeaf ← Read.bytes header.leafSize
  let leaf ← Read.ofExcept (Leaf.parse rawLeaf)
  let signature ← Read.bytes header.signatureSize
  Read.ofExcept (checkPosition header.leafIndex logRoot.treeSize header.proofCount)
  if header.proofSize ≠ header.proofCount * 32 then
    throw (.sizeMismatch header.proofSize (header.proofCount * 32))
  let proof ← Read.times header.proofCount Read.digest
  return ⟨Text.ofAscii url, header.leafIndex, logRoot, leaf, signature, proof⟩

/-- The encoding, every size being computed from the content. -/
def encode (entry : Entry) : Bytes :=
  Bytes.bigEndian 4 entry.urlBytes.length ++ Bytes.ofUInt64 entry.leafIndex ++
    Bytes.bigEndian 4 entry.logRoot.encodedSize ++ Bytes.bigEndian 4 entry.leaf.raw.length ++
    Bytes.bigEndian 2 entry.signature.length ++ Bytes.bigEndian 1 entry.proof.length ++
    Bytes.bigEndian 4 (entry.proof.length * 32) ++
    entry.urlBytes ++ entry.logRoot.encode ++ entry.leaf.raw ++ entry.signature ++
    entry.proof.flatMap FixedBytes.toBytes

/-- The lines that show an entry. -/
def lines (entry : Entry) : List String :=
  let row := Text.labelled 4 25
  [row "Transparency Log:" entry.logUrl,
    row "Leaf index:" (toString entry.leafIndex.toNat),
    "    ICP hashes:"] ++
  entry.proof.map (fun hash => "      " ++ hash.toBytes.toHex) ++
  entry.logRoot.lines ++ entry.leaf.lines ++
  [row "Log root signature:" entry.signature.toHex]

/-- The hashes of a proof are written in 32 bytes each. -/
theorem length_flatMap_toBytes (proof : List Digest) :
    (proof.flatMap FixedBytes.toBytes).length = proof.length * 32 := by
  induction proof with
  | nil => rfl
  | cons hash rest ih =>
    simp only [List.flatMap_cons, List.length_append, List.length_cons, ih, hash.length_eq]
    omega

/-- An entry is written in as many bytes as it says. -/
@[simp] theorem length_encode (entry : Entry) : entry.encode.length = entry.encodedSize := by
  simp only [encode, encodedSize, headerSize, Bytes.ofUInt64, List.length_append,
    Bytes.length_bigEndian, LogRoot.length_encode, length_flatMap_toBytes]

end Entry

end FirmwareTransparency
