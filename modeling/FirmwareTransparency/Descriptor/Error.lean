import FirmwareTransparency.Base64
import FirmwareTransparency.Json.Error

/-!
# What can be wrong with a descriptor

Every departure from the format has a cause of its own, and one cause rejects the whole descriptor.
-/

set_option autoImplicit false

namespace FirmwareTransparency

/-- The fields whose size the format or a limit bounds. -/
inductive SizedField where
  | logUrl
  | logRoot
  | firmwareLeaf
  | rootSignature
  /-- The metadata at the end of a log root. -/
  | rootMetadata
  | totalSize
  deriving DecidableEq

/-- The name of a field in messages. -/
def SizedField.name : SizedField → String
  | .logUrl => "log_url"
  | .logRoot => "log_root"
  | .firmwareLeaf => "fw_info_leaf"
  | .rootSignature => "log_root_signature"
  | .rootMetadata => "log_root_metadata"
  | .totalSize => "total_size"

/-- The members of a firmware leaf that hold base64. -/
inductive BinaryMember where
  | imageHash
  | platformKey
  | manufacturerKeyHash
  deriving DecidableEq

/-- The name of a member in a leaf. -/
def BinaryMember.name : BinaryMember → String
  | .imageHash => "vbmeta_hash"
  | .platformKey => "platform_key"
  | .manufacturerKeyHash => "manufacturer_key_hash"

/-- Why a firmware leaf could not be read. -/
inductive LeafError where
  /-- It is no JSON document of the right shape. -/
  | json (cause : Json.Error)
  /-- A member that should hold base64 does not. -/
  | base64 (member : BinaryMember) (cause : Base64.Error)
  | missingImageHash
  /-- The hash that names the image is no SHA-256 digest. -/
  | imageHashSize (size : Nat)
  deriving DecidableEq

/-- The wording of a leaf error. -/
def LeafError.message : LeafError → String
  | .json cause => cause.message
  | .base64 member cause => s!"{member.name}: {cause.message}"
  | .missingImageHash => "missing vbmeta_hash"
  | .imageHashSize size => s!"vbmeta_hash is {size} bytes, expected 32"

/-- Why bytes are no descriptor. -/
inductive FormatError where
  /-- A field reaches past the end of the bytes. -/
  | outOfBounds (offset needed available : Nat)
  | badMagic
  /-- The descriptor has a version from the future. -/
  | unsupportedVersion (major minor : UInt32)
  /-- A size field contradicts the content. -/
  | sizeMismatch (declared actual : Nat)
  | tooManyEntries (count max : Nat)
  | noEntries
  | fieldTooLarge (field : SizedField) (size max : Nat)
  /-- The address of a log is empty or holds other than visible ASCII. -/
  | invalidLogUrl
  | unsupportedLogRootVersion (version : UInt16)
  /-- The root hash is no SHA-256 digest. -/
  | invalidRootHashSize (size : UInt8)
  | emptyTree
  | leafIndexOutOfRange (index size : UInt64)
  /-- The inclusion proof has the wrong length for its position. -/
  | proofLengthMismatch (expected actual : Nat)
  | invalidFirmwareLeaf (cause : LeafError)
  deriving DecidableEq

/-- The wording of a format error. -/
def FormatError.message : FormatError → String
  | .outOfBounds offset needed available =>
    s!"Read out of bounds at offset {offset}: needed {needed} bytes, {available} available"
  | .badMagic => "Bad magic"
  | .unsupportedVersion major minor =>
    s!"Unsupported descriptor version {major.toNat}.{minor.toNat}"
  | .sizeMismatch declared actual =>
    s!"Declared size {declared} does not match actual size {actual}"
  | .tooManyEntries count max => s!"Too many entries: {count} (max: {max})"
  | .noEntries => "Descriptor has no inclusion proof entries"
  | .fieldTooLarge field size max => s!"Field {field.name} too large: {size} bytes (max: {max})"
  | .invalidLogUrl => "Log URL is not printable ASCII"
  | .unsupportedLogRootVersion version => s!"Unsupported log root version {version.toNat}"
  | .invalidRootHashSize size => s!"Invalid root hash size {size.toNat}"
  | .emptyTree => "Tree size cannot be zero"
  | .leafIndexOutOfRange index size =>
    s!"Leaf index {index.toNat} is out of range for tree size {size.toNat}"
  | .proofLengthMismatch expected actual =>
    s!"Audit path has {actual} hashes, expected {expected}"
  | .invalidFirmwareLeaf cause => s!"Invalid firmware info leaf: {cause.message}"

end FirmwareTransparency
