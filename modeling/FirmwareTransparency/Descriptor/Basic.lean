import FirmwareTransparency.Descriptor.Entry
import FirmwareTransparency.Error

/-!
# Descriptors

A descriptor is a magic, a version, its total size, a count and that many entries. Whatever follows
the total size belongs to something else and is not looked at; inside it there is no slack.
-/

set_option autoImplicit false

namespace FirmwareTransparency

/-- A descriptor: a version, a size and inclusion proofs. -/
structure Descriptor where
  major : UInt32
  minor : UInt32
  /-- The declared size of the whole descriptor. -/
  totalSize : Nat
  entries : List Entry
  deriving DecidableEq

namespace Descriptor

/-- The four bytes that every descriptor starts with. -/
def magic : Bytes := [0x41, 0x46, 0x54, 0x4c]

/-- The size of everything in front of the entries. -/
def headerSize : Nat := 18

/-- The newest major version. -/
def currentMajor : UInt32 := 1

/-- The newest minor version. -/
def currentMinor : UInt32 := 2

/-- The largest number of entries that has an encoding. -/
def maxEntryCount : Nat := 65535

/-- The largest total size that has an encoding. -/
def maxTotalSize : Nat := 4294967295

/-- The size of the encoding of a descriptor over the given entries. -/
def sizeOver (entries : List Entry) : Nat :=
  headerSize + entries.foldr (fun entry size => entry.encodedSize + size) 0

/-- A descriptor of the current version over the given entries, if it has an encoding. -/
def ofEntries (entries : List Entry) : Except FormatError Descriptor := do
  if entries.isEmpty then
    throw .noEntries
  if maxEntryCount < entries.length then
    throw (.tooManyEntries entries.length maxEntryCount)
  checkSize .totalSize (sizeOver entries) maxTotalSize
  return ⟨currentMajor, currentMinor, sizeOver entries, entries⟩

/-- Whether reading would accept the encoding of a descriptor under some limits. -/
def validate (descriptor : Descriptor) (limits : Limits) : Except FormatError Unit := do
  if limits.maxEntries < descriptor.entries.length then
    throw (.tooManyEntries descriptor.entries.length limits.maxEntries)
  descriptor.entries.forM (·.validate limits)

/-- The fields in front of the entries. -/
structure Header where
  major : UInt32
  minor : UInt32
  /-- The declared size of the whole descriptor. -/
  totalSize : Nat
  entryCount : Nat
  deriving DecidableEq

/-- Reads the fields in front of the entries, refusing each as soon as it is known. -/
def Header.read (limits : Limits) : Read Header := do
  if (← Read.bytes 4) ≠ magic then
    throw .badMagic
  let major ← Read.uint32
  let minor ← Read.uint32
  if currentMajor < major ∨ currentMinor < minor then
    throw (.unsupportedVersion major minor)
  let totalSize := (← Read.uint32).toNat
  if totalSize < headerSize then
    throw (.sizeMismatch totalSize headerSize)
  let entryCount := (← Read.uint16).toNat
  if limits.maxEntries < entryCount then
    throw (.tooManyEntries entryCount limits.maxEntries)
  if entryCount = 0 then
    throw .noEntries
  return ⟨major, minor, totalSize, entryCount⟩

/-- Reads a descriptor. -/
def read (limits : Limits) : Read Descriptor := do
  let header ← Header.read limits
  let cursor ← Read.part (header.totalSize - headerSize)
  let (entries, cursor) ← Read.within cursor (Read.times header.entryCount (Entry.read limits))
  if !cursor.isEmpty then
    throw (.sizeMismatch header.totalSize (headerSize + cursor.offset))
  return ⟨header.major, header.minor, header.totalSize, entries⟩

/-- Reads a descriptor from the front of the bytes. -/
def parse (limits : Limits) (bytes : Bytes) : Except FormatError Descriptor :=
  (read limits).onBytes bytes

/-- The encoding, the sizes of the entries being computed from their content. -/
def encode (descriptor : Descriptor) : Except Error Bytes :=
  if maxTotalSize < descriptor.totalSize ∨ maxEntryCount < descriptor.entries.length then
    .error .invalidArgument
  else
    .ok (magic ++ Bytes.ofUInt32 descriptor.major ++ Bytes.ofUInt32 descriptor.minor ++
      Bytes.bigEndian 4 descriptor.totalSize ++ Bytes.bigEndian 2 descriptor.entries.length ++
      descriptor.entries.flatMap Entry.encode)

/-- The lines that show a descriptor. -/
def lines (descriptor : Descriptor) : List String :=
  let row := Text.labelled 4 25
  ["Android Firmware Transparency Image:",
    "  AFTL image header:",
    row "Major version:" (toString descriptor.major.toNat),
    row "Minor version:" (toString descriptor.minor.toNat),
    row "Image size:" (toString descriptor.totalSize),
    row "ICP entries count:" (toString descriptor.entries.length)] ++
  descriptor.entries.zipIdx.flatMap fun (entry, index) =>
    ("  Entry #" ++ toString (index + 1) ++ ":") :: entry.lines

end Descriptor

end FirmwareTransparency
