import FirmwareTransparency.Descriptor.Error
import FirmwareTransparency.Json.Decode
import FirmwareTransparency.Json.Write
import FirmwareTransparency.Merkle.Hash
import FirmwareTransparency.Text

/-!
# Firmware leaves

A leaf is the log's record of one firmware image: a JSON document whose innermost object holds the
hash of the image and, optionally, its version, keys and a description, binary values in base64. Its
bytes are kept exactly as they were logged, since the Merkle leaf hash covers them.
-/

set_option autoImplicit false

namespace FirmwareTransparency

/-- What a leaf says about a firmware image. -/
structure FirmwareInfo where
  imageHash : Digest
  version : Option String
  platformKey : Option Bytes
  manufacturerKeyHash : Option Bytes
  description : Option String
  deriving DecidableEq

namespace FirmwareInfo

/-- The innermost object while it is read. A member that is given as null is present and empty. -/
structure Draft where
  imageHash : Option (Option String)
  version : Option (Option String)
  platformKey : Option (Option String)
  manufacturerKeyHash : Option (Option String)
  description : Option (Option String)
  deriving DecidableEq

/-- How an optional text enters a draft. -/
def Draft.field (name : String) (get : Draft → Option (Option String))
    (set : Draft → Option String → Draft) : Json.Field Draft where
  name := name
  isSet draft := (get draft).isSome
  read draft bytes := do
    let (value, rest) ← Json.optional Json.text bytes
    return (set draft value, rest)

/-- The innermost object: five optional texts and nothing else. -/
def shape : Json.Shape Draft Draft where
  fields :=
    [Draft.field "vbmeta_hash" Draft.imageHash fun draft value =>
        { draft with imageHash := some value },
      Draft.field "version_incremental" Draft.version fun draft value =>
        { draft with version := some value },
      Draft.field "platform_key" Draft.platformKey fun draft value =>
        { draft with platformKey := some value },
      Draft.field "manufacturer_key_hash" Draft.manufacturerKeyHash fun draft value =>
        { draft with manufacturerKeyHash := some value },
      Draft.field "description" Draft.description fun draft value =>
        { draft with description := some value }]
  blank := ⟨none, none, none, none, none⟩
  strict := true
  finish := .ok

/-- The document around the innermost object: four objects of one required member each. -/
def documentDecoder : Json.Decoder Draft :=
  Json.record (Json.single "Value" false
    (Json.record (Json.single "FwInfo" false
      (Json.record (Json.single "info" false
        (Json.record (Json.single "info" false (Json.record shape))))))))

/-- Reads the base64 of an optional member. -/
def binary (member : BinaryMember) (value : Option String) : Except LeafError (Option Bytes) :=
  match value with
  | none => .ok none
  | some text =>
    match Base64.decode (Text.utf8 text) with
    | .ok bytes => .ok (some bytes)
    | .error cause => .error (.base64 member cause)

/-- What the innermost object says. -/
def ofDraft (draft : Draft) : Except LeafError FirmwareInfo := do
  let imageHash ← binary .imageHash draft.imageHash.join
  match imageHash with
  | none => throw .missingImageHash
  | some bytes =>
    match FixedBytes.ofBytes? 32 bytes with
    | none => throw (.imageHashSize bytes.length)
    | some imageHash =>
      let platformKey ← binary .platformKey draft.platformKey.join
      let manufacturerKeyHash ← binary .manufacturerKeyHash draft.manufacturerKeyHash.join
      return ⟨imageHash, draft.version.join, platformKey, manufacturerKeyHash,
        draft.description.join⟩

/-- Reads a leaf document. -/
def ofDocument (bytes : Bytes) : Except LeafError FirmwareInfo :=
  match Json.document documentDecoder bytes with
  | .ok draft => ofDraft draft
  | .error cause => .error (.json cause)

/-- A binary value as a JSON string of base64. -/
def writeBinary (bytes : Bytes) : Bytes :=
  Json.quote :: Base64.encode bytes ++ [Json.quote]

/-- An optional member, left out if it is absent. -/
def writeOptional {α : Type} (name : String) (write : α → Bytes) :
    Option α → List (String × Bytes)
  | none => []
  | some value => [(name, write value)]

/-- Writes a leaf document. -/
def toDocument (info : FirmwareInfo) : Bytes :=
  let innermost := Json.writeObject
    (("vbmeta_hash", writeBinary info.imageHash.toBytes) ::
      writeOptional "version_incremental" Json.writeText info.version ++
      writeOptional "platform_key" writeBinary info.platformKey ++
      writeOptional "manufacturer_key_hash" writeBinary info.manufacturerKeyHash ++
      writeOptional "description" Json.writeText info.description)
  ["info", "info", "FwInfo", "Value"].foldl
    (fun document name => Json.writeObject [(name, document)]) innermost

end FirmwareInfo

/-- A firmware leaf: the bytes that were logged and what they say. -/
structure Leaf where
  raw : Bytes
  info : FirmwareInfo
  deriving DecidableEq

namespace Leaf

/-- A leaf that can be in a descriptor: its bytes say what it says. -/
def Valid (leaf : Leaf) : Prop := FirmwareInfo.ofDocument leaf.raw = .ok leaf.info

/-- A new leaf that says what is given. -/
def author (info : FirmwareInfo) : Leaf := ⟨info.toDocument, info⟩

/-- Reads a leaf. -/
def parse (bytes : Bytes) : Except FormatError Leaf :=
  match FirmwareInfo.ofDocument bytes with
  | .ok info => .ok ⟨bytes, info⟩
  | .error cause => .error (.invalidFirmwareLeaf cause)

/-- The digest of the image that a leaf names. -/
def imageHash (leaf : Leaf) : Digest := leaf.info.imageHash

/-- The Merkle hash of the logged bytes. -/
def hash (leaf : Leaf) : Digest := Merkle.leafHash leaf.raw

/-- The lines that show a leaf. -/
def lines (leaf : Leaf) : List String :=
  let row := Text.labelled 6 23
  ["    Firmware Info Leaf:", row "VBMeta hash:" leaf.imageHash.toBytes.toHex] ++
    (leaf.info.version.map (row "Version incremental:")).toList ++
    (leaf.info.platformKey.map fun key => row "Platform key:" key.toHex).toList ++
    (leaf.info.manufacturerKeyHash.map fun hash =>
      row "Manufacturer key hash:" hash.toHex).toList ++
    (leaf.info.description.map (row "Description:")).toList

/-- Reading keeps the bytes and gives exactly the valid leaves. -/
theorem parse_eq_ok_iff {bytes : Bytes} {leaf : Leaf} :
    parse bytes = .ok leaf ↔ leaf.raw = bytes ∧ leaf.Valid := by
  unfold parse Valid
  constructor
  · intro h
    split at h
    · next info hinfo =>
      cases h
      exact ⟨rfl, hinfo⟩
    · cases h
  · rintro ⟨rfl, hvalid⟩
    rw [hvalid]

end Leaf

end FirmwareTransparency
