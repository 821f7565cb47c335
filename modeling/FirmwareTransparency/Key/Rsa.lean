import FirmwareTransparency.Error
import FirmwareTransparency.Hash.Sha256
import FirmwareTransparency.Key.Der
import FirmwareTransparency.Key.Modular
import FirmwareTransparency.Key.Pem

/-!
# RSA signatures

Keys are a modulus and an exponent, given in a subject public key info or as the bare pair.
Signatures are those of PKCS number one, version 1.5, with SHA-256: the power of the signature must
be the one padded form of the message's digest.
-/

set_option autoImplicit false

namespace FirmwareTransparency.Rsa

/-- A public key. -/
structure PublicKey where
  modulus : Nat
  exponent : Nat
  deriving DecidableEq

/-- How many bytes a number takes. -/
def byteSize (n : Nat) : Nat := if n = 0 then 0 else n.log2 / 8 + 1

/-- The size of a key in bytes. -/
def PublicKey.size (key : PublicKey) : Nat := byteSize key.modulus

/-- The size of a key in bits, counted in whole bytes. -/
def PublicKey.bits (key : PublicKey) : Nat := 8 * key.size

/-- The least size of a key in bits. -/
def minBits : Nat := 2048

/-- Whether a modulus of up to 4096 bits and an exponent of up to 33 bits make a key: both odd, and
the exponent the smaller. -/
def PublicKey.isSound (key : PublicKey) : Bool :=
  key.modulus < 1 <<< 4096 && key.modulus % 2 == 1 && key.exponent % 2 == 1 && 2 ≤ key.exponent &&
    key.exponent < 1 <<< 33 && key.exponent < key.modulus

/-- Reads the bare pair of modulus and exponent. -/
def ofPair? (bytes : Bytes) : Option PublicKey := do
  let (modulus, exponent) ← Der.integerPair? bytes
  let key : PublicKey := ⟨modulus, exponent⟩
  if key.isSound then return key else none

/-- The content of the algorithm in a subject public key info: RSA, no parameters. -/
def infoAlgorithm : Bytes :=
  [0x06, 0x09, 0x2a, 0x86, 0x48, 0x86, 0xf7, 0x0d, 0x01, 0x01, 0x01, 0x05, 0x00]

/-- Reads a subject public key info. -/
def ofInfo? (bytes : Bytes) : Option PublicKey := do
  let pair ← Der.publicKeyInfo? infoAlgorithm bytes
  ofPair? pair

/-- Reads a key of any size: a subject public key info, or else the bare pair. -/
def ofBytes? (bytes : Bytes) : Option PublicKey :=
  match ofInfo? bytes with
  | some key => some key
  | none => ofPair? bytes

/-- The label of a block with the bare pair. -/
def pairLabel : Bytes := Text.utf8 "RSA PUBLIC KEY"

/-- Reads a key of any size in text form. A text that begins a block with the bare pair anywhere is
read as such a block. -/
def ofPem? (text : Bytes) : Option PublicKey :=
  if (Bytes.find? (Pem.beginMark ++ pairLabel ++ Pem.dashes) text).isSome then do
    let bytes ← Pem.strict? pairLabel text
    ofPair? bytes
  else do
    let bytes ← Pem.strict? (Text.utf8 "PUBLIC KEY") text
    ofInfo? bytes

/-- Refuses what is no key and a key that is too small. -/
def checkSize (key : Option PublicKey) : Except KeyError PublicKey :=
  match key with
  | none => .error .rsa
  | some key => if key.bits < minBits then .error (.rsaTooSmall key.bits) else .ok key

/-- What stands in front of a SHA-256 digest in a signature. -/
def digestHeader : Bytes :=
  [0x30, 0x31, 0x30, 0x0d, 0x06, 0x09, 0x60, 0x86, 0x48, 0x01, 0x65, 0x03, 0x04, 0x02, 0x01, 0x05,
    0x00, 0x04, 0x20]

/-- The padded form of a digest, so many bytes long: a zero, a one, as many bytes of all ones as
fit, a zero, and the digest behind its header. -/
def padded (size : Nat) (digest : Digest) : Bytes :=
  [0x00, 0x01] ++ List.replicate (size - 54) 0xff ++ [0x00] ++ digestHeader ++ digest.toBytes

/-- Whether a signature over a message is valid under a key. -/
def verify (key : PublicKey) (message signature : Bytes) : Bool :=
  let value := Bytes.toNat signature
  signature.length == key.size && value < key.modulus &&
    powMod value key.exponent key.modulus == Bytes.toNat (padded key.size (sha256 message))

end FirmwareTransparency.Rsa
