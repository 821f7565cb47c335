import FirmwareTransparency.Key.Algorithm
import FirmwareTransparency.Key.Ed25519
import FirmwareTransparency.Key.P256
import FirmwareTransparency.Key.Rsa

/-!
# Public keys of logs

A key of one of the three algorithms, read from bytes or from text under an algorithm that is known
beforehand.
-/

set_option autoImplicit false

namespace FirmwareTransparency

/-- The public key of a log. -/
inductive PublicKey where
  | ed25519 (key : Ed25519.PublicKey)
  | p256 (key : P256.PublicKey)
  | rsa (key : Rsa.PublicKey)
  deriving DecidableEq

namespace PublicKey

/-- The algorithm that a key is for. -/
def algorithm : PublicKey → Algorithm
  | .ed25519 _ => .ed25519
  | .p256 _ => .ecdsaP256
  | .rsa _ => .rsaPkcs1

/-- Reads a key from bytes. -/
def ofBytes (algorithm : Algorithm) (bytes : Bytes) : Except KeyError PublicKey :=
  match algorithm with
  | .ed25519 =>
    match Ed25519.ofBytes? bytes with
    | some key => .ok (.ed25519 key)
    | none => .error .ed25519
  | .ecdsaP256 =>
    match P256.ofBytes? bytes with
    | some key => .ok (.p256 key)
    | none => .error .p256
  | .rsaPkcs1 => (Rsa.checkSize (Rsa.ofBytes? bytes)).map .rsa

/-- Reads a key from text. -/
def ofPem (algorithm : Algorithm) (text : String) : Except KeyError PublicKey :=
  let bytes := Text.utf8 text
  match algorithm with
  | .ed25519 =>
    match Ed25519.ofPem? bytes with
    | some key => .ok (.ed25519 key)
    | none => .error .ed25519
  | .ecdsaP256 =>
    match P256.ofPem? bytes with
    | some key => .ok (.p256 key)
    | none => .error .p256
  | .rsaPkcs1 => (Rsa.checkSize (Rsa.ofPem? bytes)).map .rsa

/-- Whether a signature over a message is valid under a key. -/
def verify : PublicKey → (message signature : Bytes) → Bool
  | .ed25519 key => Ed25519.verify key
  | .p256 key => P256.verify key
  | .rsa key => Rsa.verify key

/-- A short text that shows a key. -/
def description : PublicKey → String
  | .ed25519 key => "Ed25519(" ++ key.toBytes.toHex ++ ")"
  | .p256 key => "EcdsaP256(" ++ key.compressed.toHex ++ ")"
  | .rsa key => "Rsa(" ++ toString key.bits ++ " bits)"

/-- Keys read from bytes are for the algorithm that was asked for. -/
theorem algorithm_of_ofBytes {algorithm : Algorithm} {bytes : Bytes} {key : PublicKey}
    (h : ofBytes algorithm bytes = .ok key) : key.algorithm = algorithm := by
  unfold ofBytes at h
  cases algorithm with
  | ed25519 =>
    simp only at h
    split at h <;> cases h
    rfl
  | ecdsaP256 =>
    simp only at h
    split at h <;> cases h
    rfl
  | rsaPkcs1 =>
    simp only at h
    cases hkey : Rsa.checkSize (Rsa.ofBytes? bytes) with
    | error cause =>
      rw [hkey] at h
      cases h
    | ok rsa =>
      rw [hkey] at h
      cases h
      rfl

end PublicKey

end FirmwareTransparency
