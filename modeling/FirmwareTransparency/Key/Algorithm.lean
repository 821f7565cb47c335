import FirmwareTransparency.Error

/-!
# Signature algorithms

The three algorithms that logs sign with, and their names.
-/

set_option autoImplicit false

namespace FirmwareTransparency

/-- A signature algorithm. -/
inductive Algorithm where
  | ed25519
  /-- ECDSA on the curve P-256 with SHA-256. -/
  | ecdsaP256
  /-- RSA with the padding of PKCS number one, version 1.5, and SHA-256. -/
  | rsaPkcs1
  deriving DecidableEq

namespace Algorithm

/-- Every algorithm. -/
def all : List Algorithm := [.ed25519, .ecdsaP256, .rsaPkcs1]

/-- The name of an algorithm. -/
def name : Algorithm → String
  | .ed25519 => "ed25519"
  | .ecdsaP256 => "ecdsa-p256-sha256"
  | .rsaPkcs1 => "rsa-pkcs1-sha256"

/-- Every algorithm under its name. -/
def names : List (String × Algorithm) := all.map fun algorithm => (algorithm.name, algorithm)

/-- The algorithm of a name. -/
def ofName (name : String) : Except Error Algorithm :=
  match all.find? (·.name == name) with
  | some algorithm => .ok algorithm
  | none => .error (.unsupportedAlgorithm name)

/-- Every algorithm is found by its name. -/
theorem ofName_name (algorithm : Algorithm) : ofName algorithm.name = .ok algorithm := by
  cases algorithm <;> rfl

end Algorithm

end FirmwareTransparency
