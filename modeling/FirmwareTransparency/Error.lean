import FirmwareTransparency.Descriptor.Error

/-!
# Errors

Everything that can go wrong for a user of the library, each cause with its wording.
-/

set_option autoImplicit false

namespace FirmwareTransparency

/-- The checks that an entry has to pass. -/
inductive Gate where
  /-- The leaf must name the image at hand. -/
  | hashMismatch
  /-- The proof must lead from the leaf to the log root. -/
  | rootMismatch
  /-- The log must have signed the log root. -/
  | signatureInvalid
  /-- The log must be trusted. -/
  | unknownLog
  deriving DecidableEq

/-- The wording of a failed check. -/
def Gate.message : Gate → String
  | .hashMismatch => "vbmeta hash mismatch"
  | .rootMismatch => "root hash mismatch"
  | .signatureInvalid => "invalid log root signature"
  | .unknownLog => "unknown transparency log"

/-- Why bytes or text are no public key. -/
inductive KeyError where
  | ed25519
  | p256
  | rsa
  /-- The modulus of an RSA key has so few bits, counted in whole bytes. -/
  | rsaTooSmall (bits : Nat)
  deriving DecidableEq

/-- The wording of a key error. -/
def KeyError.message : KeyError → String
  | .ed25519 => "ParseError"
  | .p256 => "P-256"
  | .rsa => "RSA"
  | .rsaTooSmall bits => s!"RSA key of {bits} bits is below the 2048 bit minimum"

/-- Everything that can go wrong. -/
inductive Error where
  /-- A descriptor cannot be read. -/
  | format (cause : FormatError)
  /-- A file cannot be read. -/
  | io
  /-- A trust store is no JSON document of the right shape. -/
  | json (cause : Json.Error)
  /-- A key in a trust store is no base64. -/
  | base64 (cause : Base64.Error)
  /-- A trust store names a log twice. -/
  | duplicateLog (identity : String)
  | key (cause : KeyError)
  | unsupportedAlgorithm (name : String)
  | noDescriptor
  | verificationFailed (entry : Nat) (gate : Gate)
  /-- A value has no encoding. -/
  | invalidArgument
  /-- The command line names nothing to do. -/
  | noCommand
  deriving DecidableEq

/-- The wording of an error. -/
def Error.message : Error → String
  | .format cause => s!"Parse error: {cause.message}"
  | .io => "I/O error"
  | .json cause => s!"JSON error: {cause.message}"
  | .base64 cause => s!"Base64 error: {cause.message}"
  | .duplicateLog identity => s!"Trust store error: duplicate log identity: {identity}"
  | .key cause => s!"Invalid public key: {cause.message}"
  | .unsupportedAlgorithm name => s!"Unsupported algorithm: {name}"
  | .noDescriptor => "No AFTL descriptor found"
  | .verificationFailed entry gate => s!"Verification failed on entry {entry}: {gate.message}"
  | .invalidArgument => "Invalid argument"
  | .noCommand => "Usage error: No subcommand specified"

end FirmwareTransparency
