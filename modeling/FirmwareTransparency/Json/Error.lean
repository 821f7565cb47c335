/-!
# What can be wrong with a JSON document

A document is read once, from front to back, into a fixed shape. The first departure from the
grammar or from the shape ends the reading.
-/

set_option autoImplicit false

namespace FirmwareTransparency.Json

/-- Why a document could not be read. -/
inductive Error where
  /-- A required member is absent from its object. -/
  | missingField (name : String)
  /-- A member stands twice in its object. -/
  | duplicateField (name : String)
  /-- A member that a strict object does not know. -/
  | unknownField
  /-- A name that a choice does not know. -/
  | unknownVariant
  /-- A well-formed value of another kind than the shape asks for. -/
  | invalidType
  /-- An array with fewer elements than the shape asks for. -/
  | invalidLength
  /-- The document departs from the grammar. -/
  | malformed
  deriving DecidableEq

/-- The wording of an error. -/
def Error.message : Error → String
  | .missingField name => s!"missing field `{name}`"
  | .duplicateField name => s!"duplicate field `{name}`"
  | .unknownField => "unknown field"
  | .unknownVariant => "unknown variant"
  | .invalidType => "invalid type"
  | .invalidLength => "invalid length"
  | .malformed => "syntax"

end FirmwareTransparency.Json
