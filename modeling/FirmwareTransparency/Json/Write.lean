import FirmwareTransparency.Json.Text

/-!
# Writing JSON

Objects are written without any white space, their members in the order given.
-/

set_option autoImplicit false

namespace FirmwareTransparency.Json

/-- Writes one member, its value being written already. -/
def writeMember (member : String × Bytes) : Bytes :=
  writeText member.1 ++ colon :: member.2

/-- Writes members with commas between them. -/
def writeMembers : List (String × Bytes) → Bytes
  | [] => []
  | [member] => writeMember member
  | member :: members => writeMember member ++ comma :: writeMembers members

/-- Writes an object. -/
def writeObject (members : List (String × Bytes)) : Bytes :=
  openBrace :: writeMembers members ++ [closeBrace]

end FirmwareTransparency.Json
