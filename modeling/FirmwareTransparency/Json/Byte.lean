import FirmwareTransparency.Bytes.Basic

/-!
# The bytes that JSON is made of

Structural bytes, white space and digits. All of JSON's own characters are ASCII, so a document is
read byte by byte and only the contents of strings are looked at as text.
-/

set_option autoImplicit false

namespace FirmwareTransparency.Json

/-- A double quote. -/
def quote : UInt8 := 0x22

/-- A backslash. -/
def backslash : UInt8 := 0x5c

/-- A comma. -/
def comma : UInt8 := 0x2c

/-- A colon. -/
def colon : UInt8 := 0x3a

/-- An opening bracket. -/
def openBracket : UInt8 := 0x5b

/-- A closing bracket. -/
def closeBracket : UInt8 := 0x5d

/-- An opening brace. -/
def openBrace : UInt8 := 0x7b

/-- A closing brace. -/
def closeBrace : UInt8 := 0x7d

/-- Space, tab, line feed or carriage return. -/
def isSpace (byte : UInt8) : Bool :=
  byte == 0x20 || byte == 0x09 || byte == 0x0a || byte == 0x0d

/-- A decimal digit. -/
def isDigit (byte : UInt8) : Bool := 0x30 ≤ byte && byte ≤ 0x39

/-- The value of a decimal digit. -/
def digitValue (byte : UInt8) : Nat := byte.toNat - 0x30

/-- The value of a hexadecimal digit of either case. -/
def hexValue? (byte : UInt8) : Option Nat :=
  if 0x30 ≤ byte ∧ byte ≤ 0x39 then some (byte.toNat - 0x30)
  else if 0x41 ≤ byte ∧ byte ≤ 0x46 then some (byte.toNat - 0x37)
  else if 0x61 ≤ byte ∧ byte ≤ 0x66 then some (byte.toNat - 0x57)
  else none

/-- What follows the white space at the front. -/
def skipSpace (bytes : Bytes) : Bytes := bytes.dropWhile isSpace

/-- What follows a word, if the word stands at the front. -/
def skipWord? (word bytes : Bytes) : Option Bytes :=
  if word.isPrefixOf bytes then some (bytes.drop word.length) else none

/-- The word `null`. -/
def nullWord : Bytes := [0x6e, 0x75, 0x6c, 0x6c]

/-- The word `true`. -/
def trueWord : Bytes := [0x74, 0x72, 0x75, 0x65]

/-- The word `false`. -/
def falseWord : Bytes := [0x66, 0x61, 0x6c, 0x73, 0x65]

/-- Behind white space that was skipped there is none left to skip. -/
@[simp] theorem skipSpace_skipSpace (bytes : Bytes) :
    skipSpace (skipSpace bytes) = skipSpace bytes := by
  induction bytes with
  | nil => rfl
  | cons byte rest ih =>
    by_cases h : isSpace byte = true
    · simpa [skipSpace, List.dropWhile_cons, h] using ih
    · simp [skipSpace, h]

end FirmwareTransparency.Json
