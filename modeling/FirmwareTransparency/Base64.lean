import FirmwareTransparency.Bytes.Basic

/-!
# Base64

The standard alphabet with mandatory canonical padding: every byte string has exactly one written
form, and reading reports the first place where a text departs from it. Offsets count bytes of
the text.
-/

set_option autoImplicit false

namespace FirmwareTransparency.Base64

/-- Why a text is no canonical base64. -/
inductive Error where
  /-- A byte outside the alphabet, or padding where none may stand. -/
  | invalidSymbol (symbol : UInt8) (offset : Nat)
  /-- The text ends inside a group, after so many symbols. -/
  | invalidLength (length : Nat)
  /-- The last group is not filled up by padding. -/
  | invalidPadding
  /-- The last symbol carries bits that no byte takes. -/
  | invalidLastSymbol (symbol : UInt8) (offset : Nat)
  deriving DecidableEq

/-- The wording of an error. -/
def Error.message : Error → String
  | .invalidSymbol symbol offset => s!"Invalid symbol {symbol.toNat}, offset {offset}."
  | .invalidLength length => s!"Invalid input length: {length}"
  | .invalidPadding => "Invalid padding"
  | .invalidLastSymbol symbol offset => s!"Invalid last symbol {symbol.toNat}, offset {offset}."

/-- The padding byte, an equals sign. -/
def padding : UInt8 := 61

/-- The symbol of a six-bit value: upper case, lower case, digits, plus and slash. -/
def symbol (value : Nat) : UInt8 :=
  if value < 26 then UInt8.ofNat (value + 65)
  else if value < 52 then UInt8.ofNat (value + 71)
  else if value < 62 then UInt8.ofNat (value - 4)
  else if value = 62 then 43
  else 47

/-- The six-bit value of a symbol of the alphabet. -/
def value? (byte : UInt8) : Option Nat :=
  if 65 ≤ byte ∧ byte ≤ 90 then some (byte.toNat - 65)
  else if 97 ≤ byte ∧ byte ≤ 122 then some (byte.toNat - 71)
  else if 48 ≤ byte ∧ byte ≤ 57 then some (byte.toNat + 4)
  else if byte = 43 then some 62
  else if byte = 47 then some 63
  else none

/-- Writes three bytes as four symbols and fills the last group up with padding. -/
def encode : Bytes → Bytes
  | a :: b :: c :: rest =>
    symbol (a.toNat / 4) :: symbol (a.toNat % 4 * 16 + b.toNat / 16) ::
      symbol (b.toNat % 16 * 4 + c.toNat / 64) :: symbol (c.toNat % 64) :: encode rest
  | [a, b] =>
    [symbol (a.toNat / 4), symbol (a.toNat % 4 * 16 + b.toNat / 16), symbol (b.toNat % 16 * 4),
      padding]
  | [a] => [symbol (a.toNat / 4), symbol (a.toNat % 4 * 16), padding, padding]
  | [] => []

/-- The value of the symbol that stands at an offset. -/
def valueAt (offset : Nat) (byte : UInt8) : Except Error Nat :=
  match value? byte with
  | some value => .ok value
  | none => .error (.invalidSymbol byte offset)

/-- The first byte that the first two values of a group spell. -/
def firstByte (first second : Nat) : UInt8 := UInt8.ofNat (first * 4 + second / 16)

/-- The second byte, spelt by the second and third value. -/
def secondByte (second third : Nat) : UInt8 := UInt8.ofNat (second % 16 * 16 + third / 4)

/-- The third byte, spelt by the third and fourth value. -/
def thirdByte (third fourth : Nat) : UInt8 := UInt8.ofNat (third % 4 * 64 + fourth)

/-- The values before the padding in the last group. Padding may not be among the first two bytes
of the group, and nothing else may follow it. -/
def lastValues (offset position : Nat) : Bytes → Except Error (List Nat)
  | [] => .ok []
  | byte :: rest =>
    if byte = padding then
      if position < 2 ∨ rest.any (· != padding) then
        .error (.invalidSymbol padding (offset + position))
      else .ok []
    else do
      let value ← valueAt (offset + position) byte
      let values ← lastValues offset (position + 1) rest
      return value :: values

/-- Reads the last group, of one to four bytes. -/
def decodeLast (offset : Nat) (group : Bytes) : Except Error Bytes := do
  let values ← lastValues offset 0 group
  if values.length < 2 then
    throw (.invalidLength (offset + values.length))
  if group.length ≠ 4 then
    throw .invalidPadding
  match values with
  | [a, b] =>
    if b % 16 = 0 then return [firstByte a b]
    else throw (.invalidLastSymbol (symbol b) (offset + 1))
  | [a, b, c] =>
    if c % 4 = 0 then return [firstByte a b, secondByte b c]
    else throw (.invalidLastSymbol (symbol c) (offset + 2))
  | [a, b, c, d] => return [firstByte a b, secondByte b c, thirdByte c d]
  | _ => throw .invalidPadding

/-- Reads groups of four symbols up to the last group, which alone may hold padding; `done` holds
the bytes read so far, latest first. -/
def decodeGroups (offset : Nat) (done : Bytes) : Bytes → Except Error Bytes
  | a :: b :: c :: d :: next :: rest => do
    let first ← valueAt offset a
    let second ← valueAt (offset + 1) b
    let third ← valueAt (offset + 2) c
    let fourth ← valueAt (offset + 3) d
    decodeGroups (offset + 4)
      (thirdByte third fourth :: secondByte second third :: firstByte first second :: done)
      (next :: rest)
  | group => do
    let last ← decodeLast offset group
    return done.reverse ++ last

/-- Reads a canonical text. A last byte that can belong to no group of any length is reported
before everything else. -/
def decode (text : Bytes) : Except Error Bytes :=
  match text.getLast? with
  | none => .ok []
  | some last =>
    if text.length % 4 = 1 ∧ last ≠ padding ∧ value? last = none then
      .error (.invalidSymbol last (text.length - 1))
    else decodeGroups 0 [] text

/-- Nothing is written for no bytes, and read as such. -/
@[simp] theorem decode_nil : decode [] = .ok [] := rfl

/-- A six-bit value is read back from its symbol. -/
theorem value?_symbol : ∀ value < 64, value? (symbol value) = some value := by
  decide

end FirmwareTransparency.Base64
