import FirmwareTransparency.Json.Byte
import FirmwareTransparency.Text

/-!
# JSON strings

A string's body is a list of pieces: bytes that stand for themselves or by a short escape, and
sixteen-bit units that are written in hexadecimal. Cutting a body into pieces checks the escapes;
it is all that a string has to pass whose text nobody asks for. A string whose text is kept must
also pair its surrogates and spell valid UTF-8.
-/

set_option autoImplicit false

namespace FirmwareTransparency.Json

/-- A piece of a string's body. -/
inductive Piece where
  /-- A byte, written as itself or by a short escape. -/
  | byte (value : UInt8)
  /-- A unit of UTF-16, written by four hexadecimal digits. -/
  | unit (value : Nat)
  deriving DecidableEq

/-- The byte that a short escape stands for. -/
def shortEscape? (kind : UInt8) : Option UInt8 :=
  if kind = quote then some quote
  else if kind = backslash then some backslash
  else if kind = 0x2f then some 0x2f
  else if kind = 0x62 then some 0x08
  else if kind = 0x66 then some 0x0c
  else if kind = 0x6e then some 0x0a
  else if kind = 0x72 then some 0x0d
  else if kind = 0x74 then some 0x09
  else none

/-- The unit that four hexadecimal digits spell. -/
def unitOf? (a b c d : UInt8) : Option Nat := do
  let a ← hexValue? a
  let b ← hexValue? b
  let c ← hexValue? c
  let d ← hexValue? d
  return ((a * 16 + b) * 16 + c) * 16 + d

/-- Cuts what follows an opening quote into pieces, up to the closing quote, and gives the pieces
and what follows. `done` holds the pieces so far, latest first. -/
def piecesFrom (done : List Piece) : Bytes → Option (List Piece × Bytes)
  | [] => none
  | byte :: rest =>
    if byte = quote then some (done.reverse, rest)
    else if byte = backslash then
      match rest with
      | [] => none
      | kind :: rest =>
        if kind = 0x75 then
          match rest with
          | a :: b :: c :: d :: rest =>
            match unitOf? a b c d with
            | some value => piecesFrom (.unit value :: done) rest
            | none => none
          | _ => none
        else
          match shortEscape? kind with
          | some value => piecesFrom (.byte value :: done) rest
          | none => none
    else if byte < 0x20 then none
    else piecesFrom (.byte byte :: done) rest

/-- The pieces of a string's body and what follows its closing quote. -/
def pieces (bytes : Bytes) : Option (List Piece × Bytes) := piecesFrom [] bytes

/-- A unit that opens a surrogate pair. -/
def isHighSurrogate (value : Nat) : Bool := 0xd800 ≤ value && value ≤ 0xdbff

/-- A unit that closes a surrogate pair. -/
def isLowSurrogate (value : Nat) : Bool := 0xdc00 ≤ value && value ≤ 0xdfff

/-- The code point of a surrogate pair. -/
def pairValue (high low : Nat) : Nat := (high - 0xd800) * 0x400 + (low - 0xdc00) + 0x10000

/-- The UTF-8 bytes of a code point. -/
def utf8Of (code : Nat) : Bytes := String.utf8EncodeChar (Char.ofNat code)

/-- The bytes that a list of pieces spells, if every surrogate is half of a pair. `done` holds the
bytes so far, latest first. -/
def spellFrom (done : Bytes) : List Piece → Option Bytes
  | [] => some done.reverse
  | .byte value :: rest => spellFrom (value :: done) rest
  | .unit value :: rest =>
    if isLowSurrogate value then none
    else if isHighSurrogate value then
      match rest with
      | .unit low :: rest =>
        if isLowSurrogate low then
          spellFrom ((utf8Of (pairValue value low)).reverse ++ done) rest
        else none
      | _ => none
    else spellFrom ((utf8Of value).reverse ++ done) rest

/-- The text that a list of pieces spells. -/
def textOf? (body : List Piece) : Option String := do
  let bytes ← spellFrom [] body
  Text.ofUtf8? bytes

/-- Reads a string whose text is kept, from behind its opening quote. -/
def text? (bytes : Bytes) : Option (String × Bytes) := do
  let (body, rest) ← pieces bytes
  let text ← textOf? body
  return (text, rest)

/-- How a byte of a text is written: quotes, backslashes and control bytes are escaped, the
shortest way where there are several. -/
def escape (byte : UInt8) : Bytes :=
  if byte = quote then [backslash, quote]
  else if byte = backslash then [backslash, backslash]
  else if byte = 0x08 then [backslash, 0x62]
  else if byte = 0x09 then [backslash, 0x74]
  else if byte = 0x0a then [backslash, 0x6e]
  else if byte = 0x0c then [backslash, 0x66]
  else if byte = 0x0d then [backslash, 0x72]
  else if byte < 0x20 then
    [backslash, 0x75, 0x30, 0x30] ++ Text.utf8 (Bytes.toHex [byte])
  else [byte]

/-- Writes a text as a string. -/
def writeText (text : String) : Bytes :=
  quote :: (Text.utf8 text).flatMap escape ++ [quote]

end FirmwareTransparency.Json
