import FirmwareTransparency.Json.Number
import FirmwareTransparency.Json.Text

/-!
# Skipping values

A value that nobody asks for is only scanned: it must obey the grammar, but its numbers may have any
size, its strings any bytes above the control bytes, and its nesting any depth. The arrays and
objects that are open stand in a list, innermost first.
-/

set_option autoImplicit false

namespace FirmwareTransparency.Json

/-- What is open while a value is skipped. -/
inductive Frame where
  | array
  | object
  deriving DecidableEq

/-- The byte that closes what is open. -/
def Frame.close : Frame → UInt8
  | .array => closeBracket
  | .object => closeBrace

/-- What must come next while a value is skipped. -/
inductive Expected where
  | value
  | member
  /-- The first element or member of what was just opened, or its end. -/
  | first
  /-- A comma and another element or member, or the end of what is open. -/
  | more
  deriving DecidableEq

/-- What stands between the commas of what is open. -/
def Frame.content : Frame → Expected
  | .array => .value
  | .object => .member

/-- Skips a string, a number or one of the three words. -/
def skipScalar? : Bytes → Option Bytes
  | [] => none
  | byte :: rest =>
    if byte = quote then (pieces rest).map Prod.snd
    else if byte = 0x6e then skipWord? nullWord (byte :: rest)
    else if byte = 0x74 then skipWord? trueWord (byte :: rest)
    else if byte = 0x66 then skipWord? falseWord (byte :: rest)
    else (number? (byte :: rest)).map Prod.snd

/-- Skips a member's name and the colon after it. -/
def skipName? (bytes : Bytes) : Option Bytes :=
  match skipSpace bytes with
  | [] => none
  | byte :: rest =>
    if byte = quote then
      match pieces rest with
      | none => none
      | some (_, rest) =>
        match skipSpace rest with
        | [] => none
        | byte :: rest => if byte = colon then some rest else none
    else none

/-- Skips what is expected and then everything up to the end of what is open. Every second step
takes a byte or more, which bounds the number of steps. -/
def skipFrom : (steps : Nat) → Expected → List Frame → Bytes → Option Bytes
  | 0, _, _, _ => none
  | steps + 1, .value, frames, bytes =>
    match skipSpace bytes with
    | [] => none
    | byte :: rest =>
      if byte = openBracket then skipFrom steps .first (.array :: frames) rest
      else if byte = openBrace then skipFrom steps .first (.object :: frames) rest
      else
        match skipScalar? (byte :: rest) with
        | none => none
        | some rest => skipFrom steps .more frames rest
  | steps + 1, .member, frames, bytes =>
    match skipName? bytes with
    | none => none
    | some rest => skipFrom steps .value frames rest
  | _ + 1, .first, [], _ => none
  | steps + 1, .first, frame :: frames, bytes =>
    match skipSpace bytes with
    | [] => none
    | byte :: rest =>
      if byte = frame.close then skipFrom steps .more frames rest
      else skipFrom steps frame.content (frame :: frames) (byte :: rest)
  | _ + 1, .more, [], bytes => some bytes
  | steps + 1, .more, frame :: frames, bytes =>
    match skipSpace bytes with
    | [] => none
    | byte :: rest =>
      if byte = frame.close then skipFrom steps .more frames rest
      else if byte = comma then skipFrom steps frame.content (frame :: frames) rest
      else none

/-- Skips one value of any kind. -/
def skipValue? (bytes : Bytes) : Option Bytes :=
  skipFrom (2 * bytes.length + 2) .value [] bytes

end FirmwareTransparency.Json
