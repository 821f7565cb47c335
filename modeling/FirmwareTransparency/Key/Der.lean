import FirmwareTransparency.Bytes.Search

/-!
# Distinguished encoding

Values are a tag, a length and a content. Every length has one encoding, the shortest, and so has
every non-negative integer, so a value read here can have been written in no other way.
-/

set_option autoImplicit false

namespace FirmwareTransparency.Der

/-- The tag of an integer. -/
def integerTag : UInt8 := 0x02

/-- The tag of a string of bits. -/
def bitStringTag : UInt8 := 0x03

/-- The tag of a sequence. -/
def sequenceTag : UInt8 := 0x30

/-- Reads a length: one byte below 128, or a count of up to four bytes and the length in the fewest
bytes. -/
def length? : Bytes → Option (Nat × Bytes)
  | [] => none
  | first :: rest =>
    if first < 0x80 then some (first.toNat, rest)
    else
      let count := first.toNat - 0x80
      let length := Bytes.toNat (rest.take count)
      if 1 ≤ count ∧ count ≤ 4 ∧ count ≤ rest.length ∧ 0x80 ≤ length ∧
          1 <<< (8 * (count - 1)) ≤ length then
        some (length, rest.drop count)
      else none

/-- Reads a value with the given tag and gives its content and what follows it. -/
def value? (tag : UInt8) : Bytes → Option (Bytes × Bytes)
  | [] => none
  | first :: rest =>
    if first = tag then
      match length? rest with
      | some (length, rest) =>
        if length ≤ rest.length then some (rest.take length, rest.drop length) else none
      | none => none
    else none

/-- Reads a value with the given tag that fills the bytes. -/
def whole? (tag : UInt8) (bytes : Bytes) : Option Bytes :=
  match value? tag bytes with
  | some (content, []) => some content
  | _ => none

/-- The non-negative number that the content of an integer spells. A leading zero byte stands only
where the next byte would otherwise make the number negative. -/
def natural? : Bytes → Option Nat
  | [] => none
  | first :: rest =>
    if 0x80 ≤ first then none
    else
      match rest with
      | [] => some first.toNat
      | next :: _ =>
        if first = 0 ∧ next < 0x80 then none else some (Bytes.toNat (first :: rest))

/-- Reads a non-negative integer. -/
def integer? (bytes : Bytes) : Option (Nat × Bytes) :=
  match value? integerTag bytes with
  | some (content, rest) => (natural? content).map fun n => (n, rest)
  | none => none

/-- Reads a sequence of two non-negative integers that fills the bytes. -/
def integerPair? (bytes : Bytes) : Option (Nat × Nat) := do
  let content ← whole? sequenceTag bytes
  let (first, rest) ← integer? content
  let (second, rest) ← integer? rest
  if rest.isEmpty then return (first, second) else none

/-- Reads a subject public key info that fills the bytes: a sequence of an algorithm, whose content
must be as given, and a string of whole bytes, which is the key. -/
def publicKeyInfo? (algorithm bytes : Bytes) : Option Bytes := do
  let content ← whole? sequenceTag bytes
  let (found, rest) ← value? sequenceTag content
  let bits ← whole? bitStringTag rest
  match bits with
  | [] => none
  | unused :: key => if found = algorithm ∧ unused = 0 then return key else none

end FirmwareTransparency.Der
