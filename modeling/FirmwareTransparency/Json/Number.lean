import FirmwareTransparency.Json.Byte

/-!
# JSON numbers

A number is read for its form. Where its value would be looked at, it must also be within the range
of a double-precision float, judged the way such a value is computed: as many leading digits as fit
64 bits, times a power of ten, each rounded to 53 significant bits before they are multiplied.
-/

set_option autoImplicit false

namespace FirmwareTransparency.Json

/-- The exponent of a number as it is written. -/
structure Exponent where
  /-- Whether a minus sign stands before the digits. -/
  negative : Bool
  digits : Bytes
  deriving DecidableEq

/-- A number as it is written, without its sign. -/
structure Number where
  whole : Bytes
  /-- The digits after the point, none if there is no point. -/
  fraction : Bytes
  exponent : Option Exponent
  deriving DecidableEq

/-- The digits at the front and what follows them. -/
def digits (bytes : Bytes) : Bytes × Bytes := bytes.span isDigit

/-- The digits at the front, of which there must be one or more. -/
def someDigits? (bytes : Bytes) : Option (Bytes × Bytes) :=
  match digits bytes with
  | ([], _) => none
  | found => some found

/-- The digits before the point: a zero alone, or digits of which the first is none. -/
def whole? : Bytes → Option (Bytes × Bytes)
  | [] => none
  | first :: rest =>
    if first = 0x30 then
      match rest with
      | [] => some ([first], [])
      | next :: _ => if isDigit next then none else some ([first], rest)
    else if isDigit first then some (digits (first :: rest))
    else none

/-- A point and the digits after it, or nothing. -/
def fraction? : Bytes → Option (Bytes × Bytes)
  | 0x2e :: rest => someDigits? rest
  | bytes => some ([], bytes)

/-- An exponent, or nothing. -/
def exponent? : Bytes → Option (Option Exponent × Bytes)
  | [] => some (none, [])
  | mark :: rest =>
    if mark = 0x65 ∨ mark = 0x45 then
      let (negative, rest) := match rest with
        | 0x2d :: rest => (true, rest)
        | 0x2b :: rest => (false, rest)
        | rest => (false, rest)
      match someDigits? rest with
      | some (digits, rest) => some (some ⟨negative, digits⟩, rest)
      | none => none
    else some (none, mark :: rest)

/-- Reads a number and gives what follows it. -/
def number? (bytes : Bytes) : Option (Number × Bytes) := do
  let unsigned := match bytes with
    | 0x2d :: rest => rest
    | bytes => bytes
  let (whole, rest) ← whole? unsigned
  let (fraction, rest) ← fraction? rest
  let (exponent, rest) ← exponent? rest
  return (⟨whole, fraction, exponent⟩, rest)

/-- A number as a significand below 2^64 and a power of ten. -/
structure Scaled where
  significand : Nat
  exponent : Int
  deriving DecidableEq

/-- Takes in digits before the point. From the first that does not fit on, digits only raise the
exponent. -/
def Scaled.takeWhole (scaled : Scaled) : Bytes → Scaled
  | [] => scaled
  | digit :: rest =>
    let significand := scaled.significand * 10 + digitValue digit
    if significand < 1 <<< 64 then Scaled.takeWhole ⟨significand, scaled.exponent⟩ rest
    else ⟨scaled.significand, scaled.exponent + (rest.length + 1)⟩

/-- Takes in digits after the point. From the first that does not fit on, digits are dropped. -/
def Scaled.takeFraction (scaled : Scaled) : Bytes → Scaled
  | [] => scaled
  | digit :: rest =>
    let significand := scaled.significand * 10 + digitValue digit
    if significand < 1 <<< 64 then Scaled.takeFraction ⟨significand, scaled.exponent - 1⟩ rest
    else scaled

/-- The number that decimal digits spell. -/
def digitsValue (digits : Bytes) : Nat :=
  digits.foldl (fun value digit => value * 10 + digitValue digit) 0

/-- The value of an exponent. -/
def Exponent.value (exponent : Exponent) : Int :=
  if exponent.negative then -(digitsValue exponent.digits : Int) else digitsValue exponent.digits

/-- A number's significand and power of ten. -/
def Number.scaled (number : Number) : Scaled :=
  let scaled := ((Scaled.mk 0 0).takeWhole number.whole).takeFraction number.fraction
  ⟨scaled.significand, scaled.exponent + (number.exponent.map Exponent.value).getD 0⟩

/-- Rounds to 53 significant bits, a half to the even neighbour. -/
def roundTo53 (n : Nat) : Nat :=
  let excess := n.log2 + 1 - 53
  if excess = 0 then n
  else
    let quotient := n >>> excess
    let remainder := n % (1 <<< excess)
    let half := 1 <<< (excess - 1)
    let rounded :=
      if half < remainder ∨ (remainder = half ∧ quotient % 2 = 1) then quotient + 1 else quotient
    rounded <<< excess

/-- Whether a number is within the range of a double-precision float. -/
def Number.inRange (number : Number) : Bool :=
  let scaled := number.scaled
  if scaled.significand = 0 ∨ scaled.exponent < 0 then true
  else if 308 < scaled.exponent then false
  else
    let power := Nat.pow 10 scaled.exponent.toNat
    roundTo53 (roundTo53 scaled.significand * roundTo53 power) < 1 <<< 1024

end FirmwareTransparency.Json
