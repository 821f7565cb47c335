import FirmwareTransparency.Hash.Sha512
import FirmwareTransparency.Key.Modular
import FirmwareTransparency.Key.Pem

/-!
# Ed25519

Signatures on the twisted Edwards curve over the field of 2^255 - 19. A signature is accepted if it
satisfies the group equation up to a point of small order; points must be canonical encodings and of
large order, scalars must be reduced.
-/

set_option autoImplicit false

namespace FirmwareTransparency.Ed25519

/-- The prime of the field, 19 below the power of two with the exponent 255. -/
def fieldPrime : Nat :=
  0x7fffffffffffffffffffffffffffffffffffffffffffffffffffffffffffffed

/-- The order of the group that the base point generates. -/
def groupOrder : Nat :=
  0x1000000000000000000000000000000014def9dea2f79cd65812631a5cf5d3ed

/-- The constant of the curve equation. -/
def curveConstant : Nat :=
  37095705934669439343138083508754565189542113879843219016388785533085940283555

/-- A square root of minus one in the field. -/
def rootOfMinusOne : Nat :=
  19681161376707505956807079304988542015446066515923890162744021073123829784752

/-- A point in extended coordinates: the affine coordinates are `x / z` and `y / z`, and `t` is
`x * y / z`. -/
structure Point where
  x : Nat
  y : Nat
  z : Nat
  /-- The product of both coordinates over the denominator. -/
  t : Nat
  deriving DecidableEq

namespace Point

/-- A sum in the field. -/
def plus (a b : Nat) : Nat := (a + b) % fieldPrime

/-- A difference in the field. -/
def minus (a b : Nat) : Nat := (a + (fieldPrime - b % fieldPrime)) % fieldPrime

/-- A product in the field. -/
def times (a b : Nat) : Nat := a * b % fieldPrime

/-- The neutral element. -/
def zero : Point := ⟨0, 1, 1, 0⟩

/-- The point with the given affine coordinates. -/
def affine (x y : Nat) : Point := ⟨x, y, 1, times x y⟩

/-- The point that generates the group. -/
def base : Point :=
  affine 15112221349535400772501151409588531511454012693041857206046113283949847762202
    46316835694926478169428394003475163141307993866256225615783033603165251855960

/-- The sum of two points; one formula serves all of them. -/
def add (p q : Point) : Point :=
  let a := times (minus p.y p.x) (minus q.y q.x)
  let b := times (plus p.y p.x) (plus q.y q.x)
  let c := times (times (times p.t 2) curveConstant) q.t
  let d := times (times p.z 2) q.z
  let e := minus b a
  let f := minus d c
  let g := plus d c
  let h := plus b a
  ⟨times e f, times g h, times f g, times e h⟩

/-- The inverse of a point. -/
def neg (p : Point) : Point := ⟨minus 0 p.x, p.y, p.z, minus 0 p.t⟩

/-- Adds a multiple of a point, taking the factor's binary digits from the lowest on. -/
def multipleFrom : (steps factor : Nat) → (point sum : Point) → Point
  | 0, _, _, sum => sum
  | steps + 1, factor, point, sum =>
    multipleFrom steps (factor / 2) (add point point)
      (if factor % 2 = 1 then add sum point else sum)

/-- A multiple of a point. -/
def multiple (factor : Nat) (point : Point) : Point :=
  multipleFrom (factor.log2 + 1) factor point zero

/-- Whether a point is the neutral element. -/
def isZero (p : Point) : Bool := p.x % fieldPrime == 0 && minus p.y p.z == 0

/-- Whether eight times a point is the neutral element. -/
def hasSmallOrder (p : Point) : Bool := (multiple 8 p).isZero

/-- The square root of a quotient in the field, if there is one. -/
def rootOfQuotient? (u v : Nat) : Option Nat :=
  let v3 := times (times v v) v
  let v7 := times (times v3 v3) v
  let root := times (times u v3) (powMod (times u v7) ((fieldPrime - 5) / 8) fieldPrime)
  let check := times v (times root root)
  if check = u % fieldPrime then some root
  else if check = minus 0 u then some (times root rootOfMinusOne)
  else none

/-- The point that 32 bytes encode: `y` in little-endian order with the parity of `x` in the highest
bit. There must be such a point, and neither coordinate may be written in a second way. -/
def decode? (bytes : Bytes) : Option Point :=
  let n := Bytes.toNat bytes.reverse
  let y := n % (1 <<< 255)
  let isOdd := n >>> 255
  if fieldPrime ≤ y then none
  else
    let square := times y y
    match rootOfQuotient? (minus square 1) (plus (times curveConstant square) 1) with
    | none => none
    | some root =>
      if root = 0 ∧ isOdd = 1 then none
      else some (affine (if root % 2 = isOdd then root else minus 0 root) y)

end Point

/-- A public key, by its encoding; whether it encodes a point shows only when it is used. -/
abbrev PublicKey := FixedBytes 32

/-- What stands in front of the 32 bytes in a subject public key info. -/
def infoHeader : Bytes :=
  [0x30, 0x2a, 0x30, 0x05, 0x06, 0x03, 0x2b, 0x65, 0x70, 0x03, 0x21, 0x00]

/-- Reads a subject public key info. -/
def ofInfo? (bytes : Bytes) : Option PublicKey := do
  let key ← Bytes.dropFront? infoHeader bytes
  FixedBytes.ofBytes? 32 key

/-- Reads a key: 32 bytes as they are, anything else as a subject public key info. -/
def ofBytes? (bytes : Bytes) : Option PublicKey :=
  if h : bytes.length = 32 then some ⟨bytes, h⟩ else ofInfo? bytes

/-- Reads a key in text form. -/
def ofPem? (text : Bytes) : Option PublicKey := do
  let bytes ← Pem.lenient? (Text.utf8 "PUBLIC KEY") text
  ofInfo? bytes

/-- The scalar that a signature's first half, the key and the message are hashed to. -/
def challenge (commitment key message : Bytes) : Nat :=
  Bytes.toNat (sha512 (commitment ++ key ++ message)).toBytes.reverse % groupOrder

/-- Whether a signature over a message is valid under a key. -/
def verify (key : PublicKey) (message signature : Bytes) : Bool :=
  let commitment := signature.take 32
  let scalar := Bytes.toNat (signature.drop 32).reverse
  if signature.length ≠ 64 ∨ groupOrder ≤ scalar then false
  else
    match Point.decode? key.toBytes, Point.decode? commitment with
    | some keyPoint, some commitmentPoint =>
      if keyPoint.hasSmallOrder || commitmentPoint.hasSmallOrder then false
      else
        let factor := challenge commitment key.toBytes message
        let difference := (Point.multiple scalar .base).add
          ((Point.multiple factor keyPoint).neg.add commitmentPoint.neg)
        difference.hasSmallOrder
    | _, _ => false

end FirmwareTransparency.Ed25519
