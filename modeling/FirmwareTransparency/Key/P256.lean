import FirmwareTransparency.Hash.Sha256
import FirmwareTransparency.Key.Der
import FirmwareTransparency.Key.Modular
import FirmwareTransparency.Key.Pem

/-!
# ECDSA on the curve P-256

Keys are affine points, given in one of the short encodings or in a subject public key info.
Signatures are pairs of scalars, given in distinguished encoding or, if they are not, as two numbers
of 32 bytes each; messages are hashed with SHA-256.
-/

set_option autoImplicit false

namespace FirmwareTransparency.P256

/-- The prime of the field. -/
def fieldPrime : Nat :=
  115792089210356248762697446949407573530086143415290314195533631308867097853951

/-- The order of the group. -/
def groupOrder : Nat :=
  115792089210356248762697446949407573529996955224135760342422259061068512044369

/-- The constant of the curve equation. -/
def curveConstant : Nat :=
  41058363725152142129326129780047268409114441015993725554835256314039467401291

/-- The right-hand side of the curve equation. -/
def rightSide (x : Nat) : Nat :=
  (x * x % fieldPrime * x + (fieldPrime - 3) * x + curveConstant) % fieldPrime

/-- Whether coordinates are reduced and satisfy the curve equation. -/
def isOnCurve (x y : Nat) : Bool :=
  x < fieldPrime && y < fieldPrime && y * y % fieldPrime == rightSide x

/-- An affine point of the curve. -/
structure PublicKey where
  x : Nat
  y : Nat
  onCurve : isOnCurve x y = true
  deriving DecidableEq

/-- The point with the given coordinates, if there is one. -/
def ofCoordinates? (x y : Nat) : Option PublicKey :=
  if h : isOnCurve x y = true then some ⟨x, y, h⟩ else none

/-- A point in Jacobian coordinates: the affine coordinates are `x / z ^ 2` and `y / z ^ 3`, and a
zero `z` is the neutral element. -/
structure Point where
  x : Nat
  y : Nat
  z : Nat
  deriving DecidableEq

namespace Point

/-- A difference in the field. -/
def minus (a b : Nat) : Nat := (a + (fieldPrime - b % fieldPrime)) % fieldPrime

/-- A product in the field. -/
def times (a b : Nat) : Nat := a * b % fieldPrime

/-- The neutral element. -/
def zero : Point := ⟨1, 1, 0⟩

/-- The point that generates the group. -/
def base : Point :=
  ⟨48439561293906451759052585252797914202762949526041747995844080717082404635286,
    36134250956749795798585127919587881956611106672985015071877198253568414405109, 1⟩

/-- Twice a point. -/
def double (p : Point) : Point :=
  if p.z = 0 ∨ p.y = 0 then zero
  else
    let yy := times p.y p.y
    let s := times 4 (times p.x yy)
    let zz := times p.z p.z
    let m := times 3 (times (minus p.x zz) ((p.x + zz) % fieldPrime))
    let x := minus (times m m) (times 2 s)
    let y := minus (times m (minus s x)) (times 8 (times yy yy))
    ⟨x, y, times 2 (times p.y p.z)⟩

/-- The sum of two points. -/
def add (p q : Point) : Point :=
  if p.z = 0 then q
  else if q.z = 0 then p
  else
    let pzz := times p.z p.z
    let qzz := times q.z q.z
    let u := times p.x qzz
    let s := times p.y (times q.z qzz)
    let h := minus (times q.x pzz) u
    let r := minus (times q.y (times p.z pzz)) s
    if h = 0 then
      if r = 0 then double p else zero
    else
      let hh := times h h
      let hhh := times h hh
      let v := times u hh
      let x := minus (minus (times r r) hhh) (times 2 v)
      let y := minus (times r (minus v x)) (times s hhh)
      ⟨x, y, times h (times p.z q.z)⟩

/-- Adds a multiple of a point, taking the factor's binary digits from the lowest on. -/
def multipleFrom : (steps factor : Nat) → (point sum : Point) → Point
  | 0, _, _, sum => sum
  | steps + 1, factor, point, sum =>
    multipleFrom steps (factor / 2) (double point)
      (if factor % 2 = 1 then add sum point else sum)

/-- A multiple of a point. -/
def multiple (factor : Nat) (point : Point) : Point :=
  multipleFrom (factor.log2 + 1) factor point zero

/-- The first affine coordinate, zero for the neutral element. -/
def affineX (p : Point) : Nat :=
  let inverse := inverseMod p.z fieldPrime
  times p.x (times inverse inverse)

end Point

/-- The two square roots that a first coordinate leaves for the second, the smaller first. -/
def secondCoordinates? (x : Nat) : Option (Nat × Nat) :=
  let square := rightSide x
  let root := powMod square ((fieldPrime + 1) / 4) fieldPrime
  if root * root % fieldPrime = square then
    let other := (fieldPrime - root) % fieldPrime
    some (min root other, max root other)
  else none

/-- Reads a point in a short encoding: both coordinates, or the first and the parity of the second,
or the first alone, the second being the smaller of the two that fit. -/
def ofShort? : Bytes → Option PublicKey
  | [] => none
  | form :: rest =>
    if form = 0x04 then
      if rest.length = 64 then
        ofCoordinates? (Bytes.toNat (rest.take 32)) (Bytes.toNat (rest.drop 32))
      else none
    else if form = 0x02 ∨ form = 0x03 ∨ form = 0x05 then
      if rest.length = 32 then
        let x := Bytes.toNat rest
        match secondCoordinates? x with
        | none => none
        | some (smaller, larger) =>
          if form = 0x05 then ofCoordinates? x smaller
          else if smaller % 2 = form.toNat % 2 then ofCoordinates? x smaller
          else ofCoordinates? x larger
      else none
    else none

/-- The first coordinate and the parity of the second. -/
def PublicKey.compressed (key : PublicKey) : Bytes :=
  UInt8.ofNat (2 + key.y % 2) :: Bytes.bigEndian 32 key.x

/-- The content of the algorithm in a subject public key info: elliptic curve key, curve P-256. -/
def infoAlgorithm : Bytes :=
  [0x06, 0x07, 0x2a, 0x86, 0x48, 0xce, 0x3d, 0x02, 0x01, 0x06, 0x08, 0x2a, 0x86, 0x48, 0xce, 0x3d,
    0x03, 0x01, 0x07]

/-- Reads a subject public key info. -/
def ofInfo? (bytes : Bytes) : Option PublicKey := do
  let point ← Der.publicKeyInfo? infoAlgorithm bytes
  ofShort? point

/-- Reads a key: a short encoding, or else a subject public key info. -/
def ofBytes? (bytes : Bytes) : Option PublicKey :=
  match ofShort? bytes with
  | some key => some key
  | none => ofInfo? bytes

/-- Reads a key in text form. -/
def ofPem? (text : Bytes) : Option PublicKey := do
  let bytes ← Pem.strict? (Text.utf8 "PUBLIC KEY") text
  ofInfo? bytes

/-- A signature as a pair of scalars. -/
structure Signature where
  r : Nat
  s : Nat
  deriving DecidableEq

/-- Whether both scalars are positive and below the group order. -/
def Signature.inRange (signature : Signature) : Bool :=
  0 < signature.r && signature.r < groupOrder && 0 < signature.s && signature.s < groupOrder

/-- The signature of two numbers, if both are in range. -/
def Signature.ofNumbers? (r s : Nat) : Option Signature :=
  let signature : Signature := ⟨r, s⟩
  if signature.inRange then some signature else none

/-- Reads a signature in distinguished encoding. -/
def Signature.ofDer? (bytes : Bytes) : Option Signature := do
  let (r, s) ← Der.integerPair? bytes
  Signature.ofNumbers? r s

/-- Reads a signature of two numbers of 32 bytes. -/
def Signature.ofPair? (bytes : Bytes) : Option Signature :=
  if bytes.length = 64 then
    Signature.ofNumbers? (Bytes.toNat (bytes.take 32)) (Bytes.toNat (bytes.drop 32))
  else none

/-- Reads a signature: in distinguished encoding, or else as two numbers of 32 bytes. -/
def Signature.ofBytes? (bytes : Bytes) : Option Signature :=
  match Signature.ofDer? bytes with
  | some signature => some signature
  | none => Signature.ofPair? bytes

/-- Whether a pair of scalars signs a digest under a key. -/
def verifyDigest (key : PublicKey) (digest : Digest) (signature : Signature) : Bool :=
  let z := Bytes.toNat digest.toBytes % groupOrder
  let inverse := inverseMod signature.s groupOrder
  let point := (Point.multiple (z * inverse % groupOrder) .base).add
    (Point.multiple (signature.r * inverse % groupOrder) ⟨key.x, key.y, 1⟩)
  if point.z = 0 then false else point.affineX % groupOrder == signature.r

/-- Whether a signature over a message is valid under a key. -/
def verify (key : PublicKey) (message signature : Bytes) : Bool :=
  match Signature.ofBytes? signature with
  | some signature => verifyDigest key (sha256 message) signature
  | none => false

end FirmwareTransparency.P256
