/-!
# Byte strings

A byte string is a list of bytes. This module holds the big-endian numbers that every field of
the format is written in, byte strings of one fixed length, and lower-case hexadecimal.
Main statement: `bigEndian_toNat` says that writing a number that was read gives the same bytes
back.
-/

set_option autoImplicit false

namespace FirmwareTransparency

/-- A byte string. -/
abbrev Bytes := List UInt8

namespace Bytes

/-- The number whose big-endian digits to the base 256 are the given bytes. -/
def toNat (bytes : Bytes) : Nat :=
  bytes.foldl (fun value byte => value * 256 + byte.toNat) 0

/-- The last `width` big-endian digits of a number to the base 256. -/
def bigEndian : (width : Nat) → (value : Nat) → Bytes
  | 0, _ => []
  | width + 1, value => bigEndian width (value / 256) ++ [UInt8.ofNat value]

/-- Two big-endian bytes. -/
def ofUInt16 (value : UInt16) : Bytes := bigEndian 2 value.toNat

/-- Four big-endian bytes. -/
def ofUInt32 (value : UInt32) : Bytes := bigEndian 4 value.toNat

/-- Eight big-endian bytes. -/
def ofUInt64 (value : UInt64) : Bytes := bigEndian 8 value.toNat

/-- The lower-case hexadecimal digit of a number below sixteen. -/
def hexDigit (value : Nat) : Char :=
  if value < 10 then Char.ofNat (48 + value) else Char.ofNat (87 + value)

/-- Two lower-case hexadecimal digits for every byte. -/
def toHex (bytes : Bytes) : String :=
  String.ofList (bytes.flatMap fun byte =>
    [hexDigit (byte.toNat / 16), hexDigit (byte.toNat % 16)])

/-- No bytes are the number zero. -/
@[simp] theorem toNat_nil : toNat [] = 0 := rfl

/-- A byte at the end is the lowest digit. -/
@[simp] theorem toNat_append_singleton (bytes : Bytes) (byte : UInt8) :
    toNat (bytes ++ [byte]) = toNat bytes * 256 + byte.toNat := by
  simp [toNat]

/-- A number is written in as many bytes as it is given. -/
@[simp] theorem length_bigEndian (width value : Nat) : (bigEndian width value).length = width := by
  induction width generalizing value with
  | zero => rfl
  | succ width ih => simp [bigEndian, ih]

/-- Writing what was read gives the same bytes back. -/
theorem bigEndian_toNat (bytes : Bytes) : bigEndian bytes.length (toNat bytes) = bytes := by
  induction h : bytes.length generalizing bytes with
  | zero => simp [bigEndian, List.length_eq_zero_iff.1 h]
  | succ width ih =>
    obtain ⟨front, byte, rfl⟩ : ∃ front byte, bytes = front ++ [byte] :=
      ⟨bytes.dropLast, bytes.getLast (by intro hn; simp [hn] at h),
        (List.dropLast_concat_getLast _).symm⟩
    have hbyte := byte.toNat_lt
    have hdiv : (toNat front * 256 + byte.toNat) / 256 = toNat front := by omega
    rw [toNat_append_singleton, bigEndian, hdiv, ih front (by simpa using h)]
    congr 1
    simp only [List.cons.injEq, and_true]
    apply UInt8.toNat_inj.1
    simp only [UInt8.toNat_ofNat']
    omega

end Bytes

/-- A byte string of exactly `length` bytes. -/
structure FixedBytes (length : Nat) where
  toBytes : Bytes
  length_eq : toBytes.length = length
  deriving DecidableEq

namespace FixedBytes

/-- A byte string as one of the given length, if it has that length. -/
def ofBytes? (length : Nat) (bytes : Bytes) : Option (FixedBytes length) :=
  if h : bytes.length = length then some ⟨bytes, h⟩ else none

/-- Fixed-length byte strings are equal as soon as their bytes are. -/
@[ext] theorem ext {length : Nat} {a b : FixedBytes length} (h : a.toBytes = b.toBytes) :
    a = b := by
  cases a; cases b; cases h; rfl

/-- Bytes are a byte string of fixed length exactly if they are its bytes. -/
theorem ofBytes?_eq_some_iff {length : Nat} {bytes : Bytes} {fixed : FixedBytes length} :
    ofBytes? length bytes = some fixed ↔ fixed.toBytes = bytes := by
  constructor
  · intro h
    unfold ofBytes? at h
    split at h
    · cases h; rfl
    · cases h
  · rintro rfl
    simp [ofBytes?, fixed.length_eq]

end FixedBytes

end FirmwareTransparency
