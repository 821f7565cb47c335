import Mathlib
import FirmwareTransparency.Bytes.Basic

/-!
# Big-endian numbers and powers

Main statements: `toNat_bigEndian` says that reading a number that was written gives it back as long
as it fits its width, and `toNat_lt` bounds the number of a byte string.
-/

set_option autoImplicit false

namespace FirmwareTransparency.Bytes

/-- Reading what was written gives the number back, reduced to what its width can hold. -/
theorem toNat_bigEndian (width value : Nat) :
    toNat (bigEndian width value) = value % 256 ^ width := by
  induction width generalizing value with
  | zero => simp [bigEndian, Nat.mod_one]
  | succ width ih =>
    rw [bigEndian, toNat_append_singleton, ih, Nat.pow_succ, Nat.mul_comm (256 ^ width) 256,
      Nat.mod_mul]
    simp only [UInt8.toNat_ofNat']
    omega

/-- A number that fits its width is read from in front of anything. -/
theorem toNat_take_bigEndian {width value : Nat} (h : value < 256 ^ width) (rest : Bytes) :
    toNat ((bigEndian width value ++ rest).take width) = value := by
  rw [List.take_left' (length_bigEndian _ _), toNat_bigEndian, Nat.mod_eq_of_lt h]

/-- And from behind another number. -/
theorem toNat_drop_bigEndian {width value : Nat} (other : Nat) (h : value < 256 ^ width) :
    toNat ((bigEndian width other ++ bigEndian width value).drop width) = value := by
  rw [List.drop_left' (length_bigEndian _ _), toNat_bigEndian, Nat.mod_eq_of_lt h]

/-- A byte string's number fits its length. -/
theorem toNat_lt (bytes : Bytes) : toNat bytes < 256 ^ bytes.length := by
  induction h : bytes.length generalizing bytes with
  | zero => simp [List.length_eq_zero_iff.1 h]
  | succ width ih =>
    obtain ⟨front, byte, rfl⟩ : ∃ front byte, bytes = front ++ [byte] :=
      ⟨bytes.dropLast, bytes.getLast (by intro hn; simp [hn] at h),
        (List.dropLast_concat_getLast _).symm⟩
    have hfront := ih front (by simpa using h)
    have hbyte := byte.toNat_lt
    rw [toNat_append_singleton, Nat.pow_succ]
    omega

/-- The first byte counts as many units as the bytes behind it can tell apart. -/
theorem toNat_cons (byte : UInt8) (bytes : Bytes) :
    toNat (byte :: bytes) = byte.toNat * 256 ^ bytes.length + toNat bytes := by
  induction bytes using List.reverseRecOn with
  | nil => simp [toNat]
  | append_singleton front last ih =>
    rw [← List.cons_append, toNat_append_singleton, toNat_append_singleton, ih,
      List.length_append, List.length_singleton, Nat.pow_succ]
    ring

/-- Without its leading bytes a number is not larger. -/
theorem toNat_drop_le (bytes : Bytes) (count : Nat) : toNat (bytes.drop count) ≤ toNat bytes := by
  induction bytes generalizing count with
  | nil => rw [List.drop_nil]
  | cons byte bytes ih =>
    cases count with
    | zero => exact Nat.le_refl _
    | succ count =>
      rw [List.drop_succ_cons, toNat_cons]
      exact Nat.le_add_left_of_le (ih count)

/-- Numbers that fit a width and are written the same in it are the same. -/
theorem bigEndian_inj {width value other : Nat} (hvalue : value < 256 ^ width)
    (hother : other < 256 ^ width) (h : bigEndian width value = bigEndian width other) :
    value = other := by
  have hread := congrArg toNat h
  rwa [toNat_bigEndian, toNat_bigEndian, Nat.mod_eq_of_lt hvalue, Nat.mod_eq_of_lt hother] at hread

end FirmwareTransparency.Bytes
