import Mathlib
import FirmwareTransparency.Key.Modular.Lemmas
import FirmwareTransparency.Key.PublicKey

/-!
# The least modulus of an RSA key

Every way to read an RSA key ends in one check of its size, and that check counts whole bytes: a
modulus that begins a new byte with a single bit counts as eight bits longer than it is. So the
least modulus that passes for 2048 bits has 2041. A signature takes the same count of bytes, and its
power modulo the modulus is compared (`Rsa.verify_iff`). Main statement: `rsa_accepted_iff` says
which keys are accepted from bytes and from text.
-/

set_option autoImplicit false

namespace FirmwareTransparency

namespace Rsa

/-- A number takes more bytes than can hold all smaller ones. -/
theorem lt_byteSize_iff {count n : Nat} : count < byteSize n ↔ 2 ^ (8 * count) ≤ n := by
  unfold byteSize
  by_cases hzero : n = 0
  · have hpos := Nat.two_pow_pos (8 * count)
    rw [if_pos hzero]
    omega
  · have hlog : 8 * count ≤ n.log2 ↔ 2 ^ (8 * count) ≤ n := Nat.le_log2 hzero
    rw [if_neg hzero, ← hlog]
    omega

/-- A key counts as too small exactly if its modulus takes 255 bytes or fewer. -/
theorem bits_lt_minBits_iff {key : PublicKey} :
    key.bits < minBits ↔ key.modulus < 2 ^ (8 * 255) := by
  have hbytes : key.bits < minBits ↔ ¬255 < key.size := by
    unfold PublicKey.bits minBits
    omega
  have hsize : 255 < key.size ↔ 2 ^ (8 * 255) ≤ key.modulus := lt_byteSize_iff
  rw [hbytes, hsize, Nat.not_le]

/-- A key passes the check of its size exactly if its modulus takes more than 255 bytes. -/
theorem checkSize_eq_ok_iff {found : Option PublicKey} {key : PublicKey} :
    checkSize found = .ok key ↔ found = some key ∧ 2 ^ (8 * 255) ≤ key.modulus := by
  cases found with
  | none => simp only [checkSize, reduceCtorEq, false_and]
  | some found =>
    rw [checkSize, Option.some_inj]
    constructor
    · intro h
      split at h
      · cases h
      · next hsize =>
        cases h
        exact ⟨rfl, Nat.le_of_not_lt fun hlt => hsize (bits_lt_minBits_iff.2 hlt)⟩
    · rintro ⟨rfl, hmodulus⟩
      rw [if_neg fun hsize => Nat.not_lt.2 hmodulus (bits_lt_minBits_iff.1 hsize)]

/-- A signature is valid exactly if it is a number below the modulus, written in as many bytes as
that is, of which the power is the padded digest of the message. -/
theorem verify_iff {key : PublicKey} {message signature : Bytes} :
    verify key message signature = true ↔
      signature.length = key.size ∧ Bytes.toNat signature < key.modulus ∧
        Bytes.toNat signature ^ key.exponent % key.modulus =
          Bytes.toNat (padded key.size (sha256 message)) := by
  simp only [verify, powMod_eq, Bool.and_eq_true, beq_iff_eq, decide_eq_true_eq, and_assoc]

end Rsa

namespace PublicKey

/-- A public key that is made of an RSA key is that key. -/
theorem map_rsa_eq_ok_iff {found : Except KeyError Rsa.PublicKey} {key : PublicKey} :
    found.map rsa = .ok key ↔ ∃ inner, key = .rsa inner ∧ found = .ok inner := by
  cases found with
  | error cause => simp [Except.map]
  | ok inner => simp [Except.map, eq_comm]

/-- An RSA key is accepted, from bytes as from text, exactly if it can be read and its modulus is
at least the least number of 256 bytes, one that has 2041 bits. -/
theorem rsa_accepted_iff (key : PublicKey) :
    (∀ bytes, ofBytes .rsaPkcs1 bytes = .ok key ↔
      ∃ inner, key = .rsa inner ∧ Rsa.ofBytes? bytes = some inner ∧
        2 ^ (8 * 255) ≤ inner.modulus) ∧
    (∀ text, ofPem .rsaPkcs1 text = .ok key ↔
      ∃ inner, key = .rsa inner ∧ Rsa.ofPem? (Text.utf8 text) = some inner ∧
        2 ^ (8 * 255) ≤ inner.modulus) := by
  constructor
  · intro bytes
    unfold ofBytes
    simp only [map_rsa_eq_ok_iff, Rsa.checkSize_eq_ok_iff]
  · intro text
    unfold ofPem
    simp only [map_rsa_eq_ok_iff, Rsa.checkSize_eq_ok_iff]

/-- The bare pair of the least modulus that is accepted, one above the power of two with the
exponent 2040, and the exponent three. -/
def narrowPair : Bytes :=
  [0x30, 0x82, 0x01, 0x07, 0x02, 0x82, 0x01, 0x00, 0x01] ++ List.replicate 254 0x00 ++
    [0x01, 0x02, 0x01, 0x03]

/-- An accepted modulus can be shorter than 2048 bits. -/
theorem not_forall_rsa_modulus_ge :
    ¬∀ bytes inner, ofBytes .rsaPkcs1 bytes = .ok (.rsa inner) → 2 ^ 2047 ≤ inner.modulus := by
  intro h
  have hread : ofBytes .rsaPkcs1 narrowPair = .ok (.rsa ⟨1 <<< 2040 + 1, 3⟩) := by
    decide +kernel
  have hsmall : 1 <<< 2040 + 1 < 2 ^ 2047 := by
    decide +kernel
  exact Nat.not_le.2 hsmall (h narrowPair _ hread)

end PublicKey

end FirmwareTransparency
