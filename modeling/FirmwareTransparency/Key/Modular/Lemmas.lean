import Mathlib
import FirmwareTransparency.Key.Modular

/-!
# What square-and-multiply computes

The accumulator is a remainder at every step, so the result is one. Main statement: `powMod_eq` says
that it is the remainder of the power.
-/

set_option autoImplicit false

namespace FirmwareTransparency

/-- The accumulator is multiplied by the power and reduced, as long as it was reduced before and the
steps cover the exponent's digits. -/
theorem powModFrom_eq (modulus steps base exponent accumulator : Nat)
    (hreduced : accumulator % modulus = accumulator) (h : exponent < 2 ^ steps) :
    powModFrom modulus steps base exponent accumulator =
      accumulator * base ^ exponent % modulus := by
  induction steps generalizing base exponent accumulator with
  | zero =>
    obtain rfl : exponent = 0 := by simpa using h
    rw [powModFrom, Nat.pow_zero, Nat.mul_one, hreduced]
  | succ steps ih =>
    have hhalf : exponent / 2 < 2 ^ steps := by
      rw [Nat.pow_succ] at h
      omega
    -- the square to half the exponent is the power without its lowest digit
    have hsquare : (base * base % modulus) ^ (exponent / 2) % modulus =
        base ^ (2 * (exponent / 2)) % modulus := by
      rw [← Nat.pow_mod, ← Nat.pow_two, ← Nat.pow_mul]
    rw [powModFrom]
    split
    · next hodd =>
      have hexponent : Nat.succ (2 * (exponent / 2)) = exponent := by omega
      rw [ih _ _ _ (Nat.mod_mod _ _) hhalf, Nat.mul_mod, Nat.mod_mod, hsquare, ← Nat.mul_mod,
        Nat.mul_assoc, ← Nat.pow_succ', hexponent]
    · next heven =>
      have hexponent : 2 * (exponent / 2) = exponent := by omega
      rw [ih _ _ _ hreduced hhalf, Nat.mul_mod, hsquare, ← Nat.mul_mod, hexponent]

/-- Square-and-multiply computes the remainder of the power. -/
theorem powMod_eq (base exponent modulus : Nat) :
    powMod base exponent modulus = base ^ exponent % modulus := by
  rw [powMod, powModFrom_eq _ _ _ _ _ (Nat.mod_mod _ _) Nat.lt_log2_self, Nat.mul_mod, Nat.mod_mod,
    ← Nat.mul_mod, Nat.one_mul, ← Nat.pow_mod]

/-- A number that a prime does not divide times its inverse is one. -/
theorem mul_inverseMod {n prime : Nat} (hprime : prime.Prime) (h : ¬prime ∣ n) :
    n * inverseMod n prime % prime = 1 := by
  have hcoprime : n.Coprime prime := (hprime.coprime_iff_not_dvd.2 h).symm
  have htwo := hprime.two_le
  have hfermat : n ^ (prime - 1) % prime = 1 % prime := by
    have htotient := Nat.ModEq.pow_totient hcoprime
    rwa [Nat.totient_prime hprime] at htotient
  have hexponent : Nat.succ (prime - 2) = prime - 1 := by omega
  rw [inverseMod, powMod_eq, Nat.mul_mod, Nat.mod_mod, ← Nat.mul_mod, ← Nat.pow_succ', hexponent,
    hfermat, Nat.mod_eq_of_lt (by omega)]

end FirmwareTransparency
