/-!
# Powers modulo a number

Square-and-multiply on natural numbers, and the inverses modulo a prime that it gives.
-/

set_option autoImplicit false

namespace FirmwareTransparency

/-- Multiplies an accumulator by a power, taking the exponent's binary digits from the lowest on;
there may be no more digits than steps. -/
def powModFrom (modulus : Nat) : (steps base exponent accumulator : Nat) → Nat
  | 0, _, _, accumulator => accumulator
  | steps + 1, base, exponent, accumulator =>
    powModFrom modulus steps (base * base % modulus) (exponent / 2)
      (if exponent % 2 = 1 then accumulator * base % modulus else accumulator)

/-- The remainder of a power. -/
def powMod (base exponent modulus : Nat) : Nat :=
  powModFrom modulus (exponent.log2 + 1) (base % modulus) exponent (1 % modulus)

/-- The inverse of a number modulo a prime, zero for multiples of the prime. -/
def inverseMod (n prime : Nat) : Nat := powMod n (prime - 2) prime

end FirmwareTransparency
