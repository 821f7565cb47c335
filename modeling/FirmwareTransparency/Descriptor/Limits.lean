import FirmwareTransparency.Descriptor.Error

/-!
# Limits

Upper bounds on the sizes in a descriptor, applied while it is read, before any field is taken in.
-/

set_option autoImplicit false

namespace FirmwareTransparency

/-- Upper bounds on the sizes in a descriptor. -/
structure Limits where
  maxEntries : Nat
  maxLogUrlSize : Nat
  maxLeafSize : Nat
  maxSignatureSize : Nat
  deriving DecidableEq

/-- The limits that apply unless others are asked for. -/
def Limits.standard : Limits := ⟨256, 2048, 65536, 1024⟩

/-- Refuses a field that is larger than allowed. -/
def checkSize (field : SizedField) (size max : Nat) : Except FormatError Unit :=
  if max < size then .error (.fieldTooLarge field size max) else .ok ()

/-- A size is accepted exactly up to the largest one, which is included. -/
theorem checkSize_eq_ok_iff {field : SizedField} {size max : Nat} :
    checkSize field size max = .ok () ↔ size ≤ max := by
  unfold checkSize
  split
  · next h =>
    constructor
    · intro heq
      cases heq
    · intro hle
      omega
  · next h =>
    constructor
    · intro _
      omega
    · intro _
      rfl

end FirmwareTransparency
