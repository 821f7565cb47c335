import FirmwareTransparency.Descriptor.Limits

/-!
# Policies

A policy says which entries have to pass, whether checking goes on after the verdict is clear, what
a missing descriptor means and which limits apply. The standard policy is the strictest.
-/

set_option autoImplicit false

namespace FirmwareTransparency

/-- Which entries have to pass. -/
inductive EntryRule where
  /-- All of them. -/
  | all
  /-- One of them at least. -/
  | any
  deriving DecidableEq

/-- Whether checking goes on once the verdict is clear. -/
inductive FailureMode where
  /-- It ends with the first decisive entry. -/
  | shortCircuit
  /-- Every entry is checked. -/
  | accumulate
  deriving DecidableEq

/-- What a missing descriptor means. -/
inductive MissingRule where
  /-- The image is refused. -/
  | mandatory
  /-- The image is accepted. -/
  | optional
  deriving DecidableEq

/-- How a rule on entries is shown. -/
def EntryRule.description : EntryRule → String
  | .all => "all entries"
  | .any => "any entry"

/-- How a failure mode is shown. -/
def FailureMode.description : FailureMode → String
  | .shortCircuit => "short-circuit"
  | .accumulate => "accumulate"

/-- How a rule on missing descriptors is shown. -/
def MissingRule.description : MissingRule → String
  | .mandatory => "mandatory"
  | .optional => "optional"

/-- How images are judged. -/
structure Policy where
  entryRule : EntryRule
  failureMode : FailureMode
  missingRule : MissingRule
  limits : Limits
  deriving DecidableEq

namespace Policy

/-- The strictest policy. -/
def standard : Policy := ⟨.all, .shortCircuit, .mandatory, .standard⟩

/-- The standard policy, but images without a descriptor are accepted. -/
def rollout : Policy := { standard with missingRule := .optional }

end Policy

end FirmwareTransparency
