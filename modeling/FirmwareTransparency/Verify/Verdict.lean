import FirmwareTransparency.Error
import FirmwareTransparency.Policy

/-!
# Verdicts

A report holds what became of each entry that was checked and the verdict on the image. The verdict
follows from the outcomes and the rule on entries; what a verdict means for the image follows from
the rule on missing descriptors.
-/

set_option autoImplicit false

namespace FirmwareTransparency

/-- What became of an image. -/
inductive Verdict where
  | passed
  | noDescriptor
  /-- There is a descriptor that cannot be read. -/
  | invalidDescriptor (cause : FormatError)
  /-- An entry failed a check, and the policy does not excuse it. -/
  | failed (entry : Nat) (gate : Gate)
  deriving DecidableEq

/-- The wording of a verdict. -/
def Verdict.message : Verdict → String
  | .passed => "OK"
  | .noDescriptor => "no AFTL descriptor present"
  | .invalidDescriptor cause => s!"invalid descriptor: {cause.message}"
  | .failed entry gate => s!"entry {entry} failed: {gate.message}"

/-- Whether a verdict is the good one. -/
def Verdict.isPassed (verdict : Verdict) : Bool := verdict = .passed

/-- What became of an entry. -/
structure Outcome where
  index : Nat
  identity : String
  failure : Option Gate
  deriving DecidableEq

/-- Whether an entry passed. -/
def Outcome.passed (outcome : Outcome) : Bool := outcome.failure.isNone

/-- The wording of an outcome. -/
def Outcome.message (outcome : Outcome) : String :=
  match outcome.failure with
  | none => "OK"
  | some gate => gate.message

/-- The verdict on an image and what became of the entries that were checked. -/
structure Report where
  verdict : Verdict
  outcomes : List Outcome
  deriving DecidableEq

/-- The first entry that failed, and at which check. -/
def firstFailure? : List Outcome → Option (Nat × Gate)
  | [] => none
  | outcome :: outcomes =>
    match outcome.failure with
    | some gate => some (outcome.index, gate)
    | none => firstFailure? outcomes

/-- The verdict that outcomes lead to. -/
def EntryRule.verdict (rule : EntryRule) (outcomes : List Outcome) : Verdict :=
  match rule, firstFailure? outcomes with
  | _, none => if outcomes.any Outcome.passed then .passed else .invalidDescriptor .noEntries
  | .all, some (entry, gate) => .failed entry gate
  | .any, some (entry, gate) => if outcomes.any Outcome.passed then .passed else .failed entry gate

/-- Whether an outcome alone decides the verdict. -/
def EntryRule.isDecisive (rule : EntryRule) (failure : Option Gate) : Bool :=
  match rule with
  | .all => failure.isSome
  | .any => failure.isNone

/-- Whether checking ends after an outcome. -/
def Policy.stopsAfter (policy : Policy) (failure : Option Gate) : Bool :=
  match policy.failureMode with
  | .shortCircuit => policy.entryRule.isDecisive failure
  | .accumulate => false

/-- What a verdict means for the image. -/
def Policy.accept (policy : Policy) (verdict : Verdict) : Except Error Unit :=
  match verdict with
  | .passed => .ok ()
  | .noDescriptor =>
    match policy.missingRule with
    | .optional => .ok ()
    | .mandatory => .error .noDescriptor
  | .invalidDescriptor cause => .error (.format cause)
  | .failed entry gate => .error (.verificationFailed entry gate)

/-- An image is accepted exactly if the verdict is the good one or says that a descriptor which the
policy does not ask for is missing. -/
theorem Policy.accept_eq_ok_iff {policy : Policy} {verdict : Verdict} :
    policy.accept verdict = .ok () ↔
      verdict = .passed ∨ (verdict = .noDescriptor ∧ policy.missingRule = .optional) := by
  cases verdict with
  | noDescriptor => cases h : policy.missingRule <;> simp [Policy.accept, h]
  | passed => simp [Policy.accept]
  | invalidDescriptor cause => simp [Policy.accept]
  | failed entry gate => simp [Policy.accept]

end FirmwareTransparency
