import FirmwareTransparency.Proofs.Verify.Verdict

/-!
# The reports of the two failure modes

Accumulating goes through all entries of a descriptor, short-circuiting ends with the first one that
settles the verdict. Main statement: `report_modes_agree` says that the verdict is the same, that
the accumulated outcomes are those of all entries in their order, and that the outcomes of a
short-circuited run are the accumulated ones up to the first that settles the verdict.
-/

set_option autoImplicit false

namespace FirmwareTransparency

/-! ## Lists that end with the first element of a kind -/

/-- A list is cut behind its first element of a kind, or left whole if it holds none. -/
inductive CutBehindFirst {α : Type} (p : α → Prop) : (whole cut : List α) → Prop where
  | found {front back : List α} {first : α} (hfront : ∀ a ∈ front, ¬p a) (hfirst : p first) :
      CutBehindFirst p (front ++ first :: back) (front ++ [first])
  | absent {whole : List α} (h : ∀ a ∈ whole, ¬p a) : CutBehindFirst p whole whole

namespace CutBehindFirst

variable {α : Type} {p : α → Prop} {a : α} {whole cut : List α}

/-- A list is cut behind its first item if the condition holds there. -/
theorem head (ha : p a) (back : List α) : CutBehindFirst p (a :: back) [a] := by
  change CutBehindFirst p ([] ++ a :: back) ([] ++ [a])
  exact .found (by simp) ha

/-- Behind an item for which the condition does not hold the list is cut where the rest is. -/
theorem cons (ha : ¬p a) (h : CutBehindFirst p whole cut) :
    CutBehindFirst p (a :: whole) (a :: cut) := by
  cases h with
  | @found front back first hfront hfirst =>
    change CutBehindFirst p ((a :: front) ++ first :: back) ((a :: front) ++ [first])
    exact .found (List.forall_mem_cons.2 ⟨ha, hfront⟩) hfirst
  | absent h => exact .absent (List.forall_mem_cons.2 ⟨ha, h⟩)

/-- Where the first element is of the kind, the cut list holds nothing else. -/
theorem eq_singleton (ha : p a) (h : CutBehindFirst p (a :: whole) cut) : cut = [a] := by
  generalize hlist : a :: whole = list at h
  cases h with
  | @found front back first hfront hfirst =>
    cases front with
    | nil => rw [List.nil_append, (List.cons.inj hlist).1]
    | cons head front =>
      obtain ⟨rfl, -⟩ := List.cons.inj hlist
      exact absurd ha (hfront a List.mem_cons_self)
  | absent h =>
    subst hlist
    exact absurd ha (h a List.mem_cons_self)

end CutBehindFirst

/-- An outcome that settles the verdict under a rule: a failure if all entries have to pass, a pass
if one is enough. -/
def EntryRule.SettledBy (rule : EntryRule) (outcome : Outcome) : Prop :=
  match rule with
  | .all => outcome.failure ≠ none
  | .any => outcome.failure = none

/-- An outcome settles a rule exactly if it is decisive for it. -/
theorem EntryRule.settledBy_iff {rule : EntryRule} {outcome : Outcome} :
    rule.SettledBy outcome ↔ rule.isDecisive outcome.failure = true := by
  cases rule with
  | all => simp [SettledBy, isDecisive, Option.isSome_iff_ne_none]
  | any => simp [SettledBy, isDecisive]

namespace Verifier

variable {verifier other : Verifier} {metadataHash : Digest}

/-! ## The loop over the entries -/

/-- Accumulating, every entry has an outcome of its own, in the order of the entries. -/
theorem outcomesFrom_eq_mapIdx (hmode : verifier.policy.failureMode = .accumulate) (start : Nat)
    (entries : List Entry) :
    verifier.outcomesFrom metadataHash start entries =
      entries.mapIdx fun index entry =>
        ⟨start + index, entry.logUrl, failedGate? verifier.store metadataHash entry⟩ := by
  induction entries generalizing start with
  | nil => rfl
  | cons entry entries ih =>
    have hstops : verifier.policy.stopsAfter (failedGate? verifier.store metadataHash entry) =
        false := by
      rw [Policy.stopsAfter, hmode]
    rw [outcomesFrom_cons start entries hstops, ih, List.mapIdx_cons]
    simp only [Nat.add_zero, Nat.add_assoc, Nat.add_comm 1]

/-- Short-circuiting, the outcomes end with the first that settles the verdict. -/
theorem outcomesFrom_cutBehindFirst (hstore : verifier.store = other.store)
    (hmode : verifier.policy.failureMode = .accumulate)
    (hother : other.policy.failureMode = .shortCircuit) (start : Nat) (entries : List Entry) :
    CutBehindFirst other.policy.entryRule.SettledBy
      (verifier.outcomesFrom metadataHash start entries)
      (other.outcomesFrom metadataHash start entries) := by
  induction entries generalizing start with
  | nil => exact .absent (by simp [outcomesFrom])
  | cons entry entries ih =>
    -- One verifier never stops early, the other one does as soon as its rule is settled.
    have hwhole : verifier.policy.stopsAfter (failedGate? verifier.store metadataHash entry) =
        false := by
      rw [Policy.stopsAfter, hmode]
    have hstops : ∀ failure, other.policy.stopsAfter failure =
        other.policy.entryRule.isDecisive failure := by
      intro failure
      rw [Policy.stopsAfter, hother]
    rw [outcomesFrom_cons start entries hwhole, hstore]
    cases hdecisive : other.policy.entryRule.isDecisive
        (failedGate? other.store metadataHash entry) with
    | true =>
      rw [outcomesFrom, if_pos ((hstops _).trans hdecisive)]
      exact .head (EntryRule.settledBy_iff.2 hdecisive) _
    | false =>
      rw [outcomesFrom_cons start entries ((hstops _).trans hdecisive)]
      refine .cons (fun hsettled => ?_) (ih (start + 1))
      rw [EntryRule.settledBy_iff.1 hsettled] at hdecisive
      cases hdecisive

/-! ## The reports -/

/-- Both failure modes give the same verdict. Accumulating, there is an outcome for every entry that
was read, in order, with its index, the address of its log and the check that it fails, if any;
where nothing was read, there is none. Short-circuiting, the outcomes are cut behind the first that
settles the verdict. -/
theorem report_modes_agree (store : TrustStore) (rule : EntryRule)
    (missing otherMissing : MissingRule) (limits : Limits) (image : Bytes) :
    let accumulating : Verifier := ⟨store, ⟨rule, .accumulate, missing, limits⟩⟩
    let shortCircuiting : Verifier := ⟨store, ⟨rule, .shortCircuit, otherMissing, limits⟩⟩
    (accumulating.report image).verdict = (shortCircuiting.report image).verdict ∧
      (∀ location descriptor, Reads limits image location descriptor →
        (accumulating.report image).outcomes = descriptor.entries.mapIdx fun index entry =>
          ⟨index, entry.logUrl, failedGate? store (sha256 (location.metadata image)) entry⟩) ∧
      ((¬∃ location descriptor, Reads limits image location descriptor) →
        (accumulating.report image).outcomes = []) ∧
      CutBehindFirst rule.SettledBy (accumulating.report image).outcomes
        (shortCircuiting.report image).outcomes := by
  intro accumulating shortCircuiting
  refine ⟨?_, ?_, outcomes_of_not_reads accumulating, ?_⟩
  · change accumulating.verify image = shortCircuiting.verify image
    apply verify_congr <;> rfl
  · intro location descriptor hreads
    rw [report_of_reads accumulating hreads, reportEntries, outcomesFrom_eq_mapIdx rfl]
    simp only [Nat.zero_add]
    rfl
  · by_cases h : ∃ location descriptor, Reads limits image location descriptor
    · obtain ⟨location, descriptor, hreads⟩ := h
      have hstore : accumulating.store = shortCircuiting.store := rfl
      rw [report_of_reads accumulating hreads, report_of_reads shortCircuiting hreads]
      exact outcomesFrom_cutBehindFirst hstore rfl rfl 0 descriptor.entries
    · rw [outcomes_of_not_reads accumulating h, outcomes_of_not_reads shortCircuiting h]
      exact .absent (by simp)

/-- A descriptor that holds the sample's entry twice. -/
def sampleTwice : Descriptor where
  major := Descriptor.currentMajor
  minor := Descriptor.currentMinor
  totalSize := Descriptor.sizeOver [sampleSubmission.authored, sampleSubmission.authored]
  entries := [sampleSubmission.authored, sampleSubmission.authored]

/-- That descriptor behind metadata that its leaves do not name. -/
def mismatchedTwice : Bytes := [0] ++ (sampleTwice.header.encode ++ sampleTwice.body)

/-- Both modes have the same verdict on two entries that fail, and the one that stops reports on the
first only. -/
theorem report_modes_agree_mismatch :
    Reads .standard mismatchedTwice ⟨1, 978⟩ sampleTwice ∧
      (report ⟨sampleVerifier.store, ⟨.all, .accumulate, .mandatory, .standard⟩⟩
        mismatchedTwice).outcomes =
          [⟨0, "log", some .hashMismatch⟩, ⟨1, "log", some .hashMismatch⟩] ∧
      (report ⟨sampleVerifier.store, ⟨.all, .shortCircuit, .optional, .standard⟩⟩
        mismatchedTwice).outcomes = [⟨0, "log", some .hashMismatch⟩] := by
  have hreads : Reads .standard mismatchedTwice ⟨1, 978⟩ sampleTwice :=
    ⟨by decide +kernel, by decide +kernel⟩
  have hgate : failedGate? sampleVerifier.store
      (sha256 (Location.metadata ⟨1, 978⟩ mismatchedTwice)) sampleSubmission.authored =
        some .hashMismatch := by
    decide +kernel
  obtain ⟨-, houtcomes, -, hcut⟩ := report_modes_agree sampleVerifier.store .all .mandatory
    .optional .standard mismatchedTwice
  have hwhole := houtcomes _ _ hreads
  simp only [sampleTwice, List.mapIdx_cons, List.mapIdx_nil, hgate] at hwhole
  rw [hwhole] at hcut
  exact ⟨hreads, hwhole, hcut.eq_singleton (Option.some_ne_none _)⟩

end Verifier

end FirmwareTransparency
