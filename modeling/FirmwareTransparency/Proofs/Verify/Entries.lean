import FirmwareTransparency.Verify.Verifier
import Mathlib.Data.List.Basic

/-!
# What a good verdict says about the entries

Checking may end early, but only at an entry that decides the verdict, so the outcomes that were not
looked for cannot change it. Main statements: `failedGate?_eq_none_iff` says which checks an entry
has passed, `reportEntries_passed_iff` which entries have to pass for the good verdict, whatever the
failure mode, and `verify_eq_passed_iff` says the same of an image.
-/

set_option autoImplicit false

namespace FirmwareTransparency

/-! ## One entry -/

/-- A signature is accepted exactly if a trusted log of that identity has a key under which it is
valid. -/
theorem TrustStore.checkSignature_eq_ok_iff {store : TrustStore} {identity : String}
    {message signature : Bytes} :
    store.checkSignature identity message signature = .ok () ↔
      ∃ log ∈ store.logs, log.identity = identity ∧ log.key.verify message signature = true := by
  unfold checkSignature
  cases hget : store.get? identity with
  | none =>
    constructor
    · intro h
      cases h
    · rintro ⟨log, hlog, hidentity, -⟩
      rw [get?_eq_some_iff.2 ⟨hlog, hidentity⟩] at hget
      cases hget
  | some log =>
    obtain ⟨hlog, hidentity⟩ := get?_eq_some_iff.1 hget
    constructor
    · intro h
      refine ⟨log, hlog, hidentity, ?_⟩
      by_cases hverify : log.key.verify message signature = true
      · exact hverify
      · simp [hverify] at h
    · rintro ⟨other, hother, hotherIdentity, hverify⟩
      have hsame := get?_eq_some_iff.2 ⟨hother, hotherIdentity⟩
      rw [hget] at hsame
      obtain rfl := Option.some.inj hsame
      simp [hverify]

namespace Verifier

variable {verifier : Verifier} {metadataHash : Digest}

/-- An entry that fails no check names the metadata, is included and is signed by a trusted log. -/
theorem failedGate?_eq_none_iff {store : TrustStore} {entry : Entry} :
    failedGate? store metadataHash entry = none ↔
      entry.leaf.imageHash = metadataHash ∧
        Merkle.includes entry.leaf.hash entry.leafIndex.toNat entry.treeSize.toNat entry.proof
          entry.logRoot.rootHash = true ∧
        store.checkSignature entry.logUrl entry.logRoot.encode entry.signature = .ok () := by
  unfold failedGate?
  by_cases hhash : entry.leaf.imageHash = metadataHash
  · rw [if_neg (not_not.2 hhash)]
    by_cases hroot : Merkle.includes entry.leaf.hash entry.leafIndex.toNat entry.treeSize.toNat
        entry.proof entry.logRoot.rootHash = true
    · rw [if_neg (by simp [hroot])]
      cases hsignature : store.checkSignature entry.logUrl entry.logRoot.encode entry.signature with
      | ok u => exact ⟨fun _ => ⟨hhash, hroot, rfl⟩, fun _ => rfl⟩
      | error cause => cases cause <;> simp
    · rw [if_pos (by simp [hroot])]
      simp [hroot]
  · rw [if_pos hhash]
    simp [hhash]

/-- An entry fails the check of the hash exactly if its leaf names another one. -/
theorem failedGate?_eq_hashMismatch_iff {store : TrustStore} {entry : Entry} :
    failedGate? store metadataHash entry = some .hashMismatch ↔
      entry.leaf.imageHash ≠ metadataHash := by
  unfold failedGate?
  by_cases hhash : entry.leaf.imageHash = metadataHash
  · rw [if_neg (not_not.2 hhash)]
    -- The later checks have other names.
    split
    · simp [hhash]
    · split <;> simp [hhash]
  · rw [if_pos hhash]
    simp [hhash]

/-- An entry fails the check of the root exactly if its leaf names the hash and its proof does not
lead to the root. -/
theorem failedGate?_eq_rootMismatch_iff {store : TrustStore} {entry : Entry} :
    failedGate? store metadataHash entry = some .rootMismatch ↔
      entry.leaf.imageHash = metadataHash ∧
        Merkle.includes entry.leaf.hash entry.leafIndex.toNat entry.treeSize.toNat entry.proof
          entry.logRoot.rootHash = false := by
  unfold failedGate?
  by_cases hhash : entry.leaf.imageHash = metadataHash
  · rw [if_neg (not_not.2 hhash)]
    cases Merkle.includes entry.leaf.hash entry.leafIndex.toNat entry.treeSize.toNat entry.proof
        entry.logRoot.rootHash with
    | false => simp [hhash]
    | true =>
      cases store.checkSignature entry.logUrl entry.logRoot.encode entry.signature with
      | ok u => simp
      | error cause => cases cause <;> simp
  · rw [if_pos hhash]
    simp [hhash]

/-! ## The outcomes -/

/-- If all entries have to pass, checking goes on behind one that does. -/
theorem stopsAfter_none {policy : Policy} (hrule : policy.entryRule = .all) :
    policy.stopsAfter none = false := by
  unfold Policy.stopsAfter
  rw [hrule]
  cases policy.failureMode <;> rfl

/-- If one entry is enough, checking goes on behind one that fails. -/
theorem stopsAfter_some {policy : Policy} (hrule : policy.entryRule = .any) (gate : Gate) :
    policy.stopsAfter (some gate) = false := by
  unfold Policy.stopsAfter
  rw [hrule]
  cases policy.failureMode <;> rfl

/-- The first entry is always checked. -/
theorem exists_outcomesFrom_cons (verifier : Verifier) (metadataHash : Digest) (index : Nat)
    (entry : Entry) (entries : List Entry) :
    ∃ outcomes, verifier.outcomesFrom metadataHash index (entry :: entries) =
      ⟨index, entry.logUrl, failedGate? verifier.store metadataHash entry⟩ :: outcomes := by
  rw [outcomesFrom]
  by_cases h : verifier.policy.stopsAfter (failedGate? verifier.store metadataHash entry) = true
  · exact ⟨[], if_pos h⟩
  · exact ⟨_, if_neg h⟩

/-- An entry is checked exactly if there is one. -/
theorem outcomesFrom_ne_nil_iff {index : Nat} {entries : List Entry} :
    verifier.outcomesFrom metadataHash index entries ≠ [] ↔ entries ≠ [] := by
  cases entries with
  | nil => simp [outcomesFrom]
  | cons entry entries =>
    obtain ⟨outcomes, houtcomes⟩ :=
      exists_outcomesFrom_cons verifier metadataHash index entry entries
    simp [houtcomes]

/-- Where checking goes on, the other entries are checked next. -/
theorem outcomesFrom_cons (index : Nat) {entry : Entry} (entries : List Entry)
    (h : verifier.policy.stopsAfter (failedGate? verifier.store metadataHash entry) = false) :
    verifier.outcomesFrom metadataHash index (entry :: entries) =
      ⟨index, entry.logUrl, failedGate? verifier.store metadataHash entry⟩ ::
        verifier.outcomesFrom metadataHash (index + 1) entries := by
  rw [outcomesFrom]
  simp [h]

/-- If all entries have to pass, checking only ends at one that fails. -/
theorem forall_outcomesFrom_iff (hrule : verifier.policy.entryRule = .all) (index : Nat)
    (entries : List Entry) :
    (∀ outcome ∈ verifier.outcomesFrom metadataHash index entries, outcome.failure = none) ↔
      ∀ entry ∈ entries, failedGate? verifier.store metadataHash entry = none := by
  induction entries generalizing index with
  | nil => simp [outcomesFrom]
  | cons entry entries ih =>
    rw [List.forall_mem_cons]
    cases hgate : failedGate? verifier.store metadataHash entry with
    | none =>
      have hstops : verifier.policy.stopsAfter
          (failedGate? verifier.store metadataHash entry) = false := by
        rw [hgate]
        exact stopsAfter_none hrule
      rw [outcomesFrom_cons index entries hstops, List.forall_mem_cons, ih, hgate]
    | some gate =>
      -- Checking may end here, but this outcome alone refutes both sides.
      obtain ⟨outcomes, houtcomes⟩ :=
        exists_outcomesFrom_cons verifier metadataHash index entry entries
      rw [houtcomes, List.forall_mem_cons, hgate]
      simp

/-- If one entry is enough, checking only ends at one that passes. -/
theorem exists_outcomesFrom_iff (hrule : verifier.policy.entryRule = .any) (index : Nat)
    (entries : List Entry) :
    (∃ outcome ∈ verifier.outcomesFrom metadataHash index entries, outcome.failure = none) ↔
      ∃ entry ∈ entries, failedGate? verifier.store metadataHash entry = none := by
  induction entries generalizing index with
  | nil => simp [outcomesFrom]
  | cons entry entries ih =>
    rw [List.exists_mem_cons_iff]
    cases hgate : failedGate? verifier.store metadataHash entry with
    | none =>
      -- Checking may end here, but this outcome alone shows both sides.
      obtain ⟨outcomes, houtcomes⟩ :=
        exists_outcomesFrom_cons verifier metadataHash index entry entries
      rw [houtcomes, List.exists_mem_cons_iff, hgate]
      simp
    | some gate =>
      have hstops : verifier.policy.stopsAfter
          (failedGate? verifier.store metadataHash entry) = false := by
        rw [hgate]
        exact stopsAfter_some hrule gate
      rw [outcomesFrom_cons index entries hstops, List.exists_mem_cons_iff, ih, hgate]

/-! ## The verdict -/

/-- No outcome is the first failure exactly if none is a failure. -/
theorem firstFailure?_eq_none_iff {outcomes : List Outcome} :
    firstFailure? outcomes = none ↔ ∀ outcome ∈ outcomes, outcome.failure = none := by
  induction outcomes with
  | nil => simp [firstFailure?]
  | cons outcome outcomes ih =>
    rw [firstFailure?, List.forall_mem_cons, ← ih]
    cases outcome.failure <;> simp

/-- Some outcome is good exactly if one of them is no failure. -/
theorem any_passed_iff {outcomes : List Outcome} :
    outcomes.any Outcome.passed = true ↔ ∃ outcome ∈ outcomes, outcome.failure = none := by
  simp [List.any_eq_true, Outcome.passed]

/-- If all entries have to pass, the good verdict is given exactly for outcomes that are all good,
of which there is one. -/
theorem verdict_all_passed_iff {outcomes : List Outcome} :
    EntryRule.all.verdict outcomes = .passed ↔
      outcomes ≠ [] ∧ ∀ outcome ∈ outcomes, outcome.failure = none := by
  rw [← firstFailure?_eq_none_iff]
  cases hfirst : firstFailure? outcomes with
  | none =>
    have hpassed : outcomes.any Outcome.passed = true ↔ outcomes ≠ [] := by
      rw [any_passed_iff]
      constructor
      · rintro ⟨outcome, houtcome, -⟩ rfl
        cases houtcome
      · intro hne
        obtain ⟨outcome, rest, rfl⟩ := List.exists_cons_of_ne_nil hne
        exact ⟨outcome, List.mem_cons_self, firstFailure?_eq_none_iff.1 hfirst _ List.mem_cons_self⟩
    unfold EntryRule.verdict
    rw [hfirst, ← hpassed]
    by_cases h : outcomes.any Outcome.passed = true <;> simp [h]
  | some failure =>
    unfold EntryRule.verdict
    rw [hfirst]
    simp

/-- If one entry is enough, the good verdict is given exactly for outcomes with a good one. -/
theorem verdict_any_passed_iff {outcomes : List Outcome} :
    EntryRule.any.verdict outcomes = .passed ↔
      ∃ outcome ∈ outcomes, outcome.failure = none := by
  rw [← any_passed_iff]
  unfold EntryRule.verdict
  cases firstFailure? outcomes <;>
    by_cases h : outcomes.any Outcome.passed = true <;> simp [h]

/-- The entries that have to pass under a rule. -/
def satisfies (verifier : Verifier) (metadataHash : Digest) (entries : List Entry) : Prop :=
  match verifier.policy.entryRule with
  | .all => entries ≠ [] ∧ ∀ entry ∈ entries, failedGate? verifier.store metadataHash entry = none
  | .any => ∃ entry ∈ entries, failedGate? verifier.store metadataHash entry = none

/-- The good verdict is given exactly if the entries pass that have to, in either failure mode. -/
theorem reportEntries_passed_iff {entries : List Entry} :
    (verifier.reportEntries metadataHash entries).verdict = .passed ↔
      verifier.satisfies metadataHash entries := by
  unfold reportEntries satisfies
  cases hrule : verifier.policy.entryRule with
  | all => rw [verdict_all_passed_iff, outcomesFrom_ne_nil_iff, forall_outcomesFrom_iff hrule]
  | any => rw [verdict_any_passed_iff, exists_outcomesFrom_iff hrule]

/-- An image gets the good verdict exactly if it holds a descriptor whose entries pass that have
to. -/
theorem verify_eq_passed_iff {image : Bytes} :
    verifier.verify image = .passed ↔
      ∃ location descriptor, findDescriptor image = some location ∧
        Descriptor.parse verifier.policy.limits (location.descriptor image) = .ok descriptor ∧
          verifier.satisfies (sha256 (location.metadata image)) descriptor.entries := by
  unfold verify report
  cases hfind : findDescriptor image with
  | none => simp
  | some location =>
    unfold reportDescriptor
    cases hparse : Descriptor.parse verifier.policy.limits (location.descriptor image) with
    | error cause => simp [hparse]
    | ok descriptor => simp [hparse, reportEntries_passed_iff]

end Verifier

end FirmwareTransparency
