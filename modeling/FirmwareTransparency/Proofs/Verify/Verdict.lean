import FirmwareTransparency.Proofs.Verify.Completeness

/-!
# The verdict on an image

Checking keeps the first failure it has met and whether an entry has passed, and may end early. What
it comes to can be said without it: `Decides` speaks of all entries and of the least index at which
one fails, and the failure mode is not among its arguments. Main statements:
`reportEntries_decides` says that the verdict on the entries of a descriptor is the one so decided,
and `verify_characterized` which verdict every image gets.
-/

set_option autoImplicit false

namespace FirmwareTransparency.Verifier

variable {store : TrustStore} {metadataHash : Digest} {entries : List Entry}

/-- The entry at an index fails a check, and no entry in front of it fails one. -/
structure FailsFirst (store : TrustStore) (metadataHash : Digest) (entries : List Entry)
    (index : Nat) (gate : Gate) : Prop where
  fails : ∃ entry, entries[index]? = some entry ∧
    failedGate? store metadataHash entry = some gate
  first : ∀ earlier < index, ∀ entry, entries[earlier]? = some entry →
    failedGate? store metadataHash entry = none

/-- What the verdict on entries has to be under a rule. -/
structure Decides (store : TrustStore) (rule : EntryRule) (metadataHash : Digest)
    (entries : List Entry) (verdict : Verdict) : Prop where
  nonempty : entries ≠ []
  all : rule = .all →
    (verdict = .passed ↔ ∀ entry ∈ entries, failedGate? store metadataHash entry = none)
  any : rule = .any →
    (verdict = .passed ↔ ∃ entry ∈ entries, failedGate? store metadataHash entry = none)
  failed : verdict ≠ .passed →
    ∃ index gate, FailsFirst store metadataHash entries index gate ∧ verdict = .failed index gate

/-! ## Only one verdict is decided -/

/-- No entry behind a failure is the first that fails. -/
theorem FailsFirst.le {index other : Nat} {gate otherGate : Gate}
    (h : FailsFirst store metadataHash entries index gate)
    (hother : FailsFirst store metadataHash entries other otherGate) : index ≤ other := by
  by_contra hlt
  obtain ⟨entry, hentry, hgate⟩ := hother.fails
  have hnone := h.first other (Nat.lt_of_not_le hlt) entry hentry
  rw [hgate] at hnone
  cases hnone

/-- The first failure is one entry and one check. -/
theorem FailsFirst.unique {index other : Nat} {gate otherGate : Gate}
    (h : FailsFirst store metadataHash entries index gate)
    (hother : FailsFirst store metadataHash entries other otherGate) :
    index = other ∧ gate = otherGate := by
  obtain rfl := Nat.le_antisymm (h.le hother) (hother.le h)
  obtain ⟨entry, hentry, hgate⟩ := h.fails
  obtain ⟨_, hsame, hotherGate⟩ := hother.fails
  obtain rfl := Option.some.inj (hentry.symm.trans hsame)
  exact ⟨rfl, Option.some.inj (hgate.symm.trans hotherGate)⟩

/-- The rule and the entries leave only one verdict. -/
theorem Decides.unique {rule : EntryRule} {verdict other : Verdict}
    (h : Decides store rule metadataHash entries verdict)
    (hother : Decides store rule metadataHash entries other) : verdict = other := by
  have hpassed : verdict = .passed ↔ other = .passed := by
    cases rule with
    | all => exact (h.all rfl).trans (hother.all rfl).symm
    | any => exact (h.any rfl).trans (hother.any rfl).symm
  by_cases hverdict : verdict = .passed
  · rw [hverdict, hpassed.1 hverdict]
  · obtain ⟨index, gate, hfirst, rfl⟩ := h.failed hverdict
    obtain ⟨otherIndex, otherGate, hotherFirst, rfl⟩ := hother.failed (mt hpassed.2 hverdict)
    obtain ⟨rfl, rfl⟩ := hfirst.unique hotherFirst
    rfl

/-- The verdict on entries never says that there is no descriptor. -/
theorem Decides.ne_noDescriptor {rule : EntryRule} {verdict : Verdict}
    (h : Decides store rule metadataHash entries verdict) : verdict ≠ .noDescriptor := by
  rintro rfl
  obtain ⟨index, gate, -, hverdict⟩ := h.failed (by simp)
  cases hverdict

/-- The verdict on entries never says that the descriptor cannot be read. -/
theorem Decides.ne_invalidDescriptor {rule : EntryRule} {verdict : Verdict}
    (h : Decides store rule metadataHash entries verdict) (cause : FormatError) :
    verdict ≠ .invalidDescriptor cause := by
  rintro rfl
  obtain ⟨index, gate, -, hverdict⟩ := h.failed (by simp)
  cases hverdict

/-! ## The loop over the entries -/

variable {verifier : Verifier}

/-- An entry in front that fails is the first. -/
theorem FailsFirst.zero {entry : Entry} {gate : Gate}
    (hgate : failedGate? store metadataHash entry = some gate) :
    FailsFirst store metadataHash (entry :: entries) 0 gate where
  fails := ⟨entry, rfl, hgate⟩
  first := by
    intro earlier hearlier
    cases hearlier

/-- Behind an entry that passes the first failure remains the first. -/
theorem FailsFirst.cons {entry : Entry} {index : Nat} {gate : Gate}
    (hpass : failedGate? store metadataHash entry = none)
    (h : FailsFirst store metadataHash entries index gate) :
    FailsFirst store metadataHash (entry :: entries) (index + 1) gate where
  fails := h.fails
  first := by
    intro earlier hearlier other hother
    cases earlier with
    | zero =>
      obtain rfl := Option.some.inj hother
      exact hpass
    | succ earlier => exact h.first earlier (Nat.lt_of_succ_lt_succ hearlier) other hother

/-- The first failure among the outcomes is that of the first entry that fails. -/
theorem failsFirst_of_firstFailure? {start found : Nat} {gate : Gate}
    (h : firstFailure? (verifier.outcomesFrom metadataHash start entries) = some (found, gate)) :
    ∃ index, found = start + index ∧
      FailsFirst verifier.store metadataHash entries index gate := by
  induction entries generalizing start with
  | nil => cases h
  | cons entry entries ih =>
    cases hgate : failedGate? verifier.store metadataHash entry with
    | some failure =>
      -- Whether or not checking ends here, this outcome is the first.
      obtain ⟨outcomes, houtcomes⟩ :=
        exists_outcomesFrom_cons verifier metadataHash start entry entries
      rw [houtcomes, hgate] at h
      cases h
      exact ⟨0, rfl, .zero hgate⟩
    | none =>
      cases hstops : verifier.policy.stopsAfter
          (failedGate? verifier.store metadataHash entry) with
      | true =>
        -- Checking ended at an entry that passed, so no outcome is a failure.
        rw [outcomesFrom, if_pos hstops, hgate] at h
        cases h
      | false =>
        rw [outcomesFrom_cons start entries hstops, hgate] at h
        obtain ⟨index, rfl, hfirst⟩ := ih h
        exact ⟨index + 1, by omega, hfirst.cons hgate⟩

/-- Where there are outcomes, the verdict is the good one or names the first failure. -/
theorem verdict_cases (rule : EntryRule) {outcomes : List Outcome} (hne : outcomes ≠ []) :
    rule.verdict outcomes = .passed ∨
      ∃ index gate, firstFailure? outcomes = some (index, gate) ∧
        rule.verdict outcomes = .failed index gate := by
  cases hfirst : firstFailure? outcomes with
  | none =>
    left
    have hpassed := firstFailure?_eq_none_iff.1 hfirst
    cases rule with
    | all => exact verdict_all_passed_iff.2 ⟨hne, hpassed⟩
    | any =>
      obtain ⟨outcome, rest, rfl⟩ := List.exists_cons_of_ne_nil hne
      exact verdict_any_passed_iff.2
        ⟨outcome, List.mem_cons_self, hpassed outcome List.mem_cons_self⟩
  | some failure =>
    obtain ⟨index, gate⟩ := failure
    unfold EntryRule.verdict
    rw [hfirst]
    cases rule with
    | all => exact .inr ⟨index, gate, rfl, rfl⟩
    | any =>
      by_cases hany : outcomes.any Outcome.passed = true
      · exact .inl (if_pos hany)
      · exact .inr ⟨index, gate, rfl, if_neg hany⟩

/-- Checking decides on entries, whichever the failure mode. -/
theorem reportEntries_decides (verifier : Verifier) (metadataHash : Digest) {entries : List Entry}
    (hne : entries ≠ []) :
    Decides verifier.store verifier.policy.entryRule metadataHash entries
      (verifier.reportEntries metadataHash entries).verdict where
  nonempty := hne
  all := by
    intro hrule
    rw [reportEntries_passed_iff, satisfies, hrule]
    exact and_iff_right hne
  any := by
    intro hrule
    rw [reportEntries_passed_iff, satisfies, hrule]
  failed := by
    intro hfailed
    have houtcomes : verifier.outcomesFrom metadataHash 0 entries ≠ [] :=
      outcomesFrom_ne_nil_iff.2 hne
    rcases verdict_cases verifier.policy.entryRule houtcomes with hpassed | ⟨found, gate, hfirst, h⟩
    · exact absurd hpassed hfailed
    · obtain ⟨index, rfl, hfails⟩ := failsFirst_of_firstFailure? hfirst
      rw [Nat.zero_add] at h
      exact ⟨index, gate, hfails, h⟩

/-! ## Images -/

variable {image : Bytes} {offset : Nat}

/-- An image without the magic has no descriptor. -/
theorem verify_of_magic_absent (h : ¬Descriptor.magic <:+: image) :
    verifier.verify image = .noDescriptor := by
  rw [verify, report, findDescriptor_eq_none_iff.2 h]

/-- An image is reported on as it falls apart at the first place of the magic. -/
theorem report_of_firstAt (h : Descriptor.FirstAt image offset) :
    verifier.report image = verifier.reportDescriptor (image.take offset) (image.drop offset) := by
  have hfind : findDescriptor image = some ⟨offset, image.length - offset⟩ :=
    findDescriptor_eq_some_iff.2 ⟨h, rfl⟩
  rw [report, hfind]
  rfl

/-- The descriptor that is found in an image and can be read. -/
def Reads (limits : Limits) (image : Bytes) (location : Location) (descriptor : Descriptor) :
    Prop :=
  findDescriptor image = some location ∧
    Descriptor.parse limits (location.descriptor image) = .ok descriptor

/-- An image whose descriptor can be read is reported on by its entries. -/
theorem report_of_reads (verifier : Verifier) {location : Location} {descriptor : Descriptor}
    (h : Reads verifier.policy.limits image location descriptor) :
    verifier.report image =
      verifier.reportEntries (sha256 (location.metadata image)) descriptor.entries := by
  obtain ⟨hfind, hparse⟩ := h
  simp only [report, hfind, reportDescriptor, hparse]

/-- Where no descriptor is read, no entry is checked. -/
theorem outcomes_of_not_reads (verifier : Verifier)
    (h : ¬∃ location descriptor, Reads verifier.policy.limits image location descriptor) :
    (verifier.report image).outcomes = [] := by
  cases hfind : findDescriptor image with
  | none => simp only [report, hfind]
  | some location =>
    cases hparse : Descriptor.parse verifier.policy.limits (location.descriptor image) with
    | error cause => simp only [report, hfind, reportDescriptor, hparse]
    | ok descriptor => exact absurd ⟨location, descriptor, hfind, hparse⟩ h

/-- Where a descriptor cannot be read the verdict names the cause. -/
theorem verify_of_parse_error {cause : FormatError} (h : Descriptor.FirstAt image offset)
    (hparse : Descriptor.parse verifier.policy.limits (image.drop offset) = .error cause) :
    verifier.verify image = .invalidDescriptor cause := by
  rw [verify, report_of_firstAt h, reportDescriptor, hparse]

/-- Where a descriptor can be read the verdict is that on its entries. -/
theorem verify_of_parse_ok {descriptor : Descriptor} (h : Descriptor.FirstAt image offset)
    (hparse : Descriptor.parse verifier.policy.limits (image.drop offset) = .ok descriptor) :
    verifier.verify image =
      (verifier.reportEntries (sha256 (image.take offset)) descriptor.entries).verdict := by
  rw [verify, report_of_firstAt h, reportDescriptor, hparse]

/-- Where a descriptor can be read the verdict is what the rule asks for. -/
theorem verify_decides {descriptor : Descriptor} (h : Descriptor.FirstAt image offset)
    (hparse : Descriptor.parse verifier.policy.limits (image.drop offset) = .ok descriptor) :
    Decides verifier.store verifier.policy.entryRule (sha256 (image.take offset))
      descriptor.entries (verifier.verify image) := by
  rw [verify_of_parse_ok h hparse]
  exact reportEntries_decides verifier _ (Descriptor.parse_eq_ok_iff.1 hparse).1.1.ne_nil

/-- The verdict says that there is no descriptor exactly if the magic is absent. -/
theorem verify_eq_noDescriptor_iff :
    verifier.verify image = .noDescriptor ↔ ¬Descriptor.magic <:+: image := by
  refine ⟨?_, verify_of_magic_absent⟩
  intro hverify hmagic
  obtain ⟨offset, hfirst⟩ := Descriptor.exists_firstAt hmagic
  cases hparse : Descriptor.parse verifier.policy.limits (image.drop offset) with
  | error cause =>
    rw [verify_of_parse_error hfirst hparse] at hverify
    cases hverify
  | ok descriptor => exact (verify_decides hfirst hparse).ne_noDescriptor hverify

/-- The failure mode and the rule on missing descriptors have no part in the verdict. -/
theorem verify_congr {verifier other : Verifier} (hstore : verifier.store = other.store)
    (hrule : verifier.policy.entryRule = other.policy.entryRule)
    (hlimits : verifier.policy.limits = other.policy.limits) (image : Bytes) :
    verifier.verify image = other.verify image := by
  by_cases hmagic : Descriptor.magic <:+: image
  · obtain ⟨offset, hfirst⟩ := Descriptor.exists_firstAt hmagic
    cases hparse : Descriptor.parse verifier.policy.limits (image.drop offset) with
    | error cause =>
      rw [verify_of_parse_error hfirst hparse, verify_of_parse_error hfirst (hlimits ▸ hparse)]
    | ok descriptor =>
      have hdecides := verify_decides hfirst hparse
      rw [hstore, hrule] at hdecides
      exact hdecides.unique (verify_decides hfirst (hlimits ▸ hparse))
  · rw [verify_of_magic_absent hmagic, verify_of_magic_absent hmagic]

/-- The verdict on an image says whether the magic occurs in it, whether a descriptor can be read
where it stands first, and what the rule on entries makes of the descriptor's entries. It is the
same in both failure modes, and no descriptor that was read is called empty. -/
theorem verify_characterized (verifier : Verifier) (image : Bytes) :
    (verifier.verify image = .noDescriptor ↔ ¬Descriptor.magic <:+: image) ∧
      (Descriptor.magic <:+: image → ∃ offset, Descriptor.FirstAt image offset ∧
        (∀ cause, verifier.verify image = .invalidDescriptor cause ↔
          Descriptor.parse verifier.policy.limits (image.drop offset) = .error cause) ∧
        ∀ descriptor,
          Descriptor.parse verifier.policy.limits (image.drop offset) = .ok descriptor →
            Decides verifier.store verifier.policy.entryRule (sha256 (image.take offset))
                descriptor.entries (verifier.verify image) ∧
              verifier.verify image ≠ .invalidDescriptor .noEntries) ∧
      ∀ mode, Verifier.verify ⟨verifier.store, { verifier.policy with failureMode := mode }⟩ image =
        verifier.verify image := by
  refine ⟨⟨?_, verify_of_magic_absent⟩, ?_, ?_⟩
  · intro hverify hmagic
    obtain ⟨offset, hfirst⟩ := Descriptor.exists_firstAt hmagic
    cases hparse : Descriptor.parse verifier.policy.limits (image.drop offset) with
    | error cause =>
      rw [verify_of_parse_error hfirst hparse] at hverify
      cases hverify
    | ok descriptor => exact (verify_decides hfirst hparse).ne_noDescriptor hverify
  · intro hmagic
    obtain ⟨offset, hfirst⟩ := Descriptor.exists_firstAt hmagic
    refine ⟨offset, hfirst, fun cause => ⟨?_, verify_of_parse_error hfirst⟩, ?_⟩
    · intro hverify
      cases hparse : Descriptor.parse verifier.policy.limits (image.drop offset) with
      | error other =>
        rw [verify_of_parse_error hfirst hparse] at hverify
        cases hverify
        rfl
      | ok descriptor =>
        exact absurd hverify ((verify_decides hfirst hparse).ne_invalidDescriptor cause)
    · intro descriptor hparse
      have hdecides := verify_decides hfirst hparse
      exact ⟨hdecides, hdecides.ne_invalidDescriptor .noEntries⟩
  · intro mode
    apply verify_congr <;> rfl

/-- The sample's descriptor behind metadata that its leaf does not name. -/
def mismatchedImage : Bytes := [0] ++ (sampleDescriptor.header.encode ++ sampleDescriptor.body)

/-- Behind other metadata the only entry of the descriptor fails the check of the hash. -/
theorem verify_characterized_mismatch :
    Descriptor.magic <:+: mismatchedImage ∧
      Descriptor.parse .standard (mismatchedImage.drop 1) = .ok sampleDescriptor ∧
      sampleVerifier.verify mismatchedImage = .failed 0 .hashMismatch := by
  have hmagic : Descriptor.magic <:+: mismatchedImage := by decide +kernel
  have hparse : Descriptor.parse .standard (mismatchedImage.drop 1) = .ok sampleDescriptor := by
    decide +kernel
  have hone : Descriptor.FirstAt mismatchedImage 1 := ⟨by decide +kernel, by decide +kernel⟩
  have hgate : failedGate? sampleVerifier.store (sha256 (mismatchedImage.take 1))
      sampleSubmission.authored = some .hashMismatch := by
    decide +kernel
  obtain ⟨offset, hfirst, -, hread⟩ :=
    (verify_characterized sampleVerifier mismatchedImage).2.1 hmagic
  obtain rfl := hfirst.unique hone
  obtain ⟨hdecides, -⟩ := hread sampleDescriptor hparse
  have hfailed : sampleVerifier.verify mismatchedImage ≠ .passed := by
    intro hpassed
    have hnone := (hdecides.all rfl).1 hpassed sampleSubmission.authored (List.mem_singleton_self _)
    rw [hgate] at hnone
    cases hnone
  obtain ⟨index, gate, hfails, hverdict⟩ := hdecides.failed hfailed
  obtain ⟨rfl, rfl⟩ := hfails.unique (.zero hgate)
  exact ⟨hmagic, hparse, hverdict⟩

end FirmwareTransparency.Verifier
