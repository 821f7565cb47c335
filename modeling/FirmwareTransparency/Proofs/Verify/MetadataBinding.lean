import FirmwareTransparency.Proofs.Verify.Modes

/-!
# A descriptor belongs to one metadata

The same bytes are read in the same way next to any metadata, so two runs on them judge the same
entries and differ only in the digest that the leaves have to name. A leaf names one digest: an
entry that passes with one metadata fails its first check with every other. Main statement:
`reportDescriptor_binds`.
-/

set_option autoImplicit false

namespace FirmwareTransparency.Verifier

variable {store : TrustStore} {metadataHash otherHash : Digest} {entry : Entry}
  {entries : List Entry} {verifier : Verifier} {bytes : Bytes} {descriptor : Descriptor}

/-! ## One entry, two digests -/

/-- An entry that passes for one hash fails for every other, at the check of the hash. -/
theorem failedGate?_of_passes_other (hdiffer : otherHash ≠ metadataHash)
    (hpasses : failedGate? store metadataHash entry = none) :
    failedGate? store otherHash entry = some .hashMismatch := by
  apply failedGate?_eq_hashMismatch_iff.2
  obtain ⟨hhash, -, -⟩ := failedGate?_eq_none_iff.1 hpasses
  intro hother
  exact hdiffer (hother.symm.trans hhash)

/-! ## Entries -/

/-- If all entries have to pass, a failure of the first one is the verdict. -/
theorem verdict_of_head_fails (hrule : verifier.policy.entryRule = .all) {gate : Gate}
    (hgate : failedGate? verifier.store metadataHash entry = some gate) :
    (verifier.reportEntries metadataHash (entry :: entries)).verdict = .failed 0 gate := by
  have hdecides := reportEntries_decides verifier metadataHash (List.cons_ne_nil entry entries)
  have hfailed : (verifier.reportEntries metadataHash (entry :: entries)).verdict ≠ .passed := by
    intro hpassed
    have hnone := (hdecides.all hrule).1 hpassed entry List.mem_cons_self
    rw [hgate] at hnone
    cases hnone
  obtain ⟨index, found, hfirst, hverdict⟩ := hdecides.failed hfailed
  obtain ⟨rfl, rfl⟩ := hfirst.unique (.zero hgate)
  exact hverdict

/-- If all entries have to pass and do for one hash, the first one fails for every other. -/
theorem verdict_of_passed_other (hrule : verifier.policy.entryRule = .all)
    (hdiffer : otherHash ≠ metadataHash)
    (hpassed : (verifier.reportEntries metadataHash entries).verdict = .passed) :
    (verifier.reportEntries otherHash entries).verdict = .failed 0 .hashMismatch := by
  have hsatisfies := reportEntries_passed_iff.1 hpassed
  rw [satisfies, hrule] at hsatisfies
  obtain ⟨hne, hall⟩ := hsatisfies
  obtain ⟨first, rest, rfl⟩ := List.exists_cons_of_ne_nil hne
  apply verdict_of_head_fails hrule
  apply failedGate?_of_passes_other hdiffer
  exact hall first List.mem_cons_self

/-- Accumulating, the outcome at an index is that of the entry at this index. -/
theorem getElem?_outcomes (verifier : Verifier) (metadataHash : Digest) {index : Nat}
    (hmode : verifier.policy.failureMode = .accumulate) (hentry : entries[index]? = some entry) :
    (verifier.reportEntries metadataHash entries).outcomes[index]? =
      some ⟨index, entry.logUrl, failedGate? verifier.store metadataHash entry⟩ := by
  rw [reportEntries, outcomesFrom_eq_mapIdx hmode, List.getElem?_mapIdx, hentry, Option.map_some,
    Nat.zero_add]

/-! ## Descriptors -/

/-- A descriptor that can be read is reported on by its entries. -/
theorem reportDescriptor_of_parse (verifier : Verifier) (metadata : Bytes)
    (hparse : Descriptor.parse verifier.policy.limits bytes = .ok descriptor) :
    verifier.reportDescriptor metadata bytes =
      verifier.reportEntries (sha256 metadata) descriptor.entries := by
  rw [reportDescriptor, hparse]

/-- A good verdict is only given where a descriptor can be read. -/
theorem exists_parse_of_passed {metadata : Bytes}
    (hpassed : (verifier.reportDescriptor metadata bytes).verdict = .passed) :
    ∃ descriptor, Descriptor.parse verifier.policy.limits bytes = .ok descriptor := by
  cases hparse : Descriptor.parse verifier.policy.limits bytes with
  | ok descriptor => exact ⟨descriptor, rfl⟩
  | error cause =>
    rw [reportDescriptor, hparse] at hpassed
    cases hpassed

/-- Let two metadata strings have different digests. Where all entries have to pass and do next to
the one, the same bytes next to the other fail at the first entry because of its digest. Where one
entry is enough, none of those that were read passes with both, and an accumulating report on the
one says of each entry that passes with the other that its digest is wrong. -/
theorem reportDescriptor_binds (store : TrustStore) (limits : Limits) (missing : MissingRule)
    (bytes metadata other : Bytes) (hdiffer : sha256 other ≠ sha256 metadata) :
    (∀ mode, (reportDescriptor ⟨store, ⟨.all, mode, missing, limits⟩⟩ metadata bytes).verdict =
        .passed →
      (reportDescriptor ⟨store, ⟨.all, mode, missing, limits⟩⟩ other bytes).verdict =
        .failed 0 .hashMismatch) ∧
      ∀ descriptor, Descriptor.parse limits bytes = .ok descriptor →
        (∀ entry ∈ descriptor.entries, ¬(failedGate? store (sha256 metadata) entry = none ∧
          failedGate? store (sha256 other) entry = none)) ∧
        ∀ (index : Nat) (entry : Entry), descriptor.entries[index]? = some entry →
          failedGate? store (sha256 metadata) entry = none →
            (reportDescriptor ⟨store, ⟨.any, .accumulate, missing, limits⟩⟩ other
              bytes).outcomes[index]? = some ⟨index, entry.logUrl, some .hashMismatch⟩ := by
  constructor
  · intro mode hpassed
    obtain ⟨descriptor, hparse⟩ := exists_parse_of_passed hpassed
    rw [reportDescriptor_of_parse _ _ hparse] at hpassed ⊢
    exact verdict_of_passed_other rfl hdiffer hpassed
  · intro descriptor hparse
    constructor
    · rintro entry - ⟨hpasses, hotherPasses⟩
      rw [failedGate?_of_passes_other hdiffer hpasses] at hotherPasses
      cases hotherPasses
    · intro index entry hentry hpasses
      let accumulating : Verifier := ⟨store, ⟨.any, .accumulate, missing, limits⟩⟩
      rw [reportDescriptor_of_parse accumulating other hparse,
        getElem?_outcomes accumulating (sha256 other) rfl hentry,
        failedGate?_of_passes_other hdiffer hpasses]

/-- The sample's descriptor next to its own metadata and next to a single zero byte. -/
theorem reportDescriptor_binds_sample :
    sha256 [0] ≠ sha256 sampleMetadata ∧
      (sampleVerifier.reportDescriptor sampleMetadata (mismatchedImage.drop 1)).verdict =
        .passed ∧
      (sampleVerifier.reportDescriptor [0] (mismatchedImage.drop 1)).verdict =
        .failed 0 .hashMismatch ∧
      (reportDescriptor ⟨sampleVerifier.store, ⟨.any, .accumulate, .mandatory, .standard⟩⟩ [0]
        (mismatchedImage.drop 1)).outcomes[0]? = some ⟨0, "log", some .hashMismatch⟩ := by
  have hdiffer : sha256 [0] ≠ sha256 sampleMetadata := by decide +kernel
  have hparse : Descriptor.parse .standard (mismatchedImage.drop 1) = .ok sampleDescriptor := by
    decide +kernel
  have hpasses := sampleSubmission_genuine.failedGate?_eq_none
  have hsatisfies : sampleVerifier.satisfies (sha256 sampleMetadata) sampleDescriptor.entries := by
    apply satisfies_of_forall (List.cons_ne_nil _ _)
    exact List.forall_mem_singleton.2 hpasses
  have hreport := reportDescriptor_of_parse sampleVerifier sampleMetadata hparse
  have hpassed : (sampleVerifier.reportDescriptor sampleMetadata
      (mismatchedImage.drop 1)).verdict = .passed :=
    hreport ▸ reportEntries_passed_iff.2 hsatisfies
  obtain ⟨hall, hany⟩ := reportDescriptor_binds sampleVerifier.store .standard .mandatory
    (mismatchedImage.drop 1) sampleMetadata [0] hdiffer
  obtain ⟨-, houtcome⟩ := hany sampleDescriptor hparse
  refine ⟨hdiffer, hpassed, ?_, ?_⟩
  · exact hall _ hpassed
  · exact houtcome 0 sampleSubmission.authored rfl hpasses

end FirmwareTransparency.Verifier
