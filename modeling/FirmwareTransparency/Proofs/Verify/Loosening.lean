import FirmwareTransparency.Proofs.Verify.Soundness
import FirmwareTransparency.Proofs.Verify.Verdict

/-!
# Looser policies and larger trust stores

What passes a strict verifier passes a looser one: wider limits read every descriptor that narrower
ones read, a larger store accepts every signature that a smaller one accepts, and where all entries
pass, one does. Main statement: `loosening_never_rejects`. The failure mode needs no mention in it,
since the good verdict does not depend on it.
-/

set_option autoImplicit false

namespace FirmwareTransparency

/-! ## What is looser -/

/-- No limit is above its counterpart. -/
structure Limits.Within (limits wider : Limits) : Prop where
  entries : limits.maxEntries ≤ wider.maxEntries
  logUrl : limits.maxLogUrlSize ≤ wider.maxLogUrlSize
  leaf : limits.maxLeafSize ≤ wider.maxLeafSize
  signature : limits.maxSignatureSize ≤ wider.maxSignatureSize

/-- A policy that is stricter than another in no respect. -/
structure Policy.LooserThan (loose strict : Policy) : Prop where
  entryRule : loose.entryRule = .any ∨ loose.entryRule = strict.entryRule
  missingRule : loose.missingRule = .optional ∨ loose.missingRule = strict.missingRule
  limits : strict.limits.Within loose.limits

/-- A store that holds the logs of another one and any others, in any order. That the others have
new identities follows, for no store has one twice. -/
def TrustStore.Extends (larger store : TrustStore) : Prop :=
  ∃ others, larger.logs.Perm (store.logs ++ others)

/-! ## Wider limits -/

section Limits

variable {limits wider : Limits}

/-- An entry within some limits is within wider ones. -/
theorem Entry.validate_of_within {entry : Entry} (hlimits : limits.Within wider)
    (h : entry.validate limits = .ok ()) : entry.validate wider = .ok () := by
  simp only [Entry.validate, check_bind_eq_ok_iff, checkSize_eq_ok_iff] at h ⊢
  obtain ⟨hurl, hleaf, hsignature⟩ := h
  exact ⟨hurl.trans hlimits.logUrl, hleaf.trans hlimits.leaf,
    hsignature.trans hlimits.signature⟩

/-- A descriptor within some limits is within wider ones. -/
theorem Descriptor.validate_of_within {descriptor : Descriptor} (hlimits : limits.Within wider)
    (h : descriptor.validate limits = .ok ()) : descriptor.validate wider = .ok () := by
  obtain ⟨hcount, hentries⟩ := validate_eq_ok_iff.1 h
  apply validate_eq_ok_iff.2
  refine ⟨hcount.trans hlimits.entries, ?_⟩
  intro entry hentry
  exact Entry.validate_of_within hlimits (hentries entry hentry)

/-- Wider limits read the same descriptor from the same bytes. -/
theorem Descriptor.parse_of_within {bytes : Bytes} {descriptor : Descriptor}
    (hlimits : limits.Within wider) (h : parse limits bytes = .ok descriptor) :
    parse wider bytes = .ok descriptor := by
  obtain ⟨⟨hformed, hvalid⟩, hbytes⟩ := parse_eq_ok_iff.1 h
  exact parse_eq_ok_iff.2 ⟨⟨hformed, validate_of_within hlimits hvalid⟩, hbytes⟩

end Limits

/-! ## Larger stores -/

section Extends

variable {larger store : TrustStore}

/-- The logs of a store are among those of a larger one. -/
theorem TrustStore.Extends.mem (h : larger.Extends store) {log : TrustedLog}
    (hlog : log ∈ store.logs) : log ∈ larger.logs := by
  obtain ⟨others, hperm⟩ := h
  exact hperm.mem_iff.2 (List.mem_append_left others hlog)

/-- A signature that a store accepts is accepted by a larger one. -/
theorem TrustStore.Extends.checkSignature_eq_ok (h : larger.Extends store) {identity : String}
    {message signature : Bytes}
    (hcheck : store.checkSignature identity message signature = .ok ()) :
    larger.checkSignature identity message signature = .ok () := by
  rw [checkSignature_eq_ok_iff] at hcheck ⊢
  obtain ⟨log, hlog, hidentity, hverify⟩ := hcheck
  exact ⟨log, h.mem hlog, hidentity, hverify⟩

/-- An entry that passes with a store passes with a larger one. -/
theorem TrustStore.Extends.failedGate?_eq_none (h : larger.Extends store) {metadataHash : Digest}
    {entry : Entry} (hpass : Verifier.failedGate? store metadataHash entry = none) :
    Verifier.failedGate? larger metadataHash entry = none := by
  rw [Verifier.failedGate?_eq_none_iff] at hpass ⊢
  obtain ⟨hhash, hroot, hsignature⟩ := hpass
  exact ⟨hhash, hroot, h.checkSignature_eq_ok hsignature⟩

end Extends

namespace Verifier

variable {strict loose : Verifier}

/-! ## Looser verifiers -/

/-- Under either rule one entry at least has to pass. -/
theorem exists_of_satisfies {verifier : Verifier} {metadataHash : Digest} {entries : List Entry}
    (h : verifier.satisfies metadataHash entries) :
    ∃ entry ∈ entries, failedGate? verifier.store metadataHash entry = none := by
  unfold satisfies at h
  cases hrule : verifier.policy.entryRule with
  | all =>
    rw [hrule] at h
    obtain ⟨hne, hall⟩ := h
    obtain ⟨entry, rest, rfl⟩ := List.exists_cons_of_ne_nil hne
    exact ⟨entry, List.mem_cons_self, hall entry List.mem_cons_self⟩
  | any =>
    rw [hrule] at h
    exact h

/-- Entries that satisfy a strict verifier satisfy a looser one. -/
theorem satisfies_of_looser (hpolicy : loose.policy.LooserThan strict.policy)
    (hstore : loose.store.Extends strict.store) {metadataHash : Digest} {entries : List Entry}
    (h : strict.satisfies metadataHash entries) : loose.satisfies metadataHash entries := by
  cases hrule : loose.policy.entryRule with
  | any =>
    obtain ⟨entry, hentry, hpass⟩ := exists_of_satisfies h
    rw [satisfies, hrule]
    exact ⟨entry, hentry, hstore.failedGate?_eq_none hpass⟩
  | all =>
    -- This is not the rule that lets one entry suffice, so it is the stricter one's.
    have hsame : strict.policy.entryRule = .all := by
      rcases hpolicy.entryRule with hany | heq
      · rw [hrule] at hany
        cases hany
      · rw [← heq, hrule]
    rw [satisfies, hsame] at h
    obtain ⟨hne, hall⟩ := h
    rw [satisfies, hrule]
    refine ⟨hne, ?_⟩
    intro entry hentry
    exact hstore.failedGate?_eq_none (hall entry hentry)

/-- An image with the good verdict of a strict verifier has that of a looser one. -/
theorem verify_passed_of_looser (hpolicy : loose.policy.LooserThan strict.policy)
    (hstore : loose.store.Extends strict.store) {image : Bytes}
    (h : strict.verify image = .passed) : loose.verify image = .passed := by
  obtain ⟨location, descriptor, hfind, hparse, hsatisfies⟩ := verify_eq_passed_iff.1 h
  apply verify_eq_passed_iff.2
  exact ⟨location, descriptor, hfind, Descriptor.parse_of_within hpolicy.limits hparse,
    satisfies_of_looser hpolicy hstore hsatisfies⟩

/-- A verifier with a looser policy and further logs gives the good verdict on every image that a
stricter one gives it on, and refuses none that the stricter one does not refuse. -/
theorem loosening_never_rejects (hpolicy : loose.policy.LooserThan strict.policy)
    (hstore : loose.store.Extends strict.store) (image : Bytes) :
    (strict.verify image = .passed → loose.verify image = .passed) ∧
      (strict.enforce image = .ok () → loose.enforce image = .ok ()) := by
  have hverify : strict.verify image = .passed → loose.verify image = .passed :=
    verify_passed_of_looser hpolicy hstore
  refine ⟨hverify, ?_⟩
  intro henforce
  rcases Policy.accept_eq_ok_iff.1 henforce with hpassed | ⟨hmissing, hoptional⟩
  · exact Policy.accept_eq_ok_iff.2 (.inl (hverify hpassed))
  · apply Policy.accept_eq_ok_iff.2
    refine .inr ⟨verify_of_magic_absent (verify_eq_noDescriptor_iff.1 hmissing), ?_⟩
    rcases hpolicy.missingRule with hrule | hrule
    · exact hrule
    · rw [hrule, hoptional]

/-- The sample's verifier with another log in front of its own, and looser in all that its policy
says. -/
def looseSampleVerifier : Verifier where
  store := ⟨[⟨"other", .rsa sampleKey⟩, ⟨"log", .rsa sampleKey⟩], by decide⟩
  policy := ⟨.any, .accumulate, .optional, ⟨257, 4096, 65536, 2048⟩⟩

/-- The sample's image is accepted by a verifier that is looser in every respect. -/
theorem loosening_never_rejects_sample :
    looseSampleVerifier.policy.LooserThan sampleVerifier.policy ∧
      looseSampleVerifier.store.Extends sampleVerifier.store ∧
      sampleVerifier.verify sampleImage = .passed ∧
      looseSampleVerifier.verify sampleImage = .passed ∧
      looseSampleVerifier.enforce sampleImage = .ok () := by
  have hpolicy : looseSampleVerifier.policy.LooserThan sampleVerifier.policy :=
    ⟨.inl rfl, .inl rfl, ⟨by decide, by decide, by decide, by decide⟩⟩
  have hstore : looseSampleVerifier.store.Extends sampleVerifier.store :=
    ⟨[⟨"other", .rsa sampleKey⟩], List.Perm.swap _ _ []⟩
  have hverify : sampleVerifier.verify sampleImage = .passed := by decide +kernel
  have henforce : sampleVerifier.enforce sampleImage = .ok () := by
    rw [enforce, hverify]
    rfl
  obtain ⟨hpassed, haccepted⟩ := loosening_never_rejects hpolicy hstore sampleImage
  exact ⟨hpolicy, hstore, hverify, hpassed hverify, haccepted henforce⟩

end Verifier

end FirmwareTransparency
