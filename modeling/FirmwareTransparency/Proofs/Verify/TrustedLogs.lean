import FirmwareTransparency.Proofs.Verify.Soundness
import FirmwareTransparency.Proofs.Verify.Verdict

/-!
# Which trusted logs matter

A trust store is a set of logs with an identity each: no identity stands in it twice, so a lookup
depends neither on the order of the logs nor on logs of other identities. A report on an image asks
only for the logs that the descriptor names. Main statement: `store_is_keyed_by_identity`.
-/

set_option autoImplicit false

namespace FirmwareTransparency

/-! ## Building a store -/

section firstRepeated

variable {seen front names : List String} {name : String}

/-- Names that have not occurred before are passed over and have occurred from then on. -/
theorem firstRepeated?_append (hnodup : front.Nodup) (hfresh : ∀ earlier ∈ front, earlier ∉ seen)
    (names : List String) :
    firstRepeated? seen (front ++ names) = firstRepeated? (front.reverse ++ seen) names := by
  induction front generalizing seen with
  | nil => rfl
  | cons head front ih =>
    obtain ⟨hhead, hnodup⟩ := List.nodup_cons.1 hnodup
    obtain ⟨hseen, hfresh⟩ := List.forall_mem_cons.1 hfresh
    rw [List.cons_append, firstRepeated?, if_neg hseen, ih hnodup]
    · rw [List.reverse_cons, List.append_assoc, List.singleton_append]
    · intro earlier hearlier
      rw [List.mem_cons, not_or]
      exact ⟨fun heq => hhead (heq ▸ hearlier), hfresh earlier hearlier⟩

/-- The name that is found to be repeated has occurred before, and no name in front of it has. -/
theorem exists_of_firstRepeated? (h : firstRepeated? seen names = some name) :
    ∃ front back, names = front ++ name :: back ∧ front.Nodup ∧
      (∀ earlier ∈ front, earlier ∉ seen) ∧ (name ∈ seen ∨ name ∈ front) := by
  induction names generalizing seen with
  | nil => cases h
  | cons head names ih =>
    rw [firstRepeated?] at h
    by_cases hseen : head ∈ seen
    · rw [if_pos hseen] at h
      obtain rfl := Option.some.inj h
      exact ⟨[], names, rfl, List.nodup_nil, by simp, .inl hseen⟩
    · rw [if_neg hseen] at h
      obtain ⟨front, back, rfl, hnodup, hfresh, hname⟩ := ih h
      have hhead : head ∉ front := fun hmem => hfresh head hmem List.mem_cons_self
      refine ⟨head :: front, back, rfl, List.nodup_cons.2 ⟨hhead, hnodup⟩, ?_, ?_⟩
      · intro earlier hearlier
        rcases List.mem_cons.1 hearlier with rfl | hmem
        · exact hseen
        · exact List.not_mem_of_not_mem_cons (hfresh earlier hmem)
      · rw [List.mem_cons] at hname ⊢
        tauto

end firstRepeated

namespace TrustStore

variable {store other : TrustStore} {logs : List TrustedLog}

/-- Logs make a store exactly if it is the store of these logs. -/
theorem ofLogs_eq_ok_iff : ofLogs logs = .ok store ↔ store.logs = logs := by
  unfold ofLogs
  constructor
  · intro h
    split at h
    · cases h
      rfl
    · cases h
  · rintro rfl
    have hnone : firstRepeated? [] (store.logs.map TrustedLog.identity) = none :=
      firstRepeated?_eq_none_iff.2 ⟨store.distinct, by simp⟩
    split
    · rfl
    · next identity hsome =>
      rw [hnone] at hsome
      cases hsome

/-- Logs make a store exactly if their identities are distinct. -/
theorem exists_ofLogs_iff :
    (∃ store, ofLogs logs = .ok store) ↔ (logs.map TrustedLog.identity).Nodup := by
  constructor
  · rintro ⟨store, h⟩
    rw [← ofLogs_eq_ok_iff.1 h]
    exact store.distinct
  · intro hnodup
    exact ⟨⟨logs, hnodup⟩, ofLogs_eq_ok_iff.2 rfl⟩

/-- A list is refused for the first log of which the identity has occurred before. -/
theorem ofLogs_eq_error_iff {e : Error} :
    ofLogs logs = .error e ↔
      ∃ front log back, logs = front ++ log :: back ∧
        (front.map TrustedLog.identity).Nodup ∧
        log.identity ∈ front.map TrustedLog.identity ∧ e = .duplicateLog log.identity := by
  have hofLogs : ofLogs logs = .error e ↔
      ∃ identity, firstRepeated? [] (logs.map TrustedLog.identity) = some identity ∧
        e = .duplicateLog identity := by
    unfold ofLogs
    split
    · next hnone => simp [hnone]
    · next identity hsome => simp [hsome, eq_comm]
  rw [hofLogs]
  constructor
  · rintro ⟨identity, hrepeated, rfl⟩
    obtain ⟨front, back, hlogs, hnodup, -, hname⟩ := exists_of_firstRepeated? hrepeated
    obtain ⟨first, rest, rfl, rfl, hrest⟩ := List.map_eq_append_iff.1 hlogs
    obtain ⟨log, last, rfl, rfl, -⟩ := List.map_eq_cons_iff.1 hrest
    exact ⟨first, log, last, rfl, hnodup, by simpa using hname, rfl⟩
  · rintro ⟨front, log, back, rfl, hnodup, hmem, rfl⟩
    refine ⟨log.identity, ?_, rfl⟩
    rw [List.map_append, List.map_cons, firstRepeated?_append hnodup (by simp), firstRepeated?,
      if_pos (by simpa using hmem)]

/-! ## Stores that agree on an identity -/

/-- Two stores have one key for an identity, or neither has one. -/
def AgreeOn (store other : TrustStore) (identity : String) : Prop :=
  (store.get? identity).map TrustedLog.key = (other.get? identity).map TrustedLog.key

/-- Stores with the same logs of an identity agree on it. -/
theorem agreeOn_of_mem_iff {identity : String}
    (h : ∀ log : TrustedLog, log.identity = identity → (log ∈ store.logs ↔ log ∈ other.logs)) :
    store.AgreeOn other identity := by
  have hget : store.get? identity = other.get? identity := by
    apply Option.ext
    intro log
    rw [get?_eq_some_iff, get?_eq_some_iff]
    exact and_congr_left (h log)
  rw [AgreeOn, hget]

/-- Stores with the same logs in another order agree on every identity. -/
theorem agreeOn_of_perm (h : store.logs.Perm other.logs) (identity : String) :
    store.AgreeOn other identity :=
  agreeOn_of_mem_iff fun _ _ => h.mem_iff

/-- Stores that agree on an identity accept the same signatures for it. -/
theorem AgreeOn.checkSignature_eq {identity : String} (h : store.AgreeOn other identity)
    (message signature : Bytes) :
    store.checkSignature identity message signature =
      other.checkSignature identity message signature := by
  unfold AgreeOn at h
  unfold checkSignature
  cases hleft : store.get? identity with
  | none =>
    rw [hleft, Option.map_none, eq_comm, Option.map_eq_none_iff] at h
    rw [h]
  | some log =>
    rw [hleft, Option.map_some, eq_comm, Option.map_eq_some_iff] at h
    obtain ⟨log', hright, hkey⟩ := h
    rw [hright]
    simp only [hkey]

/-- Stores that agree on an entry's log have the same to say of the entry. -/
theorem AgreeOn.failedGate?_eq {entry : Entry} (h : store.AgreeOn other entry.logUrl)
    (metadataHash : Digest) :
    Verifier.failedGate? store metadataHash entry =
      Verifier.failedGate? other metadataHash entry := by
  unfold Verifier.failedGate?
  rw [h.checkSignature_eq]

end TrustStore

namespace Verifier

open TrustStore

variable {store other : TrustStore} {policy : Policy}

/-! ## Reports -/

/-- The outcomes depend on the store through the checks of the entries alone. -/
theorem outcomesFrom_congr {metadataHash : Digest} {entries : List Entry} (index : Nat)
    (h : ∀ entry ∈ entries, store.AgreeOn other entry.logUrl) :
    outcomesFrom ⟨store, policy⟩ metadataHash index entries =
      outcomesFrom ⟨other, policy⟩ metadataHash index entries := by
  induction entries generalizing index with
  | nil => rfl
  | cons entry entries ih =>
    obtain ⟨hentry, hentries⟩ := List.forall_mem_cons.1 h
    have hgate := hentry.failedGate?_eq metadataHash
    have hrest := ih (index + 1) hentries
    simp only [outcomesFrom, hgate, hrest]

/-- Stores that agree on the logs that the descriptor of an image names lead to the same report. -/
theorem report_congr {image : Bytes}
    (h : ∀ location descriptor, Reads policy.limits image location descriptor →
      ∀ entry ∈ descriptor.entries, store.AgreeOn other entry.logUrl) :
    report ⟨store, policy⟩ image = report ⟨other, policy⟩ image := by
  cases hfind : findDescriptor image with
  | none => simp only [report, hfind]
  | some location =>
    cases hparse : Descriptor.parse policy.limits (location.descriptor image) with
    | error cause => simp only [report, hfind, reportDescriptor, hparse]
    | ok descriptor =>
      have hagree := h location descriptor ⟨hfind, hparse⟩
      simp only [report, hfind, reportDescriptor, hparse, reportEntries,
        outcomesFrom_congr 0 hagree]

/-- A list of logs is a store exactly if their identities are distinct, and else it is refused for
the first that has occurred before. A store holds a log under its identity and nothing else. The
report on an image is the same with any two stores that have the same keys for the logs that its
descriptor names, so it depends neither on the order of the logs nor on any others. -/
theorem store_is_keyed_by_identity :
    (∀ logs : List TrustedLog,
      ((∃ store, ofLogs logs = .ok store) ↔ (logs.map TrustedLog.identity).Nodup) ∧
        (∀ e, ofLogs logs = .error e ↔
          ∃ front log back, logs = front ++ log :: back ∧
            (front.map TrustedLog.identity).Nodup ∧
            log.identity ∈ front.map TrustedLog.identity ∧ e = .duplicateLog log.identity) ∧
        ∀ store, ofLogs logs = .ok store → ∀ identity log,
          store.get? identity = some log ↔ log ∈ logs ∧ log.identity = identity) ∧
      ∀ (store other : TrustStore) (policy : Policy) (image : Bytes),
        ((∀ location descriptor, Reads policy.limits image location descriptor →
            ∀ entry ∈ descriptor.entries, store.AgreeOn other entry.logUrl) →
          report ⟨store, policy⟩ image = report ⟨other, policy⟩ image) ∧
        (store.logs.Perm other.logs →
          report ⟨store, policy⟩ image = report ⟨other, policy⟩ image) ∧
        ((∀ location descriptor, Reads policy.limits image location descriptor →
            ∀ entry ∈ descriptor.entries, ∀ log : TrustedLog, log.identity = entry.logUrl →
              (log ∈ store.logs ↔ log ∈ other.logs)) →
          report ⟨store, policy⟩ image = report ⟨other, policy⟩ image) := by
  constructor
  · intro logs
    refine ⟨exists_ofLogs_iff, fun e => ofLogs_eq_error_iff, ?_⟩
    intro store hstore identity log
    rw [← ofLogs_eq_ok_iff.1 hstore]
    exact get?_eq_some_iff
  · intro store other policy image
    refine ⟨report_congr, ?_, ?_⟩
    · intro hperm
      exact report_congr fun _ _ _ entry _ => agreeOn_of_perm hperm entry.logUrl
    · intro hlogs
      apply report_congr
      intro location descriptor hreads entry hentry
      exact agreeOn_of_mem_iff (hlogs location descriptor hreads entry hentry)

/-- The sample's log behind another one. -/
def sampleLogs : List TrustedLog := [⟨"other", .rsa sampleKey⟩, ⟨"log", .rsa sampleKey⟩]

/-- The descriptor of the sample names one of two logs, so their order has no part in the report and
the other log may go. -/
theorem store_is_keyed_by_identity_sample :
    ofLogs (sampleLogs ++ [⟨"log", .rsa sampleKey⟩]) = .error (.duplicateLog "log") ∧
      ∃ store swapped, ofLogs sampleLogs = .ok store ∧ ofLogs sampleLogs.reverse = .ok swapped ∧
        store.get? "log" = some ⟨"log", .rsa sampleKey⟩ ∧
        Reads .standard sampleImage ⟨2, 499⟩ sampleDescriptor ∧
        store.AgreeOn sampleVerifier.store "log" ∧
        report ⟨swapped, .standard⟩ sampleImage = report ⟨store, .standard⟩ sampleImage ∧
        report ⟨store, .standard⟩ sampleImage = report sampleVerifier sampleImage := by
  obtain ⟨hbuild, hreport⟩ := store_is_keyed_by_identity
  obtain ⟨-, hrefused, -⟩ := hbuild (sampleLogs ++ [⟨"log", .rsa sampleKey⟩])
  obtain ⟨haccepted, -, hlookup⟩ := hbuild sampleLogs
  obtain ⟨hreversed, -⟩ := hbuild sampleLogs.reverse
  obtain ⟨store, hstore⟩ := haccepted.2 (by decide)
  obtain ⟨swapped, hswapped⟩ := hreversed.2 (by decide)
  have hreads : Reads .standard sampleImage ⟨2, 499⟩ sampleDescriptor :=
    ⟨by decide +kernel, by decide +kernel⟩
  have hget : store.get? "log" = some ⟨"log", .rsa sampleKey⟩ :=
    (hlookup store hstore _ _).2 ⟨by simp [sampleLogs], rfl⟩
  have hagree : store.AgreeOn sampleVerifier.store "log" := by
    rw [AgreeOn, hget]
    rfl
  have hperm : swapped.logs.Perm store.logs := by
    rw [ofLogs_eq_ok_iff.1 hstore, ofLogs_eq_ok_iff.1 hswapped]
    exact List.reverse_perm sampleLogs
  refine ⟨?_, store, swapped, hstore, hswapped, hget, hreads, hagree, ?_, ?_⟩
  · exact (hrefused _).2 ⟨sampleLogs, ⟨"log", .rsa sampleKey⟩, [], rfl, by decide, by decide, rfl⟩
  · exact (hreport swapped store .standard sampleImage).2.1 hperm
  · apply (hreport store sampleVerifier.store .standard sampleImage).1
    intro location descriptor hread entry hentry
    obtain rfl := Option.some.inj (hread.1.symm.trans hreads.1)
    obtain rfl := Except.ok.inj (hread.2.symm.trans hreads.2)
    obtain rfl := List.mem_singleton.1 hentry
    exact hagree

end Verifier

end FirmwareTransparency
