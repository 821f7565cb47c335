import FirmwareTransparency.Proofs.Json.Reads
import FirmwareTransparency.Proofs.Verify.TrustedLogs

/-!
# Stores from sources

A source gives the parts of a log, and its key may be rejected. Sources make a store together only
if each of them makes a log and no identity is repeated. Main statements: `ofSources_eq_ok_iff` says
which store they make, and `ofSources_eq_error_iff` which error comes first if they make none.
-/

set_option autoImplicit false

namespace FirmwareTransparency

/-! ## Going through a list -/

section mapM

variable {α β γ ε : Type} {f : α → Except ε β} {g : γ → Except ε β} {list : List α}

/-- A run over a list succeeds exactly with the results of its items, in their order. -/
theorem mapM_eq_ok_iff {results : List β} :
    list.mapM f = .ok results ↔ List.Forall₂ (fun a b => f a = .ok b) list results := by
  induction list generalizing results with
  | nil =>
    rw [List.mapM_nil, List.forall₂_nil_left_iff]
    constructor
    · intro h
      cases h
      rfl
    · rintro rfl
      rfl
  | cons a list ih =>
    simp only [List.mapM_cons, Json.bind_eq_ok_iff, ih]
    constructor
    · rintro ⟨b, hb, rest, hrest, heq⟩
      cases heq
      exact .cons hb hrest
    · rintro (_ | ⟨hb, hrest⟩)
      exact ⟨_, hb, _, hrest, rfl⟩

/-- A run over a list succeeds exactly if it does for each of its items. -/
theorem exists_mapM_eq_ok_iff :
    (∃ results, list.mapM f = .ok results) ↔ ∀ a ∈ list, ∃ b, f a = .ok b := by
  simp only [mapM_eq_ok_iff]
  induction list with
  | nil => exact ⟨fun _ => List.forall_mem_nil _, fun _ => ⟨[], .nil⟩⟩
  | cons a list ih =>
    rw [List.forall_mem_cons, ← ih]
    constructor
    · rintro ⟨_, _ | ⟨hb, hrest⟩⟩
      exact ⟨⟨_, hb⟩, _, hrest⟩
    · rintro ⟨⟨b, hb⟩, rest, hrest⟩
      exact ⟨b :: rest, .cons hb hrest⟩

/-- An error is that of the first element that has one. -/
theorem exists_of_mapM_eq_error {e : ε} (h : list.mapM f = .error e) :
    ∃ front a back, list = front ++ a :: back ∧ (∀ earlier ∈ front, ∃ b, f earlier = .ok b) ∧
      f a = .error e := by
  induction list with
  | nil => cases h
  | cons a list ih =>
    rw [List.mapM_cons] at h
    cases ha : f a with
    | error cause =>
      rw [ha] at h
      cases h
      exact ⟨[], a, list, rfl, List.forall_mem_nil _, ha⟩
    | ok b =>
      have hlist : list.mapM f = .error e := by
        rw [ha] at h
        cases hrest : list.mapM f with
        | error cause =>
          rw [hrest] at h
          cases h
          rfl
        | ok rest =>
          rw [hrest] at h
          cases h
      obtain ⟨front, bad, back, rfl, hfront, hbad⟩ := ih hlist
      exact ⟨a :: front, bad, back, rfl, List.forall_mem_cons.2 ⟨⟨b, ha⟩, hfront⟩, hbad⟩

/-- A run over a list ends at the first item that fails, with its error. -/
theorem mapM_of_first_error {front back : List α} {a : α} {e : ε}
    (hfront : ∀ earlier ∈ front, ∃ b, f earlier = .ok b) (ha : f a = .error e) :
    (front ++ a :: back).mapM f = .error e := by
  induction front with
  | nil =>
    rw [List.nil_append, List.mapM_cons, ha]
    rfl
  | cons first front ih =>
    obtain ⟨⟨b, hb⟩, hfront⟩ := List.forall_mem_cons.1 hfront
    rw [List.cons_append, List.mapM_cons, hb, ih hfront]
    rfl

/-- Two runs over lists that go alike item by item end alike. -/
theorem mapM_congr {others : List γ}
    (h : List.Forall₂ (fun a c => f a = g c) list others) : list.mapM f = others.mapM g := by
  induction h with
  | nil => rfl
  | cons hhead _ ih => rw [List.mapM_cons, List.mapM_cons, hhead, ih]

end mapM

namespace TrustStore

/-! ## Sources -/

/-- What a trusted log is made from. -/
structure LogSource where
  identity : String
  algorithm : Algorithm
  /-- The bytes of the key. -/
  bytes : Bytes

/-- The log that a source makes, if its key is accepted. -/
def LogSource.log (source : LogSource) : Except Error TrustedLog := do
  let key ← (PublicKey.ofBytes source.algorithm source.bytes).mapError .key
  return ⟨source.identity, key⟩

/-- The store of the logs that sources make. -/
def ofSources (sources : List LogSource) : Except Error TrustStore := do
  let logs ← sources.mapM LogSource.log
  ofLogs logs

/-- A log with the identity of its source and the key that the bytes are read as. -/
structure LogSource.Makes (source : LogSource) (log : TrustedLog) : Prop where
  identity : log.identity = source.identity
  key : PublicKey.ofBytes source.algorithm source.bytes = .ok log.key

/-- Why sources make no store: the first key that is rejected, or else the first identity that has
occurred before. -/
inductive Refused (sources : List LogSource) : Error → Prop where
  | key {front back : List LogSource} {source : LogSource} {cause : KeyError}
      (hsources : sources = front ++ source :: back)
      (hfront : ∀ earlier ∈ front, ∃ log, earlier.Makes log)
      (hkey : PublicKey.ofBytes source.algorithm source.bytes = .error cause) :
      Refused sources (.key cause)
  | duplicate {front back : List String} {identity : String}
      (hkeys : ∀ source ∈ sources, ∃ log, source.Makes log)
      (hidentities : sources.map LogSource.identity = front ++ identity :: back)
      (hfront : front.Nodup) (hidentity : identity ∈ front) :
      Refused sources (.duplicateLog identity)

variable {source : LogSource} {sources : List LogSource} {log : TrustedLog} {e : Error}

/-- A source makes a log exactly if its key is accepted. -/
theorem LogSource.log_eq_ok_iff : source.log = .ok log ↔ source.Makes log := by
  unfold LogSource.log
  cases hkey : PublicKey.ofBytes source.algorithm source.bytes with
  | error cause =>
    constructor
    · intro h
      cases h
    · intro h
      have hok := h.key
      rw [hkey] at hok
      cases hok
  | ok key =>
    constructor
    · intro h
      cases h
      exact ⟨rfl, hkey⟩
    · intro h
      have hok := h.key
      rw [hkey] at hok
      obtain ⟨identity, logKey⟩ := log
      obtain rfl : identity = source.identity := h.identity
      obtain rfl := Except.ok.inj hok
      rfl

/-- A source makes no log exactly if its key is rejected, and for that reason. -/
theorem LogSource.log_eq_error_iff :
    source.log = .error e ↔
      ∃ cause, PublicKey.ofBytes source.algorithm source.bytes = .error cause ∧ e = .key cause := by
  unfold LogSource.log
  cases PublicKey.ofBytes source.algorithm source.bytes with
  | error cause => simp [Except.mapError, bind, Except.bind, eq_comm]
  | ok key => simp [Except.mapError, bind, Except.bind, pure, Except.pure]

/-- Sources make logs exactly if each of them makes one. -/
theorem mapM_log_eq_ok_iff {logs : List TrustedLog} :
    sources.mapM LogSource.log = .ok logs ↔ List.Forall₂ LogSource.Makes sources logs := by
  simp only [mapM_eq_ok_iff, LogSource.log_eq_ok_iff]

/-- Sources make the store of the logs that they make one by one. -/
theorem ofSources_eq_ok_iff {store : TrustStore} :
    ofSources sources = .ok store ↔ List.Forall₂ LogSource.Makes sources store.logs := by
  simp only [ofSources, Json.bind_eq_ok_iff, mapM_log_eq_ok_iff, ofLogs_eq_ok_iff, exists_eq_right']

/-- The logs that sources make have the identities of the sources. -/
theorem identities_eq {logs : List TrustedLog} (h : List.Forall₂ LogSource.Makes sources logs) :
    logs.map TrustedLog.identity = sources.map LogSource.identity := by
  induction h with
  | nil => rfl
  | cons hmakes _ ih => rw [List.map_cons, List.map_cons, hmakes.identity, ih]

/-- Logs make no store exactly for the first identity that has occurred before. -/
theorem ofLogs_eq_error_iff_identities {logs : List TrustedLog} :
    ofLogs logs = .error e ↔
      ∃ front identity back, logs.map TrustedLog.identity = front ++ identity :: back ∧
        front.Nodup ∧ identity ∈ front ∧ e = .duplicateLog identity := by
  rw [ofLogs_eq_error_iff]
  constructor
  · rintro ⟨front, log, back, rfl, hnodup, hmem, rfl⟩
    exact ⟨_, log.identity, back.map TrustedLog.identity, by simp, hnodup, hmem, rfl⟩
  · rintro ⟨front, identity, back, hidentities, hnodup, hmem, rfl⟩
    obtain ⟨first, rest, rfl, rfl, hrest⟩ := List.map_eq_append_iff.1 hidentities
    obtain ⟨log, last, rfl, rfl, -⟩ := List.map_eq_cons_iff.1 hrest
    exact ⟨first, log, last, rfl, hnodup, hmem, rfl⟩

/-- Sources make no store exactly for the first reason to refuse them, keys in front of identities.
-/
theorem ofSources_eq_error_iff : ofSources sources = .error e ↔ Refused sources e := by
  constructor
  · intro h
    unfold ofSources at h
    -- All keys are read before any log is taken in, so a bad key comes before a repeated log.
    cases hlogs : sources.mapM LogSource.log with
    | error cause =>
      rw [hlogs] at h
      cases h
      obtain ⟨front, source, back, hsources, hfront, hlog⟩ := exists_of_mapM_eq_error hlogs
      obtain ⟨cause, hkey, rfl⟩ := LogSource.log_eq_error_iff.1 hlog
      simp only [LogSource.log_eq_ok_iff] at hfront
      exact .key hsources hfront hkey
    | ok logs =>
      rw [hlogs] at h
      obtain ⟨front, identity, back, hidentities, hnodup, hmem, rfl⟩ :=
        ofLogs_eq_error_iff_identities.1 h
      have hkeys := exists_mapM_eq_ok_iff.1 ⟨logs, hlogs⟩
      simp only [LogSource.log_eq_ok_iff] at hkeys
      rw [identities_eq (mapM_log_eq_ok_iff.1 hlogs)] at hidentities
      exact .duplicate hkeys hidentities hnodup hmem
  · intro h
    cases h with
    | key hsources hfront hkey =>
      subst hsources
      simp only [← LogSource.log_eq_ok_iff] at hfront
      rw [ofSources, mapM_of_first_error hfront (LogSource.log_eq_error_iff.2 ⟨_, hkey, rfl⟩)]
      rfl
    | duplicate hkeys hidentities hfront hidentity =>
      simp only [← LogSource.log_eq_ok_iff] at hkeys
      obtain ⟨logs, hlogs⟩ := exists_mapM_eq_ok_iff.2 hkeys
      rw [← identities_eq (mapM_log_eq_ok_iff.1 hlogs)] at hidentities
      rw [ofSources, hlogs]
      exact ofLogs_eq_error_iff_identities.2 ⟨_, _, _, hidentities, hfront, hidentity, rfl⟩

end TrustStore

end FirmwareTransparency
