import FirmwareTransparency.Json.Decode
import FirmwareTransparency.Key.PublicKey

/-!
# Trust stores

A trust store is a list of logs, each known by an identity that no other of them has, with its
public key. It is given as a JSON document, keys being base64 or text blocks.
-/

set_option autoImplicit false

namespace FirmwareTransparency

/-- A log that is trusted. -/
structure TrustedLog where
  identity : String
  key : PublicKey
  deriving DecidableEq

/-- The logs that are trusted. -/
structure TrustStore where
  logs : List TrustedLog
  distinct : (logs.map TrustedLog.identity).Nodup

/-- The first name in a list that has occurred before, be it in the list or among those seen
already. -/
def firstRepeated? (seen : List String) : List String → Option String
  | [] => none
  | name :: names => if name ∈ seen then some name else firstRepeated? (name :: seen) names

/-- No name is found to be repeated exactly if the names are distinct and none was seen before. -/
theorem firstRepeated?_eq_none_iff {seen names : List String} :
    firstRepeated? seen names = none ↔ names.Nodup ∧ ∀ name ∈ names, name ∉ seen := by
  induction names generalizing seen with
  | nil => simp [firstRepeated?]
  | cons name names ih =>
    by_cases h : name ∈ seen
    · simp [firstRepeated?, h]
    · rw [firstRepeated?, if_neg h, ih]
      simp only [List.nodup_cons, List.mem_cons, not_or, forall_eq_or_imp]
      constructor
      · rintro ⟨hnodup, hall⟩
        exact ⟨⟨fun hmem => (hall name hmem).1 rfl, hnodup⟩, h, fun n hn => (hall n hn).2⟩
      · rintro ⟨⟨hmem, hnodup⟩, -, hall⟩
        exact ⟨hnodup, fun n hn => ⟨fun heq => hmem (heq ▸ hn), hall n hn⟩⟩

/-- Why a signature over a log root is not accepted. -/
inductive SignatureFailure where
  | unknownLog
  | invalid
  deriving DecidableEq

namespace TrustStore

/-- The store of the given logs, if no two of them have one identity. -/
def ofLogs (logs : List TrustedLog) : Except Error TrustStore :=
  match h : firstRepeated? [] (logs.map TrustedLog.identity) with
  | none => .ok ⟨logs, (firstRepeated?_eq_none_iff.1 h).1⟩
  | some identity => .error (.duplicateLog identity)

/-- The log with an identity. -/
def get? (store : TrustStore) (identity : String) : Option TrustedLog :=
  store.logs.find? (fun log => log.identity == identity)

/-- How many logs there are. -/
def size (store : TrustStore) : Nat := store.logs.length

/-- Whether there is no log. -/
def isEmpty (store : TrustStore) : Bool := store.logs.isEmpty

/-- Checks a log's signature over a message. -/
def checkSignature (store : TrustStore) (identity : String) (message signature : Bytes) :
    Except SignatureFailure Unit :=
  match store.get? identity with
  | none => .error .unknownLog
  | some log => if log.key.verify message signature then .ok () else .error .invalid

/-- A log as it stands in a document. -/
structure LogText where
  identity : String
  algorithm : Algorithm
  key : String
  deriving DecidableEq

/-- A log while it is read. -/
structure LogDraft where
  identity : Option String
  algorithm : Option Algorithm
  key : Option String
  deriving DecidableEq

/-- A log in a document: three required members and no other. -/
def logShape : Json.Shape LogDraft LogText where
  fields :=
    [{ name := "identity"
       isSet := fun draft => draft.identity.isSome
       read := fun draft bytes => do
         let (identity, rest) ← Json.text bytes
         return ({ draft with identity := some identity }, rest) },
      { name := "algorithm"
        isSet := fun draft => draft.algorithm.isSome
        read := fun draft bytes => do
          let (algorithm, rest) ← Json.choice Algorithm.names bytes
          return ({ draft with algorithm := some algorithm }, rest) },
      { name := "public_key"
        isSet := fun draft => draft.key.isSome
        read := fun draft bytes => do
          let (key, rest) ← Json.text bytes
          return ({ draft with key := some key }, rest) }]
  blank := ⟨none, none, none⟩
  strict := true
  finish := fun draft =>
    match draft.identity, draft.algorithm, draft.key with
    | none, _, _ => .error "identity"
    | some _, none, _ => .error "algorithm"
    | some _, some _, none => .error "public_key"
    | some identity, some algorithm, some key => .ok ⟨identity, algorithm, key⟩

/-- A document: one required member with the list of logs and no other. -/
def documentDecoder : Json.Decoder (List LogText) :=
  Json.record (Json.single "logs" true (Json.list (Json.record logShape)))

/-- What a key given as a text block starts with. -/
def blockMark : Bytes := Text.utf8 "-----BEGIN"

/-- Reads a key as it stands in a document, ignoring white space around it: a text block, or else
base64. -/
def readKey (algorithm : Algorithm) (text : String) : Except Error PublicKey :=
  let trimmed := Text.trim text
  if blockMark.isPrefixOf (Text.utf8 trimmed) then
    (PublicKey.ofPem algorithm trimmed).mapError .key
  else
    match Base64.decode (Text.utf8 trimmed) with
    | .error cause => .error (.base64 cause)
    | .ok bytes => (PublicKey.ofBytes algorithm bytes).mapError .key

/-- Reads a log as it stands in a document. -/
def readLog (log : LogText) : Except Error TrustedLog := do
  let key ← readKey log.algorithm log.key
  return ⟨log.identity, key⟩

/-- Reads a trust store from its document. All keys are read before identities are compared. -/
def ofDocument (document : String) : Except Error TrustStore := do
  let texts ← (Json.document documentDecoder (Text.utf8 document)).mapError .json
  let logs ← texts.mapM readLog
  ofLogs logs

/-- Reads a trust store from the bytes of a file, which must be there and hold valid text. -/
def ofFile (file : Option Bytes) : Except Error TrustStore :=
  match file.bind Text.ofUtf8? with
  | some document => ofDocument document
  | none => .error .io

/-- Where no two logs share an identity, looking one up finds the log that has it. -/
theorem find?_identity_eq_some_iff {logs : List TrustedLog} {identity : String} {log : TrustedLog}
    (hnodup : (logs.map TrustedLog.identity).Nodup) :
    logs.find? (fun log => log.identity == identity) = some log ↔
      log ∈ logs ∧ log.identity = identity := by
  induction logs with
  | nil => simp
  | cons head tail ih =>
    rw [List.map_cons, List.nodup_cons] at hnodup
    by_cases h : head.identity = identity
    · rw [List.find?_cons_of_pos (by simpa using h)]
      constructor
      · intro heq
        cases heq
        exact ⟨List.mem_cons_self, h⟩
      · rintro ⟨hmem, hid⟩
        rcases List.mem_cons.1 hmem with rfl | hmem
        · rfl
        · exact absurd (List.mem_map.2 ⟨log, hmem, by rw [hid, h]⟩) hnodup.1
    · rw [List.find?_cons_of_neg (by simpa using h), ih hnodup.2]
      constructor
      · rintro ⟨hmem, hid⟩
        exact ⟨List.mem_cons_of_mem _ hmem, hid⟩
      · rintro ⟨hmem, hid⟩
        rcases List.mem_cons.1 hmem with rfl | hmem
        · exact absurd hid h
        · exact ⟨hmem, hid⟩

/-- The store with an identity's log is found exactly if the log is in the store under it. -/
theorem get?_eq_some_iff {store : TrustStore} {identity : String} {log : TrustedLog} :
    store.get? identity = some log ↔ log ∈ store.logs ∧ log.identity = identity :=
  find?_identity_eq_some_iff store.distinct

end TrustStore

end FirmwareTransparency
