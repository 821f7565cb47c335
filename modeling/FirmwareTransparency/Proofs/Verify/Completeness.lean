import FirmwareTransparency.Proofs.Descriptor.Leaf
import FirmwareTransparency.Proofs.Descriptor.Codec
import FirmwareTransparency.Proofs.Descriptor.Locate
import FirmwareTransparency.Proofs.Merkle.AuditPath
import FirmwareTransparency.Proofs.Verify.Entries

/-!
# What is authored correctly verifies

A `Submission` is what an entry is authored from: the leaf that a log was given, the leaves of its
tree, and what it signed. Authoring builds the tree and the proof by recursion over the leaves and
writes documents and descriptors; verifying finds, reads and climbs. Main statement:
`verify_of_genuine` says that the two agree for every tree size, position, text, number of entries
and tail.
-/

set_option autoImplicit false

namespace FirmwareTransparency

open Merkle

/-- What an entry is authored from. -/
structure Submission where
  info : FirmwareInfo
  /-- The data of all leaves of the log's tree. -/
  leaves : List Bytes
  /-- The place of the leaf among them. -/
  index : Nat
  timestamp : UInt64
  revision : UInt64
  rootMetadata : Bytes
  logUrl : String
  signature : Bytes

namespace Submission

/-- The head of the log's tree. -/
def root (submission : Submission) : LogRoot where
  treeSize := UInt64.ofNat submission.leaves.length
  rootHash := (Tree.ofLeaves submission.leaves).root
  timestamp := submission.timestamp
  revision := submission.revision
  metadata := submission.rootMetadata

/-- Authors an entry: writes the leaf, makes the log root, takes the proof from the tree and joins
them. -/
def entry (submission : Submission) : Except FormatError Entry := do
  let tree := Tree.ofLeaves submission.leaves
  let treeSize := UInt64.ofNat tree.size
  let index := UInt64.ofNat submission.index
  let root ← LogRoot.make treeSize tree.root submission.timestamp submission.revision
    submission.rootMetadata
  match tree.path? submission.index with
  | none => throw (.leafIndexOutOfRange index treeSize)
  | some proof =>
    Entry.make submission.logUrl index root (.author submission.info) submission.signature proof

/-- A submission for some metadata that a trusted log has signed: its leaf names the metadata and
stands in the tree, whose size is a number of 64 bits, and all its parts fit the format. -/
structure Genuine (store : TrustStore) (metadata : Bytes) (submission : Submission) : Prop where
  imageHash : submission.info.imageHash = sha256 metadata
  leaf : submission.leaves[submission.index]? = some (Leaf.author submission.info).raw
  length_lt : submission.leaves.length < 2 ^ 64
  signed : ∃ log ∈ store.logs, log.identity = submission.logUrl ∧
    log.key.verify submission.root.encode submission.signature = true
  url : isLogUrl (Text.utf8 submission.logUrl) = true
  url_size : (Text.utf8 submission.logUrl).length ≤ Entry.maxSize32
  root_size : submission.rootMetadata.length ≤ LogRoot.maxMetadataSize
  leaf_size : (Leaf.author submission.info).raw.length ≤ Entry.maxSize32
  signature_size : submission.signature.length ≤ Entry.maxSize16

/-- The entry that a genuine submission leads to. -/
def authored (submission : Submission) : Entry where
  logUrl := submission.logUrl
  leafIndex := UInt64.ofNat submission.index
  logRoot := submission.root
  leaf := .author submission.info
  signature := submission.signature
  proof := pathOver submission.index (submission.leaves.map leafHash)

variable {store : TrustStore} {metadata : Bytes} {submission : Submission}

/-! ## The entry -/

/-- The leaf of a genuine submission stands in the tree. -/
theorem Genuine.index_lt (h : submission.Genuine store metadata) :
    submission.index < submission.leaves.length :=
  (List.getElem?_eq_some_iff.1 h.leaf).1

/-- The index of the entry is the place of the leaf, since a word holds it. -/
theorem Genuine.toNat_index (h : submission.Genuine store metadata) :
    submission.authored.leafIndex.toNat = submission.index :=
  UInt64.toNat_ofNat_of_lt' (h.index_lt.trans h.length_lt)

/-- The tree size of the entry is the number of leaves, since a word holds it. -/
theorem Genuine.toNat_treeSize (h : submission.Genuine store metadata) :
    submission.authored.treeSize.toNat = submission.leaves.length :=
  UInt64.toNat_ofNat_of_lt' h.length_lt

/-- The hash at the place of the leaf is that of the entry's leaf. -/
theorem Genuine.leafHash?_eq (h : submission.Genuine store metadata) :
    (Tree.ofLeaves submission.leaves).leafHash? submission.index =
      some submission.authored.leaf.hash := by
  rw [Tree.leafHash?_ofLeaves, h.leaf]
  rfl

/-- The proof of the entry is the path that the tree gives. -/
theorem Genuine.path?_eq (h : submission.Genuine store metadata) :
    (Tree.ofLeaves submission.leaves).path? submission.index = some submission.authored.proof := by
  rw [Tree.path?, Tree.size_ofLeaves, if_pos h.index_lt]
  rfl

/-- The proof has the length that its position asks for. -/
theorem Genuine.checkPosition (h : submission.Genuine store metadata) :
    checkPosition submission.authored.leafIndex submission.authored.treeSize
      submission.authored.proof.length = .ok () := by
  obtain ⟨hlength, -⟩ := Tree.path?_leads h.leafHash?_eq h.path?_eq
  rw [Tree.size_ofLeaves] at hlength
  rw [Entry.checkPosition_eq_ok_iff, h.toNat_index, h.toNat_treeSize, hlength]

/-- A genuine submission is authored to its entry. -/
theorem Genuine.entry_eq (h : submission.Genuine store metadata) :
    submission.entry = .ok submission.authored := by
  have hroot : LogRoot.make (UInt64.ofNat (Tree.ofLeaves submission.leaves).size)
      (Tree.ofLeaves submission.leaves).root submission.timestamp submission.revision
      submission.rootMetadata = .ok submission.root := by
    rw [Tree.size_ofLeaves]
    exact LogRoot.make_eq_ok_iff.2 ⟨rfl, h.root_size⟩
  have hmake : Entry.make submission.logUrl (UInt64.ofNat submission.index) submission.root
      (.author submission.info) submission.signature submission.authored.proof =
      .ok submission.authored :=
    Entry.make_eq_ok_iff.2
      ⟨⟨h.url, h.url_size, h.leaf_size, h.signature_size, h.checkPosition⟩, rfl⟩
  unfold entry
  simp only [hroot, h.path?_eq, bind, Except.bind, hmake]

/-- The entry of a genuine submission is well formed. -/
theorem Genuine.wellFormed (h : submission.Genuine store metadata) :
    submission.authored.WellFormed where
  url := h.url
  url_size := h.url_size
  root := h.root_size
  leaf := Leaf.author_valid submission.info
  leaf_size := h.leaf_size
  signature_size := h.signature_size
  position := h.checkPosition

/-- The tree's own audit path leads to the tree's root. -/
theorem Genuine.includes (h : submission.Genuine store metadata) :
    includes submission.authored.leaf.hash submission.authored.leafIndex.toNat
      submission.authored.treeSize.toNat submission.authored.proof
      submission.authored.logRoot.rootHash = true := by
  obtain ⟨-, hroot⟩ := Tree.path?_leads h.leafHash?_eq h.path?_eq
  rw [Tree.size_ofLeaves] at hroot
  rw [includes_iff, h.toNat_index, h.toNat_treeSize]
  exact hroot

/-- The entry passes every check. -/
theorem Genuine.failedGate?_eq_none (h : submission.Genuine store metadata) :
    Verifier.failedGate? store (sha256 metadata) submission.authored = none :=
  Verifier.failedGate?_eq_none_iff.2
    ⟨h.imageHash, h.includes, TrustStore.checkSignature_eq_ok_iff.2 h.signed⟩

end Submission

/-! ## The image -/

/-- A run over a list whose items all succeed gives their results. -/
theorem mapM_eq_ok_map {α β ε : Type} {f : α → Except ε β} {g : α → β} {list : List α}
    (h : ∀ a ∈ list, f a = .ok (g a)) : list.mapM f = .ok (list.map g) := by
  induction list with
  | nil => rfl
  | cons a list ih =>
    obtain ⟨ha, hlist⟩ := List.forall_mem_cons.1 h
    rw [List.mapM_cons, ha, ih hlist]
    rfl

namespace Verifier

variable {verifier : Verifier} {metadata : Bytes}

/-- Entries that all pass satisfy either rule. -/
theorem satisfies_of_forall {metadataHash : Digest} {entries : List Entry} (hne : entries ≠ [])
    (h : ∀ entry ∈ entries, failedGate? verifier.store metadataHash entry = none) :
    verifier.satisfies metadataHash entries := by
  unfold satisfies
  cases verifier.policy.entryRule with
  | all => exact ⟨hne, h⟩
  | any =>
    obtain ⟨entry, rest, rfl⟩ := List.exists_cons_of_ne_nil hne
    exact ⟨entry, List.mem_cons_self, h entry List.mem_cons_self⟩

/-- Behind metadata without the magic, a well-formed descriptor is found and read, whatever follows
it. -/
theorem verify_append_encode {descriptor : Descriptor} (hformed : descriptor.WellFormed)
    (hvalid : descriptor.validate verifier.policy.limits = .ok ())
    (hmagic : ¬Descriptor.magic <:+: metadata)
    (hsatisfies : verifier.satisfies (sha256 metadata) descriptor.entries) (tail : Bytes) :
    verifier.verify (metadata ++ (descriptor.header.encode ++ descriptor.body) ++ tail) =
      .passed := by
  have hstart : Descriptor.magic <+: descriptor.header.encode ++ descriptor.body ++ tail := by
    simp only [Descriptor.Header.encode, List.append_assoc]
    exact List.prefix_append _ _
  rw [List.append_assoc]
  refine verify_eq_passed_iff.2 ⟨_, descriptor, findDescriptor_append hmagic hstart, ?_, ?_⟩
  · rw [Location.descriptor, List.drop_left]
    exact Descriptor.parse_eq_ok_iff.2 ⟨⟨hformed, hvalid⟩, tail, rfl⟩
  · rw [Location.metadata, List.take_left]
    exact hsatisfies

/-- Genuine submissions for one metadata string are authored as entries, and an image with a
descriptor over these entries is accepted under every policy whose limits allow the descriptor. -/
theorem verify_of_genuine {submissions : List Submission}
    (hmagic : ¬Descriptor.magic <:+: metadata) (hne : submissions ≠ [])
    (hgenuine : ∀ submission ∈ submissions, submission.Genuine verifier.store metadata) :
    ∃ entries, submissions.mapM Submission.entry = .ok entries ∧
      ∀ descriptor, Descriptor.ofEntries entries = .ok descriptor →
        descriptor.validate verifier.policy.limits = .ok () →
          ∃ encoded, descriptor.encode = .ok encoded ∧
            ∀ tail, verifier.verify (metadata ++ encoded ++ tail) = .passed ∧
              verifier.enforce (metadata ++ encoded ++ tail) = .ok () := by
  have hentries := mapM_eq_ok_map fun submission hmem => (hgenuine submission hmem).entry_eq
  refine ⟨_, hentries, fun descriptor hdescriptor hvalid => ?_⟩
  have hformed : descriptor.WellFormed := by
    refine Descriptor.wellFormed_of_ofEntries ?_ hdescriptor
    intro entry hentry
    obtain ⟨submission, hmem, rfl⟩ := List.mem_map.1 hentry
    exact (hgenuine submission hmem).wellFormed
  have hsatisfies : verifier.satisfies (sha256 metadata) descriptor.entries := by
    obtain ⟨-, rfl⟩ := Descriptor.ofEntries_eq_ok_iff.1 hdescriptor
    refine satisfies_of_forall (by simpa using hne) ?_
    intro entry hentry
    obtain ⟨submission, hmem, rfl⟩ := List.mem_map.1 hentry
    exact (hgenuine submission hmem).failedGate?_eq_none
  refine ⟨_, hformed.encode_eq, fun tail => ?_⟩
  have hverify := verify_append_encode hformed hvalid hmagic hsatisfies tail
  refine ⟨hverify, ?_⟩
  rw [enforce, hverify]
  rfl

end Verifier

/-! ## An image that verifies -/

/-- Metadata of two bytes. -/
def sampleMetadata : Bytes := [0x76, 0x62]

/-- A submission for them, in a tree of two leaves. -/
def sampleSubmission : Submission where
  info := ⟨sha256 sampleMetadata, none, none, none, none⟩
  leaves := [[1], (Leaf.author ⟨sha256 sampleMetadata, none, none, none, none⟩).raw]
  index := 1
  timestamp := 0
  revision := 0
  rootMetadata := []
  logUrl := "log"
  signature := Bytes.bigEndian 256 (3 * 2 ^ 681)

/-- A key of 2048 bits under which the cube of the signature is the padded digest. -/
def sampleKey : Rsa.PublicKey where
  modulus := 27 * 2 ^ 2043 - Bytes.toNat (Rsa.padded 256 (sha256 sampleSubmission.root.encode))
  exponent := 3

/-- The standard policy with one trusted log. -/
def sampleVerifier : Verifier := ⟨⟨[⟨"log", .rsa sampleKey⟩], by decide⟩, .standard⟩

/-- The descriptor over the sample's entry. -/
def sampleDescriptor : Descriptor where
  major := Descriptor.currentMajor
  minor := Descriptor.currentMinor
  totalSize := Descriptor.sizeOver [sampleSubmission.authored]
  entries := [sampleSubmission.authored]

/-- The submission is genuine, its signature being a cube root. -/
theorem sampleSubmission_genuine :
    sampleSubmission.Genuine sampleVerifier.store sampleMetadata where
  imageHash := rfl
  leaf := rfl
  length_lt := by decide
  signed := ⟨⟨"log", .rsa sampleKey⟩, List.mem_singleton_self _, rfl, by decide +kernel⟩
  url := by decide +kernel
  url_size := by decide +kernel
  root_size := by decide
  leaf_size := by decide +kernel
  signature_size := by decide +kernel

/-- The sample's descriptor is verified behind its metadata and in front of another byte. -/
theorem verify_of_genuine_sample :
    ∃ encoded, sampleDescriptor.encode = .ok encoded ∧
      sampleVerifier.verify (sampleMetadata ++ encoded ++ [0]) = .passed ∧
        sampleVerifier.enforce (sampleMetadata ++ encoded ++ [0]) = .ok () := by
  have hgenuine : ∀ submission ∈ [sampleSubmission],
      submission.Genuine sampleVerifier.store sampleMetadata :=
    List.forall_mem_singleton.2 sampleSubmission_genuine
  obtain ⟨entries, hentries, hverify⟩ :=
    Verifier.verify_of_genuine (by decide) (List.cons_ne_nil _ _) hgenuine
  have hauthored := mapM_eq_ok_map fun submission hmem => (hgenuine submission hmem).entry_eq
  obtain rfl := Except.ok.inj (hauthored.symm.trans hentries)
  obtain ⟨encoded, hencoded, htail⟩ :=
    hverify sampleDescriptor (by decide +kernel) (by decide +kernel)
  exact ⟨encoded, hencoded, htail [0]⟩

end FirmwareTransparency
