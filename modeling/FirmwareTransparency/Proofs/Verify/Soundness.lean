import FirmwareTransparency.Proofs.Descriptor.Layout
import FirmwareTransparency.Proofs.Merkle.Binding
import FirmwareTransparency.Proofs.Verify.Completeness

/-!
# An image that verifies was logged

A good verdict under the rule that all entries have to pass is a statement about every entry of the
descriptor that stands in the image. Main statement: `logged_of_verify` says that a trusted log has
signed the very bytes that stand there as the entry's log root, and that the entry's leaf, which
names the image's metadata, stands at the claimed index of whatever list of leaves the signed root
was computed from.
-/

set_option autoImplicit false

namespace FirmwareTransparency

open Merkle

/-- What is known of an entry that passed: `field` are the bytes that stand as its log root. -/
structure Entry.Logged (store : TrustStore) (metadata field : Bytes) (entry : Entry) : Prop where
  /-- A trusted log of the entry's identity has signed the log root as it stands in the image. -/
  signed : ∃ log ∈ store.logs, log.identity = entry.logUrl ∧
    log.key.verify field entry.signature = true
  /-- The leaf's bytes name the metadata. -/
  names : ∃ info, FirmwareInfo.ofDocument entry.leaf.raw = .ok info ∧
    info.imageHash = sha256 metadata
  /-- A list of leaves of the claimed size with the signed root has the leaf at the claimed index,
  unless two strings collide that are hashed to build the tree or to check the proof. -/
  included : ∀ leaves : List Bytes, leaves.length = entry.treeSize.toNat →
    (Tree.ofLeaves leaves).root = entry.logRoot.rootHash →
    CollisionFree (treePreimages leaves ++
      proofPreimages entry.leaf.raw entry.leafIndex.toNat entry.treeSize.toNat entry.proof) →
    leaves[entry.leafIndex.toNat]? = some entry.leaf.raw

/-- An entry that was read and fails no check was logged. -/
theorem Entry.logged_of_failedGate? {store : TrustStore} {metadata : Bytes} {entry : Entry}
    (hleaf : entry.leaf.Valid)
    (hgate : Verifier.failedGate? store (sha256 metadata) entry = none) :
    entry.Logged store metadata entry.logRoot.encode := by
  obtain ⟨hhash, hincludes, hsignature⟩ := Verifier.failedGate?_eq_none_iff.1 hgate
  refine ⟨TrustStore.checkSignature_eq_ok_iff.1 hsignature, ⟨entry.leaf.info, hleaf, hhash⟩, ?_⟩
  intro leaves hlength hroot hfree
  have hpath := includes_iff.1 hincludes
  rw [← hroot] at hpath
  exact getElem?_of_rootFromPath? hlength hpath hfree

namespace Verifier

/-- If all entries have to pass, then in an image that verifies there is an entry, and every entry
was logged. -/
theorem logged_of_verify {verifier : Verifier} {image : Bytes}
    (hrule : verifier.policy.entryRule = .all) (h : verifier.verify image = .passed) :
    ∃ location descriptor, findDescriptor image = some location ∧
      Descriptor.parse verifier.policy.limits (location.descriptor image) = .ok descriptor ∧
        descriptor.entries ≠ [] ∧
          ∀ (index : Nat) (entry : Entry), descriptor.entries[index]? = some entry →
            entry.Logged verifier.store (location.metadata image)
              (Descriptor.logRootField (location.descriptor image) index) := by
  obtain ⟨location, descriptor, hfind, hparse, hsatisfies⟩ := verify_eq_passed_iff.1 h
  unfold satisfies at hsatisfies
  rw [hrule] at hsatisfies
  obtain ⟨hne, hpass⟩ := hsatisfies
  refine ⟨location, descriptor, hfind, hparse, hne, fun index entry hentry => ?_⟩
  have hmem := List.mem_of_getElem? hentry
  have hformed := (Descriptor.parse_eq_ok_iff.1 hparse).1.1
  -- The signature was checked over the encoding of what was read, which is what stands there.
  rw [Descriptor.logRootField_eq hparse hentry]
  exact Entry.logged_of_failedGate? (hformed.entries entry hmem).leaf (hpass entry hmem)

end Verifier

/-- The sample's metadata, its descriptor and one more byte. -/
def sampleImage : Bytes :=
  sampleMetadata ++ (sampleDescriptor.header.encode ++ sampleDescriptor.body) ++ [0]

/-- The sample's image is verified, its log root is signed, and its leaf is in the tree. -/
theorem logged_of_verify_sample :
    sampleVerifier.verify sampleImage = .passed ∧
      sampleVerifier.policy.entryRule = .all ∧
      (∃ log ∈ sampleVerifier.store.logs, log.identity = "log" ∧
        log.key.verify (Descriptor.logRootField (sampleImage.drop 2) 0)
          sampleSubmission.signature = true) ∧
      CollisionFree (treePreimages sampleSubmission.leaves ++
        proofPreimages sampleSubmission.authored.leaf.raw 1 2 sampleSubmission.authored.proof) ∧
      sampleSubmission.leaves[1]? = some sampleSubmission.authored.leaf.raw := by
  have hverify : sampleVerifier.verify sampleImage = .passed := by decide +kernel
  have hfree : CollisionFree (treePreimages sampleSubmission.leaves ++
      proofPreimages sampleSubmission.authored.leaf.raw 1 2 sampleSubmission.authored.proof) := by
    unfold CollisionFree
    decide +kernel
  obtain ⟨location, descriptor, hfind, hparse, -, hlogged⟩ :=
    Verifier.logged_of_verify rfl hverify
  have hoffset : findDescriptor sampleImage = some ⟨2, 499⟩ := by decide +kernel
  obtain rfl := Option.some.inj (hfind.symm.trans hoffset)
  have hread : Descriptor.parse .standard (Location.descriptor ⟨2, 499⟩ sampleImage) =
      .ok sampleDescriptor := by
    decide +kernel
  obtain rfl := Except.ok.inj (hparse.symm.trans hread)
  obtain ⟨hsigned, -, hincluded⟩ := hlogged 0 sampleSubmission.authored rfl
  exact ⟨hverify, rfl, hsigned, hfree, hincluded sampleSubmission.leaves rfl rfl hfree⟩

end FirmwareTransparency
