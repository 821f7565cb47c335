import FirmwareTransparency.Descriptor.Locate
import FirmwareTransparency.Merkle.Proof
import FirmwareTransparency.TrustStore
import FirmwareTransparency.Verify.Verdict

/-!
# Verification

A verifier is a trust store and a policy. It finds the descriptor of an image, reads it and checks
entry after entry: the leaf must name the image's metadata, the proof must lead from the leaf to the
log root, and a trusted log must have signed the log root.
-/

set_option autoImplicit false

namespace FirmwareTransparency

/-- What images are verified against. -/
structure Verifier where
  store : TrustStore
  policy : Policy

namespace Verifier

/-- The first check that an entry fails, if it fails one. -/
def failedGate? (store : TrustStore) (metadataHash : Digest) (entry : Entry) : Option Gate :=
  if entry.leaf.imageHash ≠ metadataHash then some .hashMismatch
  else if !Merkle.includes entry.leaf.hash entry.leafIndex.toNat entry.treeSize.toNat entry.proof
      entry.logRoot.rootHash then some .rootMismatch
  else
    match store.checkSignature entry.logUrl entry.logRoot.encode entry.signature with
    | .ok () => none
    | .error .unknownLog => some .unknownLog
    | .error .invalid => some .signatureInvalid

/-- The outcomes of checking entries one after the other, the first having the given index. -/
def outcomesFrom (verifier : Verifier) (metadataHash : Digest) :
    (index : Nat) → (entries : List Entry) → List Outcome
  | _, [] => []
  | index, entry :: entries =>
    let failure := failedGate? verifier.store metadataHash entry
    let outcome : Outcome := ⟨index, entry.logUrl, failure⟩
    if verifier.policy.stopsAfter failure then [outcome]
    else outcome :: verifier.outcomesFrom metadataHash (index + 1) entries

/-- Judges the entries of a descriptor. -/
def reportEntries (verifier : Verifier) (metadataHash : Digest) (entries : List Entry) : Report :=
  let outcomes := verifier.outcomesFrom metadataHash 0 entries
  ⟨verifier.policy.entryRule.verdict outcomes, outcomes⟩

/-- Judges metadata and the bytes where their descriptor starts. -/
def reportDescriptor (verifier : Verifier) (metadata descriptor : Bytes) : Report :=
  match Descriptor.parse verifier.policy.limits descriptor with
  | .ok descriptor => verifier.reportEntries (sha256 metadata) descriptor.entries
  | .error cause => ⟨.invalidDescriptor cause, []⟩

/-- Judges an image. -/
def report (verifier : Verifier) (image : Bytes) : Report :=
  match findDescriptor image with
  | some location =>
    verifier.reportDescriptor (location.metadata image) (location.descriptor image)
  | none => ⟨.noDescriptor, []⟩

/-- The verdict on an image. -/
def verify (verifier : Verifier) (image : Bytes) : Verdict := (verifier.report image).verdict

/-- Refuses an image that the policy does not accept. -/
def enforce (verifier : Verifier) (image : Bytes) : Except Error Unit :=
  verifier.policy.accept (verifier.verify image)

/-- Refuses a list of images with the error of the first that is refused. -/
def enforceAll (verifier : Verifier) : List Bytes → Except Error Unit
  | [] => .ok ()
  | image :: images => do
    verifier.enforce image
    verifier.enforceAll images

end Verifier

end FirmwareTransparency
