import FirmwareTransparency.Proofs.Verify.Soundness
import FirmwareTransparency.Proofs.Verify.Verdict

/-!
# The images of a boot slot

The images of a slot are verified one after the other, and the slot is refused as soon as one of
them is. Which images those are can be said without the loop and without the verdict that the error
is made of: `Accepts` is what an image has to meet, and `Refusal` the one error that names what is
wrong with it. Main statement: `enforceAll_fails_closed`, by which an image passes for one without a
descriptor only if it holds no magic at all.
-/

set_option autoImplicit false

namespace FirmwareTransparency.Verifier

variable {verifier : Verifier} {image : Bytes} {front images : List Bytes} {error : Error}

/-- What an image has to meet: it holds no magic and no descriptor is asked for, or its verdict is
the good one. -/
def Accepts (verifier : Verifier) (image : Bytes) : Prop :=
  (¬Descriptor.magic <:+: image ∧ verifier.policy.missingRule = .optional) ∨
    verifier.verify image = .passed

/-- The error that names what is wrong with an image: the magic does not occur in it, what stands
from its first occurrence on is no descriptor, or an entry of the descriptor fails a check and none
in front of it fails one. -/
inductive Refusal (verifier : Verifier) (image : Bytes) : Error → Prop where
  | noDescriptor (hmagic : ¬Descriptor.magic <:+: image) : Refusal verifier image .noDescriptor
  | format {offset : Nat} {cause : FormatError} (hfirst : Descriptor.FirstAt image offset)
      (hparse : Descriptor.parse verifier.policy.limits (image.drop offset) = .error cause) :
      Refusal verifier image (.format cause)
  | verificationFailed {offset index : Nat} {gate : Gate} {descriptor : Descriptor}
      (hfirst : Descriptor.FirstAt image offset)
      (hparse : Descriptor.parse verifier.policy.limits (image.drop offset) = .ok descriptor)
      (hfails : FailsFirst verifier.store (sha256 (image.take offset)) descriptor.entries index
        gate) :
      Refusal verifier image (.verificationFailed index gate)

/-! ## One image -/

/-- An image passes exactly if it meets what it has to. -/
theorem enforce_eq_ok_iff : verifier.enforce image = .ok () ↔ verifier.Accepts image := by
  rw [enforce, Policy.accept_eq_ok_iff, verify_eq_noDescriptor_iff, Accepts, or_comm]

/-- There is an error for every image that does not meet what it has to. -/
theorem exists_refusal (hrefused : ¬verifier.Accepts image) :
    ∃ error, Refusal verifier image error := by
  by_cases hmagic : Descriptor.magic <:+: image
  · obtain ⟨offset, hfirst⟩ := Descriptor.exists_firstAt hmagic
    cases hparse : Descriptor.parse verifier.policy.limits (image.drop offset) with
    | error cause => exact ⟨_, .format hfirst hparse⟩
    | ok descriptor =>
      have hfailed : verifier.verify image ≠ .passed := fun hpassed => hrefused (.inr hpassed)
      obtain ⟨index, gate, hfails, -⟩ := (verify_decides hfirst hparse).failed hfailed
      exact ⟨_, .verificationFailed hfirst hparse hfails⟩
  · exact ⟨_, .noDescriptor hmagic⟩

/-- An image that is not accepted is refused with the error that names what is wrong with it. -/
theorem enforce_of_refusal (hrefused : ¬verifier.Accepts image)
    (h : Refusal verifier image error) : verifier.enforce image = .error error := by
  cases h with
  | noDescriptor hmagic =>
    have hmandatory : verifier.policy.missingRule = .mandatory := by
      cases hrule : verifier.policy.missingRule with
      | mandatory => rfl
      | optional => exact absurd (.inl ⟨hmagic, hrule⟩) hrefused
    rw [enforce, verify_of_magic_absent hmagic, Policy.accept, hmandatory]
  | format hfirst hparse =>
    rw [enforce, verify_of_parse_error hfirst hparse]
    rfl
  | verificationFailed hfirst hparse hfails =>
    have hfailed : verifier.verify image ≠ .passed := fun hpassed => hrefused (.inr hpassed)
    -- The verdict names the first failure, and there is only one such.
    obtain ⟨index, gate, hfirstFailure, hverdict⟩ := (verify_decides hfirst hparse).failed hfailed
    obtain ⟨rfl, rfl⟩ := hfails.unique hfirstFailure
    rw [enforce, hverdict]
    rfl

/-! ## One image after the other -/

/-- Behind an accepted image the others decide. -/
theorem enforceAll_cons_of_accepts (images : List Bytes) (h : verifier.Accepts image) :
    verifier.enforceAll (image :: images) = verifier.enforceAll images := by
  rw [enforceAll, enforce_eq_ok_iff.2 h]
  rfl

/-- A refused image ends the list with its error. -/
theorem enforceAll_cons_of_error (images : List Bytes) (h : verifier.enforce image = .error error) :
    verifier.enforceAll (image :: images) = .error error := by
  rw [enforceAll, h]
  rfl

/-- Images that are accepted have no part in what becomes of those behind them. -/
theorem enforceAll_append (images : List Bytes) (hfront : ∀ image ∈ front, verifier.Accepts image) :
    verifier.enforceAll (front ++ images) = verifier.enforceAll images := by
  induction front with
  | nil => rfl
  | cons image front ih =>
    obtain ⟨hfirst, hrest⟩ := List.forall_mem_cons.1 hfront
    rw [List.cons_append, enforceAll_cons_of_accepts _ hfirst, ih hrest]

/-- If an image is refused there is a first one. -/
theorem exists_first_refused (h : ¬∀ image ∈ images, verifier.Accepts image) :
    ∃ front image back, images = front ++ image :: back ∧
      (∀ earlier ∈ front, verifier.Accepts earlier) ∧ ¬verifier.Accepts image := by
  induction images with
  | nil => simp at h
  | cons image images ih =>
    by_cases haccepts : verifier.Accepts image
    · have hrest : ¬∀ image ∈ images, verifier.Accepts image := fun hrest =>
        h (List.forall_mem_cons.2 ⟨haccepts, hrest⟩)
      obtain ⟨front, refused, back, rfl, hfront, hrefused⟩ := ih hrest
      refine ⟨image :: front, refused, back, rfl, ?_, hrefused⟩
      exact List.forall_mem_cons.2 ⟨haccepts, hfront⟩
    · exact ⟨[], image, images, rfl, by simp, haccepts⟩

/-- A list with accepted images in front of a refused one ends with the error of that one. -/
theorem enforceAll_of_refusal (back : List Bytes) (hfront : ∀ image ∈ front, verifier.Accepts image)
    (hrefused : ¬verifier.Accepts image) (h : Refusal verifier image error) :
    verifier.enforceAll (front ++ image :: back) = .error error := by
  rw [enforceAll_append _ hfront, enforceAll_cons_of_error _ (enforce_of_refusal hrefused h)]

/-- A list passes exactly if each of its images does. -/
theorem enforceAll_eq_ok_iff :
    verifier.enforceAll images = .ok () ↔ ∀ image ∈ images, verifier.Accepts image := by
  constructor
  · intro hok
    by_contra h
    obtain ⟨front, image, back, rfl, hfront, hrefused⟩ := exists_first_refused h
    obtain ⟨error, herror⟩ := exists_refusal hrefused
    rw [enforceAll_of_refusal back hfront hrefused herror] at hok
    cases hok
  · intro h
    have hall := enforceAll_append [] h
    rwa [List.append_nil] at hall

/-- A list ends with an error exactly if it is that of the first image which is refused. -/
theorem enforceAll_eq_error_iff :
    verifier.enforceAll images = .error error ↔
      ∃ front image back, images = front ++ image :: back ∧
        (∀ earlier ∈ front, verifier.Accepts earlier) ∧ ¬verifier.Accepts image ∧
          Refusal verifier image error := by
  constructor
  · intro h
    have hnot : ¬∀ image ∈ images, verifier.Accepts image := by
      rw [← enforceAll_eq_ok_iff, h]
      simp
    obtain ⟨front, image, back, rfl, hfront, hrefused⟩ := exists_first_refused hnot
    obtain ⟨other, hother⟩ := exists_refusal hrefused
    rw [enforceAll_of_refusal back hfront hrefused hother] at h
    cases h
    exact ⟨front, image, back, rfl, hfront, hrefused, hother⟩
  · rintro ⟨front, image, back, rfl, hfront, hrefused, h⟩
    exact enforceAll_of_refusal back hfront hrefused h

/-- A slot is accepted exactly if each of its images holds no magic and none is asked for, or has
the good verdict; else it is refused with the error that names what is wrong with the first image
that meets neither. No policy accepts a slot with an image in which the magic is followed by what is
no descriptor. -/
theorem enforceAll_fails_closed (verifier : Verifier) (images : List Bytes) :
    (verifier.enforceAll images = .ok () ↔ ∀ image ∈ images, verifier.Accepts image) ∧
      (∀ error, verifier.enforceAll images = .error error ↔
        ∃ front image back, images = front ++ image :: back ∧
          (∀ earlier ∈ front, verifier.Accepts earlier) ∧ ¬verifier.Accepts image ∧
            Refusal verifier image error) ∧
      ∀ image ∈ images, ∀ offset cause, Descriptor.FirstAt image offset →
        Descriptor.parse verifier.policy.limits (image.drop offset) = .error cause →
          verifier.enforceAll images ≠ .ok () := by
  refine ⟨enforceAll_eq_ok_iff, fun error => enforceAll_eq_error_iff, ?_⟩
  intro image himage offset cause hfirst hparse hok
  rcases enforceAll_eq_ok_iff.1 hok image himage with ⟨hmagic, -⟩ | hpassed
  · exact hmagic hfirst.magic_present
  · rw [verify_of_parse_error hfirst hparse] at hpassed
    cases hpassed

/-- The sample's store under a policy that asks for no descriptor. -/
def rolloutVerifier : Verifier := ⟨sampleVerifier.store, .rollout⟩

/-- One descriptor stands in both samples, behind the metadata that its leaf names and behind
others. -/
theorem parse_mismatchedImage :
    Descriptor.parse rolloutVerifier.policy.limits (mismatchedImage.drop 1) =
      .ok sampleDescriptor := by
  decide +kernel

/-- An image without a descriptor is accepted, and so is the sample's. -/
theorem accepts_samples : ∀ image ∈ [[0], sampleImage], rolloutVerifier.Accepts image := by
  have hplain : rolloutVerifier.Accepts [0] := .inl ⟨by decide, rfl⟩
  have hsample : rolloutVerifier.Accepts sampleImage := by
    obtain ⟨⟨hformed, hvalid⟩, -⟩ := Descriptor.parse_eq_ok_iff.1 parse_mismatchedImage
    have hmagic : ¬Descriptor.magic <:+: sampleMetadata := by decide
    have hsatisfies :
        rolloutVerifier.satisfies (sha256 sampleMetadata) sampleDescriptor.entries := by
      apply satisfies_of_forall (List.cons_ne_nil _ _)
      exact List.forall_mem_singleton.2 sampleSubmission_genuine.failedGate?_eq_none
    exact .inr (verify_append_encode hformed hvalid hmagic hsatisfies [0])
  simp [hplain, hsample]

/-- The sample's descriptor behind other metadata is refused. -/
theorem refusal_mismatchedImage :
    ¬rolloutVerifier.Accepts mismatchedImage ∧
      Refusal rolloutVerifier mismatchedImage (.verificationFailed 0 .hashMismatch) := by
  have hfirst : Descriptor.FirstAt mismatchedImage 1 := ⟨by decide +kernel, by decide +kernel⟩
  have hgate : failedGate? rolloutVerifier.store (sha256 (mismatchedImage.take 1))
      sampleSubmission.authored = some .hashMismatch := by
    decide +kernel
  refine ⟨?_, .verificationFailed hfirst parse_mismatchedImage (.zero hgate)⟩
  rintro (⟨hmagic, -⟩ | hverify)
  · exact hmagic hfirst.magic_present
  · have hpass := ((verify_decides hfirst parse_mismatchedImage).all rfl).1 hverify
    have hnone := hpass sampleSubmission.authored (List.mem_singleton_self _)
    rw [hgate] at hnone
    cases hnone

/-- Behind an image without a descriptor and one that passes, the leaf of a third names other
metadata, and the broken descriptor of a fourth is not looked at. -/
theorem enforceAll_fails_closed_sample :
    rolloutVerifier.enforceAll [[0], sampleImage] = .ok () ∧
      rolloutVerifier.enforceAll [[0], sampleImage, mismatchedImage, Descriptor.magic] =
        .error (.verificationFailed 0 .hashMismatch) ∧
      Descriptor.magic ∈ [[0], Descriptor.magic] ∧ Descriptor.FirstAt Descriptor.magic 0 ∧
        Descriptor.parse .standard (Descriptor.magic.drop 0) = .error (.outOfBounds 4 4 0) ∧
        rolloutVerifier.enforceAll [[0], Descriptor.magic] ≠ .ok () := by
  have hmem : Descriptor.magic ∈ [[0], Descriptor.magic] := by simp
  have hfirst : Descriptor.FirstAt Descriptor.magic 0 := ⟨by decide, by decide⟩
  have hbroken : Descriptor.parse .standard (Descriptor.magic.drop 0) =
      .error (.outOfBounds 4 4 0) := by
    decide +kernel
  obtain ⟨hrefused, hrefusal⟩ := refusal_mismatchedImage
  obtain ⟨haccepted, -⟩ := enforceAll_fails_closed rolloutVerifier [[0], sampleImage]
  obtain ⟨-, herror, -⟩ := enforceAll_fails_closed rolloutVerifier
    [[0], sampleImage, mismatchedImage, Descriptor.magic]
  obtain ⟨-, -, hclosed⟩ := enforceAll_fails_closed rolloutVerifier [[0], Descriptor.magic]
  refine ⟨haccepted.2 accepts_samples, (herror _).2 ?_, hmem, hfirst, hbroken, ?_⟩
  · exact ⟨[[0], sampleImage], mismatchedImage, [Descriptor.magic], rfl, accepts_samples, hrefused,
      hrefusal⟩
  · exact hclosed _ hmem 0 _ hfirst hbroken

end FirmwareTransparency.Verifier
