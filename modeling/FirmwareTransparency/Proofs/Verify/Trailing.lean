import FirmwareTransparency.Proofs.Descriptor.Trailing
import FirmwareTransparency.Proofs.Verify.Verdict

/-!
# Images with more behind their descriptor

An image may be followed by anything: padding, another image, another descriptor. Main statement:
`parse_and_report_ignore_tail` says that what stands behind the declared end of a descriptor changes
neither what reading it gives nor the report on the image.
-/

set_option autoImplicit false

namespace FirmwareTransparency.Verifier

open Descriptor

/-- The report does not look behind the end of the descriptor. -/
theorem report_append {verifier : Verifier} {image : Bytes} {location : Location}
    (hfind : findDescriptor image = some location)
    (hends : EndsWithin (location.descriptor image)) (tail : Bytes) :
    verifier.report (image ++ tail) = verifier.report image := by
  obtain ⟨hfirst, -⟩ := findDescriptor_eq_some_iff.1 hfind
  have hoffset : location.offset ≤ image.length := by
    have hle := hfirst.offset_le
    omega
  have hmetadata : (image ++ tail).take location.offset = image.take location.offset :=
    List.take_append_of_le_length hoffset
  have hdescriptor : (image ++ tail).drop location.offset = image.drop location.offset ++ tail :=
    List.drop_append_of_le_length hoffset
  have hparse : parse verifier.policy.limits (image.drop location.offset ++ tail) =
      parse verifier.policy.limits (image.drop location.offset) :=
    parse_append hends _ tail
  -- The tail may hold a magic of its own, but the image's stays the first.
  rw [report_of_firstAt (hfirst.append tail), report_of_firstAt hfirst, hmetadata, hdescriptor]
  simp only [reportDescriptor, hparse]

/-- Bytes behind the end that a descriptor declares have no part in what it is read as, or in the
cause that it is refused for, and none in the report on an image that holds it. -/
theorem parse_and_report_ignore_tail :
    (∀ (limits : Limits) (bytes tail : Bytes), EndsWithin bytes →
        parse limits (bytes ++ tail) = parse limits bytes) ∧
      ∀ (verifier : Verifier) (image tail : Bytes) (location : Location),
        findDescriptor image = some location → EndsWithin (location.descriptor image) →
          verifier.report (image ++ tail) = verifier.report image := by
  constructor
  · intro limits bytes tail hends
    exact parse_append hends limits tail
  · intro verifier image tail location hfind hends
    exact report_append hfind hends tail

/-- A descriptor whose only entry ends behind two bytes. -/
def brokenDescriptor : Bytes :=
  magic ++ Bytes.ofUInt32 currentMajor ++ Bytes.ofUInt32 currentMinor ++ Bytes.bigEndian 4 20 ++
    Bytes.bigEndian 2 1 ++ [0, 0]

/-- It stays broken in front of another descriptor, for want of the same bytes. -/
theorem parse_and_report_ignore_tail_broken :
    EndsWithin brokenDescriptor ∧
      findDescriptor (0 :: brokenDescriptor) = some ⟨1, 20⟩ ∧
      parse .standard (brokenDescriptor ++ brokenDescriptor) = .error (.outOfBounds 0 4 2) ∧
      sampleVerifier.report (0 :: brokenDescriptor ++ brokenDescriptor) =
        ⟨.invalidDescriptor (.outOfBounds 0 4 2), []⟩ := by
  have hends : EndsWithin brokenDescriptor := ⟨by decide, by decide⟩
  have hfind : findDescriptor (0 :: brokenDescriptor) = some ⟨1, 20⟩ := by decide +kernel
  obtain ⟨hparse, hreport⟩ := parse_and_report_ignore_tail
  refine ⟨hends, hfind, ?_, ?_⟩
  · rw [hparse .standard brokenDescriptor brokenDescriptor hends]
    decide +kernel
  · rw [hreport sampleVerifier (0 :: brokenDescriptor) brokenDescriptor ⟨1, 20⟩ hfind hends]
    decide +kernel

end FirmwareTransparency.Verifier
