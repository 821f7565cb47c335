import FirmwareTransparency.Proofs.Descriptor.Truncation
import FirmwareTransparency.Proofs.Verify.Verdict

/-!
# Images that are cut short

An image that ends inside its descriptor is never taken for one with a shorter descriptor. Main
statement: `verify_take` says what becomes of every beginning of an image that ends in front of the
end of its descriptor. Up to the last byte of the magic there is no descriptor, and from there on
there is one that bytes are missing from.
-/

set_option autoImplicit false

namespace FirmwareTransparency.Verifier

variable {verifier : Verifier} {image : Bytes} {location : Location} {descriptor : Descriptor}
  {length : Nat}

/-- A cut behind the magic and inside the descriptor leaves a descriptor that bytes are missing
from. -/
theorem verify_take_of_le (h : Reads verifier.policy.limits image location descriptor)
    (hmagic : location.offset + 4 ≤ length)
    (hlength : length < location.offset + descriptor.totalSize) :
    ∃ offset needed available, verifier.verify (image.take length) =
      .invalidDescriptor (.outOfBounds offset needed available) := by
  obtain ⟨hfind, hparse⟩ := h
  have hfirst := (findDescriptor_eq_some_iff.1 hfind).1.take hmagic
  obtain ⟨offset, needed, available, hcut⟩ :=
    Descriptor.parse_take hparse (show length - location.offset < _ by omega)
  refine ⟨offset, needed, available, verify_of_parse_error hfirst ?_⟩
  rw [List.drop_take]
  exact hcut

/-- An image that is cut in front of the end of its magic holds no descriptor, and one that is cut
behind it and in front of the end of its descriptor holds one that bytes are missing from. -/
theorem verify_take (h : Reads verifier.policy.limits image location descriptor) (length : Nat) :
    (length < location.offset + 4 → verifier.verify (image.take length) = .noDescriptor) ∧
      (location.offset + 4 ≤ length → length < location.offset + descriptor.totalSize →
        ∃ offset needed available, verifier.verify (image.take length) =
          .invalidDescriptor (.outOfBounds offset needed available)) := by
  have hfirst := (findDescriptor_eq_some_iff.1 h.1).1
  exact ⟨fun hshort => verify_of_magic_absent (hfirst.magic_absent hshort), verify_take_of_le h⟩

/-- A cut in the magic leaves no descriptor, and one behind it a descriptor that bytes are missing
of. -/
theorem verify_take_mismatched :
    Reads sampleVerifier.policy.limits mismatchedImage ⟨1, 498⟩ sampleDescriptor ∧
      sampleVerifier.verify (mismatchedImage.take 4) = .noDescriptor ∧
      ∃ offset needed available, sampleVerifier.verify (mismatchedImage.take 300) =
        .invalidDescriptor (.outOfBounds offset needed available) := by
  have hreads : Reads sampleVerifier.policy.limits mismatchedImage ⟨1, 498⟩ sampleDescriptor :=
    ⟨by decide +kernel, by decide +kernel⟩
  have hsize : sampleDescriptor.totalSize = 498 := by decide +kernel
  refine ⟨hreads, (verify_take hreads 4).1 (by decide), (verify_take hreads 300).2 (by decide) ?_⟩
  rw [hsize]
  decide

end FirmwareTransparency.Verifier
