import FirmwareTransparency.Proofs.Verify.Verdict

/-!
# Splitting an image at its descriptor

An image is split where the magic stands first, and a report on it is one on its two parts. The
metadata may end like the magic begins, and the magic may stand again behind the split: neither
moves it, because no end of the magic is a beginning of it. Main statement: `findDescriptor_splits`.
-/

set_option autoImplicit false

namespace FirmwareTransparency

open Descriptor

variable {image metadata descriptor : Bytes} {location : Location}

/-- The image falls apart at the location: its descriptor starts with the magic and the magic does
not stand at any place in front. -/
structure Location.Splits (location : Location) (image : Bytes) : Prop where
  whole : location.metadata image ++ location.descriptor image = image
  offset_eq : (location.metadata image).length = location.offset
  length_eq : (location.descriptor image).length = location.length
  stands : magic <+: location.descriptor image
  first : ∀ earlier < location.offset, ¬magic <+: image.drop earlier

/-- An image falls apart at a location exactly if that is the first place of the magic and reaches
to the end. -/
theorem Location.splits_iff :
    location.Splits image ↔
      FirstAt image location.offset ∧ location.length = image.length - location.offset := by
  constructor
  · intro h
    have hlength := h.length_eq
    rw [Location.descriptor, List.length_drop] at hlength
    exact ⟨⟨h.stands, h.first⟩, hlength.symm⟩
  · rintro ⟨hfirst, hlength⟩
    have hle := hfirst.offset_le
    refine ⟨location.metadata_append_descriptor image, ?_, ?_, hfirst.stands, hfirst.first⟩
    · rw [Location.metadata, List.length_take]
      omega
    · rw [Location.descriptor, List.length_drop, hlength]

/-- A descriptor is found exactly where the image falls apart. -/
theorem findDescriptor_eq_some_iff_splits :
    findDescriptor image = some location ↔ location.Splits image := by
  rw [findDescriptor_eq_some_iff, Location.splits_iff]

/-- An image holds the magic exactly if it stands at some offset. -/
theorem magic_isInfix_iff : magic <:+: image ↔ ∃ offset, magic <+: image.drop offset := by
  constructor
  · intro h
    obtain ⟨offset, hfirst⟩ := exists_firstAt h
    exact ⟨offset, hfirst.stands⟩
  · rintro ⟨offset, hstands⟩
    exact hstands.isInfix.trans (List.drop_suffix offset image).isInfix

/-- No descriptor is found exactly if the magic stands at no offset. -/
theorem findDescriptor_eq_none_iff_forall :
    findDescriptor image = none ↔ ∀ offset, ¬magic <+: image.drop offset := by
  rw [findDescriptor_eq_none_iff, magic_isInfix_iff, not_exists]

namespace Verifier

/-- An image that is put together from metadata without the magic and what starts with it is judged
by these two parts. -/
theorem report_append_of_magic (verifier : Verifier) (hmetadata : ¬magic <:+: metadata)
    (hdescriptor : magic <+: descriptor) :
    verifier.report (metadata ++ descriptor) = verifier.reportDescriptor metadata descriptor := by
  rw [report, findDescriptor_append hmetadata hdescriptor]
  simp only [Location.metadata, Location.descriptor, List.take_left, List.drop_left]

/-- No descriptor is found exactly if the magic stands nowhere, and one is found exactly where it
splits the image at the first magic. So what is put together from metadata without the magic and a
string that starts with it is split there again, and is reported on as these two. -/
theorem findDescriptor_splits :
    (∀ image, findDescriptor image = none ↔ ∀ offset, ¬magic <+: image.drop offset) ∧
      (∀ image location, findDescriptor image = some location ↔ location.Splits image) ∧
      ∀ metadata descriptor, ¬magic <:+: metadata → magic <+: descriptor →
        findDescriptor (metadata ++ descriptor) = some ⟨metadata.length, descriptor.length⟩ ∧
          ∀ verifier : Verifier,
            verifier.report (metadata ++ descriptor) =
              verifier.reportDescriptor metadata descriptor := by
  refine ⟨?_, ?_, ?_⟩
  · intro image
    exact findDescriptor_eq_none_iff_forall
  · intro image location
    exact findDescriptor_eq_some_iff_splits
  · intro metadata descriptor hmetadata hdescriptor
    refine ⟨findDescriptor_append hmetadata hdescriptor, ?_⟩
    intro verifier
    exact report_append_of_magic verifier hmetadata hdescriptor

/-- Metadata that ends like the magic begins, in front of two magics in a row. -/
theorem findDescriptor_splits_overlapping :
    ¬magic <:+: magic.take 2 ++ magic.take 3 ∧ magic <+: magic ++ magic ∧
      findDescriptor (magic.take 2 ++ magic.take 3 ++ (magic ++ magic)) = some ⟨5, 8⟩ ∧
      sampleVerifier.report (magic.take 2 ++ magic.take 3 ++ (magic ++ magic)) =
        sampleVerifier.reportDescriptor (magic.take 2 ++ magic.take 3) (magic ++ magic) := by
  have hmetadata : ¬magic <:+: magic.take 2 ++ magic.take 3 := by decide
  have hdescriptor : magic <+: magic ++ magic := List.prefix_append magic magic
  obtain ⟨-, -, happend⟩ := findDescriptor_splits
  obtain ⟨hfind, hreport⟩ := happend _ _ hmetadata hdescriptor
  exact ⟨hmetadata, hdescriptor, hfind, hreport sampleVerifier⟩

end Verifier

end FirmwareTransparency
