import FirmwareTransparency.Bytes.Search
import FirmwareTransparency.Descriptor.Basic

/-!
# Finding a descriptor

A descriptor starts at the first place in an image where its magic stands. What is in front of that
place is the image's metadata, which the leaves name by its hash.
-/

set_option autoImplicit false

namespace FirmwareTransparency

/-- Where a descriptor starts in an image. -/
structure Location where
  /-- How many bytes stand in front of it. -/
  offset : Nat
  /-- How many bytes there are from it to the end of the image. -/
  length : Nat
  deriving DecidableEq

namespace Location

/-- The bytes in front of the descriptor. -/
def metadata (location : Location) (image : Bytes) : Bytes := image.take location.offset

/-- The descriptor and what follows it. -/
def descriptor (location : Location) (image : Bytes) : Bytes := image.drop location.offset

/-- What is in front of a descriptor and what begins with it are the whole image. -/
@[simp] theorem metadata_append_descriptor (location : Location) (image : Bytes) :
    location.metadata image ++ location.descriptor image = image :=
  List.take_append_drop location.offset image

end Location

/-- Finds the descriptor of an image. -/
def findDescriptor (image : Bytes) : Option Location :=
  match Bytes.find? Descriptor.magic image with
  | some offset => some ⟨offset, image.length - offset⟩
  | none => none

end FirmwareTransparency
