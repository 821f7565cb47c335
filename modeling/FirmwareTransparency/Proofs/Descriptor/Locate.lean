import FirmwareTransparency.Descriptor.Locate
import FirmwareTransparency.Proofs.Search
import Mathlib.Data.List.Infix
import Mathlib.Tactic

/-!
# Where a descriptor is found

A search finds the first place where a pattern stands. No end of the magic is a beginning of it, so
it cannot stand across the end of a string that does not hold it. Main statements:
`findDescriptor_append`, and `findDescriptor_eq_none_iff` and `findDescriptor_eq_some_iff`, which
say where a descriptor is found without searching for it.
-/

set_option autoImplicit false

namespace FirmwareTransparency

/-- No proper end of the magic is a beginning of it. -/
theorem Descriptor.magic_unbordered : ∀ count < 4, 0 < count → ¬magic.drop count <+: magic := by
  decide

/-- The magic cannot start in one string and end in the magic that follows it. -/
theorem Descriptor.not_magic_across {front back : Bytes} (hmagic : ¬magic <:+: front)
    (hback : magic <+: back) (before after : Bytes) (h : before ++ after = front)
    (hafter : after ≠ []) : ¬magic <+: after ++ back := by
  intro hstands
  by_cases hlength : magic.length ≤ after.length
  · -- the whole magic stands in front
    have hstarts := List.prefix_of_prefix_length_le hstands (List.prefix_append after back) hlength
    exact hmagic (hstarts.isInfix.trans (h ▸ (List.suffix_append before after).isInfix))
  · -- its beginning stands in front and its end is the beginning of the magic
    have hsplit : after <+: magic :=
      List.prefix_of_prefix_length_le (List.prefix_append after back) hstands (by omega)
    obtain ⟨tail, htail⟩ := hsplit
    have hrest : tail <+: back := by
      rw [← htail] at hstands
      exact (List.prefix_append_right_inj after).1 hstands
    have hlen := congrArg List.length htail
    have hborder : tail <+: magic := by
      apply List.prefix_of_prefix_length_le hrest hback
      rw [← htail, List.length_append]
      omega
    have hdrop : tail = magic.drop after.length := by
      rw [← htail, List.drop_left]
    have hpos : 0 < after.length := List.length_pos_of_ne_nil hafter
    have hlt : after.length < 4 := by
      simp only [magic, List.length_cons, List.length_nil] at hlength
      omega
    rw [hdrop] at hborder
    exact magic_unbordered after.length hlt hpos hborder

/-- What begins with the magic is not empty. -/
theorem Descriptor.ne_nil_of_magic {bytes : Bytes} (h : magic <+: bytes) : bytes ≠ [] := by
  rintro rfl
  exact absurd (List.prefix_nil.1 h) (by decide)

/-- Behind metadata that does not hold the magic a descriptor is found where it starts. -/
theorem findDescriptor_append {metadata descriptor : Bytes}
    (hmetadata : ¬Descriptor.magic <:+: metadata) (hmagic : Descriptor.magic <+: descriptor) :
    findDescriptor (metadata ++ descriptor) = some ⟨metadata.length, descriptor.length⟩ := by
  have hne := Descriptor.ne_nil_of_magic hmagic
  have hfind : Bytes.find? Descriptor.magic (metadata ++ descriptor) = some metadata.length := by
    apply Bytes.findFrom?_eq_some_iff.2
    exact ⟨metadata, descriptor, rfl, hne, hmagic, (Nat.zero_add _).symm,
      Descriptor.not_magic_across hmetadata hmagic⟩
  rw [findDescriptor, hfind]
  simp

/-! ## The first place of the magic -/

/-- The magic stands at an offset of an image and at none in front of it. -/
structure Descriptor.FirstAt (image : Bytes) (offset : Nat) : Prop where
  stands : magic <+: image.drop offset
  first : ∀ earlier < offset, ¬magic <+: image.drop earlier

/-- There is only one first place. -/
theorem Descriptor.FirstAt.unique {image : Bytes} {offset other : Nat}
    (h : FirstAt image offset) (hother : FirstAt image other) : offset = other := by
  rcases Nat.lt_trichotomy offset other with hlt | heq | hlt
  · exact absurd h.stands (hother.first offset hlt)
  · exact heq
  · exact absurd hother.stands (h.first other hlt)

/-- An image in which the magic stands at an offset holds it. -/
theorem Descriptor.FirstAt.magic_present {image : Bytes} {offset : Nat} (h : FirstAt image offset) :
    magic <:+: image :=
  h.stands.isInfix.trans (List.drop_suffix offset image).isInfix

/-- What stands at an offset of an image stands there in front of a cut that is behind it. -/
theorem Descriptor.magic_isPrefix_drop_take {image : Bytes} {offset length : Nat}
    (hlength : offset + 4 ≤ length) :
    magic <+: (image.take length).drop offset ↔ magic <+: image.drop offset := by
  rw [List.drop_take, List.prefix_take_iff, and_iff_left]
  simp only [magic, List.length_cons, List.length_nil]
  omega

/-- Behind the first magic an image can be cut, and it stands there first as before. -/
theorem Descriptor.FirstAt.take {image : Bytes} {offset length : Nat} (h : FirstAt image offset)
    (hlength : offset + 4 ≤ length) : FirstAt (image.take length) offset where
  stands := (magic_isPrefix_drop_take hlength).2 h.stands
  first := by
    intro earlier hearlier
    rw [magic_isPrefix_drop_take (by omega)]
    exact h.first earlier hearlier

/-- The magic ends within the image. -/
theorem Descriptor.FirstAt.offset_le {image : Bytes} {offset : Nat} (h : FirstAt image offset) :
    offset + 4 ≤ image.length := by
  have hle := h.stands.length_le
  simp only [magic, List.length_drop, List.length_cons, List.length_nil] at hle
  omega

/-- Whatever is put behind an image, its first magic stays the first. -/
theorem Descriptor.FirstAt.append {image : Bytes} {offset : Nat} (h : FirstAt image offset)
    (tail : Bytes) : FirstAt (image ++ tail) offset := by
  have hle := h.offset_le
  have hstands : ∀ place ≤ offset,
      magic <+: image.drop place ↔ magic <+: (image ++ tail).drop place := by
    intro place hplace
    have hlength : place + 4 ≤ image.length := by omega
    have hcut : magic <+: ((image ++ tail).take image.length).drop place ↔
        magic <+: (image ++ tail).drop place :=
      magic_isPrefix_drop_take hlength
    rwa [List.take_left] at hcut
  constructor
  · exact (hstands offset le_rfl).1 h.stands
  · intro earlier hearlier
    rw [← hstands earlier hearlier.le]
    exact h.first earlier hearlier

/-- What is in front of the end of the first magic does not hold the magic. -/
theorem Descriptor.FirstAt.magic_absent {image : Bytes} {offset length : Nat}
    (h : FirstAt image offset) (hlength : length < offset + 4) : ¬magic <:+: image.take length := by
  intro hmagic
  obtain ⟨front, back, hsplit⟩ := hmagic
  have hle := congrArg List.length hsplit
  simp only [magic, List.length_append, List.length_take, List.length_cons, List.length_nil] at hle
  have hstands : magic <+: (image.take length).drop front.length := by
    rw [← hsplit, List.append_assoc, List.drop_left]
    exact List.prefix_append magic back
  rw [magic_isPrefix_drop_take (by omega)] at hstands
  exact h.first front.length (by omega) hstands

/-- No descriptor is found exactly if the magic stands nowhere. -/
theorem findDescriptor_eq_none_iff {image : Bytes} :
    findDescriptor image = none ↔ ¬Descriptor.magic <:+: image := by
  have hsearch : findDescriptor image = none ↔ Bytes.find? Descriptor.magic image = none := by
    unfold findDescriptor
    cases Bytes.find? Descriptor.magic image <;> simp
  rw [hsearch, Bytes.find?, Bytes.findFrom?_eq_none_iff, List.infix_iff_prefix_suffix]
  constructor
  · rintro h ⟨back, hback, front, rfl⟩
    exact h front back rfl (Descriptor.ne_nil_of_magic hback) hback
  · intro h front back himage _ hback
    exact h ⟨back, hback, front, himage.symm⟩

/-- Searching an image for the magic finds where it stands first. -/
theorem Descriptor.find?_eq_some_iff {image : Bytes} {offset : Nat} :
    Bytes.find? magic image = some offset ↔ FirstAt image offset := by
  rw [Bytes.find?, Bytes.findFrom?_eq_some_iff]
  constructor
  · rintro ⟨front, back, rfl, -, hback, hoffset, hfirst⟩
    obtain rfl : offset = front.length := by omega
    refine ⟨by rwa [List.drop_left], fun earlier hearlier => ?_⟩
    rw [List.drop_append_of_le_length hearlier.le]
    refine hfirst (front.take earlier) (front.drop earlier) (List.take_append_drop _ _) ?_
    rw [Ne, List.drop_eq_nil_iff]
    omega
  · rintro ⟨hstands, hfirst⟩
    have hne := ne_nil_of_magic hstands
    have hlt : offset < image.length := by
      rw [Ne, List.drop_eq_nil_iff] at hne
      omega
    refine ⟨image.take offset, image.drop offset, (List.take_append_drop _ _).symm, hne, hstands,
      ?_, ?_⟩
    · rw [List.length_take]
      omega
    · intro before after hfront hafter
      have hlength := congrArg List.length hfront
      rw [List.length_append, List.length_take] at hlength
      have hpos := List.length_pos_of_ne_nil hafter
      have hdrop : image.drop before.length = after ++ image.drop offset := by
        conv_lhs => rw [← List.take_append_drop offset image, ← hfront, List.append_assoc]
        exact List.drop_left
      rw [← hdrop]
      exact hfirst before.length (by omega)

/-- A descriptor is found where the magic stands first, and reaches to the end of the image. -/
theorem findDescriptor_eq_some_iff {image : Bytes} {location : Location} :
    findDescriptor image = some location ↔
      Descriptor.FirstAt image location.offset ∧
        location.length = image.length - location.offset := by
  rw [← Descriptor.find?_eq_some_iff]
  unfold findDescriptor
  obtain ⟨offset, length⟩ := location
  cases hfind : Bytes.find? Descriptor.magic image with
  | none => simp
  | some found =>
    simp only [Option.some.injEq, Location.mk.injEq]
    omega

/-- An image that holds the magic has a first place where it stands. -/
theorem Descriptor.exists_firstAt {image : Bytes} (h : magic <:+: image) :
    ∃ offset, FirstAt image offset := by
  cases hfind : findDescriptor image with
  | none => exact absurd h (findDescriptor_eq_none_iff.1 hfind)
  | some location => exact ⟨location.offset, (findDescriptor_eq_some_iff.1 hfind).1⟩

end FirmwareTransparency
