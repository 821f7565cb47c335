import FirmwareTransparency.Proofs.Descriptor.Layout
import FirmwareTransparency.Proofs.Descriptor.RoundTrip

/-!
# Numbers that a descriptor says twice

The total size and the number of entries follow from each other, and the size of an entry's log root
and both sizes of its proof follow from the rest of the entry. So no such number can be changed
alone, whatever is put behind the descriptor. That needs no run of the reader: encodings that start
the same are the same, so the changed bytes would have to be the encoding of a descriptor whose
other parts are the old ones. Main statement: `parse_setNumberAt`.
-/

set_option autoImplicit false

namespace FirmwareTransparency

namespace Bytes

/-! ## One number among bytes -/

/-- The bytes with another number of so many bytes at an offset. -/
def setNumberAt (bytes : Bytes) (offset width value : Nat) : Bytes :=
  bytes.take offset ++ bigEndian width value ++ bytes.drop (offset + width)

/-- Bytes that hold a number at an offset and depend on it nowhere else. -/
def Slot (write : Nat → Bytes) (offset width : Nat) : Prop :=
  ∃ front back, front.length = offset ∧
    ∀ value, write value = front ++ (bigEndian width value ++ back)

section Slot

variable {write : Nat → Bytes} {offset width : Nat}

/-- Bytes with another number in the slot are those that are written with it. -/
theorem Slot.setNumberAt (h : Slot write offset width) (old value : Nat) :
    (write old).setNumberAt offset width value = write value := by
  obtain ⟨front, back, rfl, hwrite⟩ := h
  have hback : (front ++ (bigEndian width old ++ back)).drop (front.length + width) = back := by
    rw [← List.drop_drop, List.drop_left, List.drop_left' (length_bigEndian width old)]
  rw [hwrite, hwrite, Bytes.setNumberAt, List.take_left, hback, List.append_assoc]

/-- The number in the slot is the one that was written. -/
theorem Slot.numberAt (h : Slot write offset width) {old : Nat} (hold : old < 256 ^ width) :
    (write old).numberAt offset width = old := by
  obtain ⟨front, back, rfl, hwrite⟩ := h
  refine numberAt_behind ?_ hold
  rw [hwrite, ← List.append_assoc]
  exact List.prefix_append _ back

/-- A slot remains one behind other bytes. -/
theorem Slot.behind (h : Slot write offset width) (before : Bytes) :
    Slot (fun value => before ++ write value) (before.length + offset) width := by
  obtain ⟨front, back, rfl, hwrite⟩ := h
  refine ⟨before ++ front, back, List.length_append, ?_⟩
  intro value
  simp only [hwrite, List.append_assoc]

/-- A slot remains one in front of other bytes. -/
theorem Slot.before (h : Slot write offset width) (after : Bytes) :
    Slot (fun value => write value ++ after) offset width := by
  obtain ⟨front, back, hfront, hwrite⟩ := h
  refine ⟨front, back ++ after, hfront, ?_⟩
  intro value
  simp only [hwrite, List.append_assoc]

end Slot

end Bytes

open Bytes Read

/-! ## Entries -/

/-- Limits that every descriptor with an encoding is within. -/
def Limits.widest : Limits where
  maxEntries := Descriptor.maxEntryCount
  maxLogUrlSize := Entry.maxSize32
  maxLeafSize := Entry.maxSize32
  maxSignatureSize := Entry.maxSize16

namespace Entry

/-- The numbers in an entry's header that follow from the rest of the entry. -/
inductive Redundant where
  | rootSize
  | proofCount
  | proofSize
  deriving DecidableEq

namespace Redundant

/-- Where the number stands in the header. -/
def offset : Redundant → Nat
  | .rootSize => 12
  | .proofCount => 22
  | .proofSize => 23

/-- How many bytes the number takes. -/
def width : Redundant → Nat
  | .rootSize => 4
  | .proofCount => 1
  | .proofSize => 4

/-- The number in a header. -/
def get : Redundant → Header → Nat
  | .rootSize => Header.rootSize
  | .proofCount => Header.proofCount
  | .proofSize => Header.proofSize

/-- The header with another number. -/
def set (field : Redundant) (header : Header) (value : Nat) : Header :=
  match field with
  | .rootSize => { header with rootSize := value }
  | .proofCount => { header with proofCount := value }
  | .proofSize => { header with proofSize := value }

/-- A header with the number that it has is the same header. -/
theorem set_get (field : Redundant) (header : Header) :
    field.set header (field.get header) = header := by
  cases field <;> rfl

/-- The number stands in a slot of the header's encoding. -/
theorem slot (field : Redundant) (header : Header) :
    Slot (fun value => (field.set header value).encode) field.offset field.width := by
  let upToIndex := bigEndian 4 header.urlSize ++ ofUInt64 header.leafIndex
  let sizes := bigEndian 4 header.leafSize ++ bigEndian 2 header.signatureSize
  cases field with
  | rootSize =>
    refine ⟨upToIndex, sizes ++ bigEndian 1 header.proofCount ++ bigEndian 4 header.proofSize,
      by simp [upToIndex, ofUInt64, offset], ?_⟩
    intro value
    simp only [set, Header.encode, width, upToIndex, sizes, List.append_assoc]
  | proofCount =>
    refine ⟨upToIndex ++ bigEndian 4 header.rootSize ++ sizes, bigEndian 4 header.proofSize,
      by simp [upToIndex, sizes, ofUInt64, offset], ?_⟩
    intro value
    simp only [set, Header.encode, width, upToIndex, sizes, List.append_assoc]
  | proofSize =>
    refine ⟨upToIndex ++ bigEndian 4 header.rootSize ++ sizes ++ bigEndian 1 header.proofCount, [],
      by simp [upToIndex, sizes, ofUInt64, offset], ?_⟩
    intro value
    simp only [set, Header.encode, width, upToIndex, sizes, List.append_assoc, List.append_nil]

/-- A header still fits with another number that fits. -/
theorem fits_set (field : Redundant) {header : Header} (h : header.Fits) {value : Nat}
    (hvalue : value < 256 ^ field.width) : (field.set header value).Fits := by
  cases field with
  | rootSize => exact { h with root := hvalue }
  | proofCount => exact { h with count := hvalue }
  | proofSize => exact { h with proof := hvalue }

/-- The number of a header that fits does. -/
theorem get_lt (field : Redundant) {header : Header} (h : header.Fits) :
    field.get header < 256 ^ field.width := by
  cases field with
  | rootSize => exact h.root
  | proofCount => exact h.count
  | proofSize => exact h.proof

end Redundant

/-- Everything of an entry that stands behind its header. -/
def parts (entry : Entry) : Bytes :=
  entry.urlBytes ++ (entry.logRoot.encode ++
    (entry.leaf.raw ++ (entry.signature ++ entry.proof.flatMap FixedBytes.toBytes)))

/-- An entry is its header and its parts. -/
theorem header_append_parts (entry : Entry) :
    entry.header.encode ++ entry.parts = entry.encode := by
  simp only [encode_eq, parts, List.append_assoc]

/-- Under the widest limits every well-formed entry is read. -/
theorem read_widest_exact : Exact (read .widest) WellFormed encode := by
  intro cursor entry after
  rw [read_exact]
  have hvalid : entry.WellFormed → entry.validate .widest = .ok () := by
    intro h
    simp only [validate, check_bind_eq_ok_iff, checkSize_eq_ok_iff]
    exact ⟨h.url_size, h.leaf_size, h.signature_size⟩
  exact and_congr_left' ⟨And.left, fun h => ⟨h, hvalid h⟩⟩

/-- No entry is written as nothing. -/
theorem encode_ne_nil (entry : Entry) : entry.encode ≠ [] := by
  intro hnil
  have hlength := congrArg List.length hnil
  rw [length_encode, encodedSize, headerSize, List.length_nil] at hlength
  omega

/-- With the size of the address and the index kept, what stands behind a header fixes the redundant
numbers in it. -/
theorem redundant_of_append {entry other : Entry} (h : entry.WellFormed) (hother : other.WellFormed)
    {header : Header} (hfits : header.Fits) (hurl : header.urlSize = entry.urlBytes.length)
    (hindex : header.leafIndex = entry.leafIndex) {back rest : Bytes}
    (hbytes : header.encode ++ (entry.parts ++ back) = other.encode ++ rest) :
    header.rootSize = entry.logRoot.encodedSize ∧ header.proofCount = entry.proof.length ∧
      header.proofSize = entry.proof.length * 32 := by
  rw [← header_append_parts, List.append_assoc] at hbytes
  obtain ⟨rfl, hparts⟩ := Header.read_exact.append_inj hfits hother.header_fits hbytes
  simp only [parts, List.append_assoc] at hparts
  obtain ⟨-, hparts⟩ := List.append_inj hparts hurl.symm
  obtain ⟨hroot, -⟩ := LogRoot.read_exact.append_inj h.root hother.root hparts
  -- The tree size stands in the log root, so the proof has to have the old length.
  have hlength := checkPosition_eq_ok_iff.1 h.position
  have hsame := checkPosition_eq_ok_iff.1 hother.position
  have hposition : other.leafIndex = entry.leafIndex := hindex
  rw [hposition, treeSize, ← hroot, ← treeSize, hlength] at hsame
  have hproof : other.proof.length = entry.proof.length := (Option.some.inj hsame).symm
  refine ⟨?_, hproof, ?_⟩
  · change other.logRoot.encodedSize = _
    rw [hroot]
  · change other.proof.length * 32 = _
    rw [hproof]

/-- Where an entry with another number begins like an entry, the number is the old one. -/
theorem Redundant.eq_of_append (field : Redundant) {entry other : Entry} (h : entry.WellFormed)
    (hother : other.WellFormed) {value : Nat} (hvalue : value < 256 ^ field.width)
    {back rest : Bytes}
    (hbytes : (field.set entry.header value).encode ++ (entry.parts ++ back) =
      other.encode ++ rest) : value = field.get entry.header := by
  have hfits := field.fits_set h.header_fits hvalue
  have hurl : (field.set entry.header value).urlSize = entry.urlBytes.length := by
    cases field <;> rfl
  have hindex : (field.set entry.header value).leafIndex = entry.leafIndex := by
    cases field <;> rfl
  obtain ⟨hroot, hcount, hsize⟩ := redundant_of_append h hother hfits hurl hindex hbytes
  cases field with
  | rootSize => exact hroot
  | proofCount => exact hcount
  | proofSize => exact hsize

end Entry

namespace Descriptor

/-! ## The header -/

/-- A header whose numbers fit their fields. -/
structure Header.Fits (header : Header) : Prop where
  size : header.totalSize < 256 ^ 4
  count : header.entryCount < 256 ^ 2

/-- The numbers of a well-formed descriptor fit their fields. -/
theorem WellFormed.header_fits {descriptor : Descriptor} (h : descriptor.WellFormed) :
    descriptor.header.Fits :=
  ⟨Nat.lt_succ_of_le h.size_le, Nat.lt_succ_of_le h.length_le⟩

/-- The declared size stands in a slot of the header's encoding. -/
theorem Header.totalSize_slot (header : Header) :
    Slot (fun value => { header with totalSize := value }.encode) 12 4 := by
  refine ⟨magic ++ ofUInt32 header.major ++ ofUInt32 header.minor,
    bigEndian 2 header.entryCount, by simp [magic, ofUInt32], ?_⟩
  intro value
  simp only [Header.encode, List.append_assoc]

/-- The number of entries stands in a slot of the header's encoding. -/
theorem Header.entryCount_slot (header : Header) :
    Slot (fun value => { header with entryCount := value }.encode) 16 2 := by
  refine ⟨magic ++ ofUInt32 header.major ++ ofUInt32 header.minor ++
    bigEndian 4 header.totalSize, [], by simp [magic, ofUInt32], ?_⟩
  intro value
  simp only [Header.encode, List.append_assoc, List.append_nil]

/-- Two headers at one place are the same in both numbers, and so is what is behind them. -/
theorem Header.append_inj {header other : Header} (h : header.Fits) (hother : other.Fits)
    {back rest : Bytes} (hbytes : header.encode ++ back = other.encode ++ rest) :
    header.totalSize = other.totalSize ∧ header.entryCount = other.entryCount ∧ back = rest := by
  have hlength : header.encode.length = other.encode.length := by
    rw [length_encode, length_encode]
  obtain ⟨hencode, hback⟩ := List.append_inj hbytes hlength
  refine ⟨?_, ?_, hback⟩
  · have hleft : header.encode.numberAt 12 4 = _ := header.totalSize_slot.numberAt h.size
    have hright : other.encode.numberAt 12 4 = _ := other.totalSize_slot.numberAt hother.size
    rw [← hleft, hencode, hright]
  · have hleft : header.encode.numberAt 16 2 = _ := header.entryCount_slot.numberAt h.count
    have hright : other.encode.numberAt 16 2 = _ := other.entryCount_slot.numberAt hother.count
    rw [← hleft, hencode, hright]

/-- In front of a descriptor's entries either number of the header fixes the other one. -/
theorem numbers_of_append {descriptor other : Descriptor} (h : descriptor.WellFormed)
    (hother : other.WellFormed) {header : Header} (hfits : header.Fits)
    (hkept : header.totalSize = descriptor.totalSize ∨
      header.entryCount = descriptor.entries.length)
    {tail rest : Bytes}
    (hbytes : header.encode ++ (descriptor.body ++ tail) =
      other.header.encode ++ (other.body ++ rest)) :
    header.totalSize = descriptor.totalSize ∧
      header.entryCount = descriptor.entries.length := by
  obtain ⟨hsize, hcount, hbodies⟩ := Header.append_inj hfits hother.header_fits hbytes
  have hentries : descriptor.entries = other.entries := by
    rcases hkept with hkept | hkept
    · have htotal : other.totalSize = descriptor.totalSize := hsize.symm.trans hkept
      have hlength : descriptor.body.length = other.body.length := by
        rw [h.length_body, hother.length_body, htotal]
      have hbody := (List.append_inj hbodies hlength).1
      exact Entry.read_widest_exact.flatMap_inj (fun entry _ => entry.encode_ne_nil) h.entries
        hother.entries hbody
    · have hnumber : other.entries.length = descriptor.entries.length := hcount.symm.trans hkept
      have htimes := Entry.read_widest_exact.times descriptor.entries.length
      exact (htimes.append_inj ⟨rfl, h.entries⟩ ⟨hnumber, hother.entries⟩ hbodies).1
  rw [hsize, hcount, h.size, hentries]
  exact ⟨hother.size, rfl⟩

/-! ## Descriptors -/

/-- The numbers in a descriptor that follow from the rest of it. -/
inductive Redundant where
  | totalSize
  | entryCount
  | ofEntry (index : Nat) (field : Entry.Redundant)
  deriving DecidableEq

namespace Redundant

/-- Where the number stands in the bytes of a descriptor. -/
def offset (bytes : Bytes) : Redundant → Nat
  | .totalSize => 12
  | .entryCount => 16
  | .ofEntry index field => entryOffset bytes index + field.offset

/-- How many bytes the number takes. -/
def width : Redundant → Nat
  | .totalSize => 4
  | .entryCount => 2
  | .ofEntry _ field => field.width

/-- Whether a descriptor has such a number. -/
def IsIn (descriptor : Descriptor) : Redundant → Prop
  | .totalSize => True
  | .entryCount => True
  | .ofEntry index _ => index < descriptor.entries.length

end Redundant

/-- With another number at an offset the bytes are the beginning of no descriptor, whatever is put
behind them. -/
def Fixes (bytes : Bytes) (offset width : Nat) : Prop :=
  ∀ value < 256 ^ width, ∀ other : Descriptor, other.WellFormed → ∀ tail rest,
    bytes.setNumberAt offset width value ++ tail = other.header.encode ++ (other.body ++ rest) →
      value = bytes.numberAt offset width

/-- A number is fixed if no other value in its slot begins a descriptor. -/
theorem fixes_of_slot {write : Nat → Bytes} {offset width old : Nat}
    (hslot : Slot write offset width) (hold : old < 256 ^ width)
    (h : ∀ value < 256 ^ width, ∀ other : Descriptor, other.WellFormed → ∀ tail rest,
      write value ++ tail = other.header.encode ++ (other.body ++ rest) → value = old) :
    Fixes (write old) offset width := by
  intro value hvalue other hother tail rest hbytes
  rw [hslot.setNumberAt] at hbytes
  rw [hslot.numberAt hold]
  exact h value hvalue other hother tail rest hbytes

section Fixes

variable {descriptor : Descriptor}

/-- The entries fix the declared size. -/
theorem fixes_totalSize (h : descriptor.WellFormed) :
    Fixes (descriptor.header.encode ++ descriptor.body) 12 4 := by
  have hslot := descriptor.header.totalSize_slot.before descriptor.body
  refine fixes_of_slot hslot h.header_fits.size ?_
  intro value hvalue other hother tail rest hbytes
  have hfits : Header.Fits { descriptor.header with totalSize := value } :=
    ⟨hvalue, h.header_fits.count⟩
  rw [List.append_assoc] at hbytes
  exact (numbers_of_append h hother hfits (.inr rfl) hbytes).1

/-- The entries fix their number. -/
theorem fixes_entryCount (h : descriptor.WellFormed) :
    Fixes (descriptor.header.encode ++ descriptor.body) 16 2 := by
  have hslot := descriptor.header.entryCount_slot.before descriptor.body
  refine fixes_of_slot hslot h.header_fits.count ?_
  intro value hvalue other hother tail rest hbytes
  have hfits : Header.Fits { descriptor.header with entryCount := value } :=
    ⟨h.header_fits.size, hvalue⟩
  rw [List.append_assoc] at hbytes
  exact (numbers_of_append h hother hfits (.inl rfl) hbytes).2

/-- An entry stands between those in front of it and those behind it. -/
theorem body_eq {index : Nat} {entry : Entry} (hentry : descriptor.entries[index]? = some entry) :
    ∃ behind, descriptor.body =
      (descriptor.entries.take index).flatMap Entry.encode ++ (entry.encode ++ behind) := by
  obtain ⟨behind, hbehind⟩ := upTo_append_isPrefix hentry
  refine ⟨behind, ?_⟩
  rw [upTo] at hbehind
  simp only [List.append_assoc] at hbehind
  exact (List.append_cancel_left hbehind).symm

/-- Where an entry stands, one stands in every descriptor that is the same so far. -/
theorem exists_entry_of_append {other : Descriptor} (h : descriptor.WellFormed)
    (hother : other.WellFormed) {index : Nat} (hindex : index < descriptor.entries.length)
    {left rest : Bytes}
    (hbytes : descriptor.upTo index ++ left = other.header.encode ++ (other.body ++ rest)) :
    ∃ (entry : Entry) (behind : Bytes), entry.WellFormed ∧ left = entry.encode ++ behind := by
  rw [upTo, List.append_assoc] at hbytes
  obtain ⟨-, hcount, hbodies⟩ := Header.append_inj h.header_fits hother.header_fits hbytes
  have hotherIndex : index < other.entries.length := hindex.trans_eq hcount
  have hentry := List.getElem?_eq_getElem hotherIndex
  obtain ⟨behind, hbody⟩ := body_eq hentry
  rw [hbody] at hbodies
  simp only [List.append_assoc] at hbodies
  have hfront : ∀ descriptor : Descriptor, descriptor.WellFormed →
      index < descriptor.entries.length → (descriptor.entries.take index).length = index ∧
        ∀ entry ∈ descriptor.entries.take index, entry.WellFormed :=
    fun descriptor h hindex => ⟨List.length_take_of_le hindex.le,
      fun entry hmem => h.entries entry (List.mem_of_mem_take hmem)⟩
  have htimes := Entry.read_widest_exact.times index
  obtain ⟨-, hleft⟩ :=
    htimes.append_inj (hfront _ h hindex) (hfront _ hother hotherIndex) hbodies
  exact ⟨_, _, hother.entries _ (List.mem_of_getElem? hentry), hleft⟩

/-- What follows from the rest of an entry is fixed in the descriptor as well. -/
theorem fixes_entry (h : descriptor.WellFormed) {index : Nat} {entry : Entry}
    (hentry : descriptor.entries[index]? = some entry) (field : Entry.Redundant) :
    Fixes (descriptor.header.encode ++ descriptor.body)
      ((descriptor.upTo index).length + field.offset) field.width := by
  have hindex : index < descriptor.entries.length := (List.getElem?_eq_some_iff.1 hentry).1
  have hformed := h.entries entry (List.mem_of_getElem? hentry)
  obtain ⟨behind, hbody⟩ := body_eq hentry
  let write value := descriptor.upTo index ++
    ((field.set entry.header value).encode ++ (entry.parts ++ behind))
  have hslot : Slot write ((descriptor.upTo index).length + field.offset) field.width :=
    ((field.slot entry.header).before _).behind _
  have hold : write (field.get entry.header) = descriptor.header.encode ++ descriptor.body := by
    simp only [write]
    rw [field.set_get, ← List.append_assoc entry.header.encode, Entry.header_append_parts, hbody,
      upTo, List.append_assoc]
  rw [← hold]
  refine fixes_of_slot hslot (field.get_lt hformed.header_fits) ?_
  intro value hvalue other hother tail rest hbytes
  simp only [write, List.append_assoc] at hbytes
  obtain ⟨_, _, hotherEntry, hleft⟩ := exists_entry_of_append h hother hindex hbytes
  exact field.eq_of_append hformed hotherEntry hvalue hleft

/-- Each of the numbers that follow from the rest of a descriptor is fixed. -/
theorem Redundant.fixes (h : descriptor.WellFormed) {field : Redundant}
    (hfield : field.IsIn descriptor) :
    Fixes (descriptor.header.encode ++ descriptor.body)
      (field.offset (descriptor.header.encode ++ descriptor.body)) field.width := by
  cases field with
  | totalSize => exact fixes_totalSize h
  | entryCount => exact fixes_entryCount h
  | ofEntry index field =>
    have hindex : index < descriptor.entries.length := hfield
    rw [offset, entryOffset_eq h List.prefix_rfl hindex.le]
    exact fixes_entry h (List.getElem?_eq_getElem hindex) field

end Fixes

/-! ## Main results -/

/-- A total size of more than the entries fill is refused for itself. -/
theorem read_fails_of_longer {limits : Limits} {header : Header} (h : header.Accepted limits)
    {entries : List Entry}
    (hentries : ∀ entry ∈ entries, entry.WellFormed ∧ entry.validate limits = .ok ())
    (hcount : entries.length = header.entryCount) {more : Bytes} (hmore : more ≠ [])
    (hsize : sizeOver entries + more.length = header.totalSize) :
    Fails (read limits) (header.encode ++ (entries.flatMap Entry.encode ++ more))
      (.sizeMismatch header.totalSize (sizeOver entries)) := by
  have hpart : (entries.flatMap Entry.encode ++ more).length = header.totalSize - headerSize := by
    rw [← hsize, ← length_flatMap_encode, List.length_append]
    omega
  have htimes := (Entry.read_exact limits).times header.entryCount
  have hpasses : Cursor.Passes (.start (entries.flatMap Entry.encode ++ more))
      (entries.flatMap Entry.encode) ⟨(entries.flatMap Entry.encode).length, more⟩ :=
    ⟨rfl, (Nat.zero_add _).symm⟩
  have hwithin : ∀ cursor,
      within (.start (entries.flatMap Entry.encode ++ more))
        (times header.entryCount (Entry.read limits)) cursor =
          .ok (entries, ⟨(entries.flatMap Entry.encode).length, more⟩) cursor :=
    fun cursor => within_eq_ok_iff.2 ⟨(htimes _ _ _).2 ⟨⟨hcount, hentries⟩, hpasses⟩, rfl⟩
  refine Fails.bind_right (fun _ _ hfront => (Header.read_exact limits _ _ _).2 ⟨h, hfront⟩) ?_
  rw [← List.append_nil (entries.flatMap Entry.encode ++ more)]
  refine Fails.bind_right (a := Cursor.start (entries.flatMap Entry.encode ++ more))
    (fun _ _ hbody => part_eq_ok_iff.2 ⟨rfl, hpart, hbody⟩) ?_
  -- Every entry is read, and `more` is left of the part.
  change Fails _ ([] ++ []) _
  refine Fails.bind_right (a := (entries, ⟨(entries.flatMap Entry.encode).length, more⟩)) ?_ ?_
  · intro cursor middle hnil
    rw [Cursor.Passes.nil_iff.1 hnil]
    exact hwithin middle
  · have hleft :
        (!(⟨(entries.flatMap Entry.encode).length, more⟩ : Cursor).isEmpty) = true := by
      simpa [Cursor.isEmpty] using hmore
    rw [← length_flatMap_encode]
    exact fails_of_guard hleft

/-- A descriptor that declares more bytes than its entries take is refused with both sizes. -/
theorem parse_of_longer {limits : Limits} {descriptor : Descriptor} (h : descriptor.WellFormed)
    (hvalid : descriptor.validate limits = .ok ()) {excess : Nat} {tail : Bytes}
    (hpos : 0 < excess) (hle : excess ≤ tail.length)
    (hsize : descriptor.totalSize + excess < 256 ^ 4) :
    parse limits ({ descriptor.header with totalSize := descriptor.totalSize + excess }.encode ++
        (descriptor.body ++ tail)) =
      .error (.sizeMismatch (descriptor.totalSize + excess) descriptor.totalSize) := by
  obtain ⟨hcount, hentries⟩ := validate_eq_ok_iff.1 hvalid
  have hheader := h.header_accepted hcount
  have haccepted : Header.Accepted limits
      { descriptor.header with totalSize := descriptor.totalSize + excess } :=
    { hheader with
      size_ge := hheader.size_ge.trans (Nat.le_add_right _ _)
      size_lt := hsize }
  have hformed : ∀ entry ∈ descriptor.entries,
      entry.WellFormed ∧ entry.validate limits = .ok () :=
    fun entry hentry => ⟨h.entries entry hentry, hentries entry hentry⟩
  have hlength : (tail.take excess).length = excess := List.length_take_of_le hle
  have hmore : tail.take excess ≠ [] := by
    apply List.ne_nil_of_length_pos
    rwa [hlength]
  -- What the larger size covers of the tail is refused, and the rest of it is not looked at.
  have hfails := read_fails_of_longer haccepted hformed rfl hmore (by rw [hlength, ← h.size])
  have hparse := hfails.onBytes (tail.drop excess)
  simp only [List.append_assoc, List.take_append_drop] at hparse
  rwa [← h.size] at hparse

/-- A descriptor with another value for a number that is fixed is refused. -/
theorem parse_of_fixes {bytes : Bytes} {offset width value : Nat} (h : Fixes bytes offset width)
    (hvalue : value < 256 ^ width) (hne : value ≠ bytes.numberAt offset width) (limits : Limits)
    (tail : Bytes) :
    ∃ e, parse limits (bytes.setNumberAt offset width value ++ tail) = .error e := by
  cases hparse : parse limits (bytes.setNumberAt offset width value ++ tail) with
  | error e => exact ⟨e, rfl⟩
  | ok other =>
    obtain ⟨⟨hother, -⟩, rest, hrest⟩ := parse_eq_ok_iff.1 hparse
    rw [List.append_assoc] at hrest
    exact absurd (h value hvalue other hother tail rest hrest) hne

/-- The numbers that a descriptor says twice leave no slack: with another one in such a place the
bytes are refused, whatever the limits and whatever is put behind them. A larger total size over
enough further bytes is refused for itself. -/
theorem parse_setNumberAt {limits : Limits} {bytes : Bytes} {descriptor : Descriptor}
    (h : parse limits bytes = .ok descriptor) (hencode : descriptor.encode = .ok bytes) :
    (∀ field : Redundant, field.IsIn descriptor → ∀ value < 256 ^ field.width,
      value ≠ bytes.numberAt (field.offset bytes) field.width → ∀ otherLimits tail,
        ∃ e, parse otherLimits (bytes.setNumberAt (field.offset bytes) field.width value ++ tail) =
          .error e) ∧
      ∀ excess tail, 0 < excess → excess ≤ tail.length → descriptor.totalSize + excess < 256 ^ 4 →
        parse limits (bytes.setNumberAt 12 4 (descriptor.totalSize + excess) ++ tail) =
          .error (.sizeMismatch (descriptor.totalSize + excess) descriptor.totalSize) := by
  obtain ⟨⟨hformed, hvalid⟩, -⟩ := parse_eq_ok_iff.1 h
  obtain rfl : descriptor.header.encode ++ descriptor.body = bytes :=
    Except.ok.inj (hformed.encode_eq.symm.trans hencode)
  constructor
  · intro field hfield value hvalue hne otherLimits tail
    exact parse_of_fixes (field.fixes hformed hfield) hvalue hne otherLimits tail
  · intro excess tail hpos hle hsize
    have hslot : Slot (fun value => { descriptor.header with totalSize := value }.encode ++
        descriptor.body) 12 4 := descriptor.header.totalSize_slot.before descriptor.body
    have hset : (descriptor.header.encode ++ descriptor.body).setNumberAt 12 4
        (descriptor.totalSize + excess) = _ := hslot.setNumberAt descriptor.totalSize _
    rw [hset, List.append_assoc]
    exact parse_of_longer hformed hvalid hpos hle hsize

/-- Another size of the only proof is refused, and so is a declared size that is one too large. -/
theorem parse_setNumberAt_sample :
    ∃ bytes, parse .standard bytes = .ok sample ∧ sample.encode = .ok bytes ∧
      (∃ e, parse .standard (bytes.setNumberAt 41 4 32 ++ [255]) = .error e) ∧
        parse .standard (bytes.setNumberAt 12 4 258 ++ [0]) = .error (.sizeMismatch 258 257) := by
  have h : parse .standard (sample.header.encode ++ sample.body) = .ok sample := by
    decide +kernel
  have hencode := sample_obtainable.wellFormed.encode_eq
  have hsize : sample.totalSize = 257 := by decide +kernel
  obtain ⟨hfixed, hlonger⟩ := parse_setNumberAt h hencode
  have hlarger := hlonger 1 [0] Nat.one_pos le_rfl (by rw [hsize]; decide)
  rw [hsize] at hlarger
  refine ⟨_, h, hencode, ?_, hlarger⟩
  apply hfixed (.ofEntry 0 .proofSize) Nat.one_pos 32
  · decide
  · decide +kernel

end Descriptor

end FirmwareTransparency
