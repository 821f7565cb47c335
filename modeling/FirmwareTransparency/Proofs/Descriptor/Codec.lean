import FirmwareTransparency.Descriptor.Basic
import FirmwareTransparency.Proofs.Descriptor.Entry

/-!
# Descriptors on the wire

A descriptor that can be written has one encoding, and reading finds it there and nowhere else. Main
statements: `parse_eq_ok_iff` says that a byte string is read as a descriptor exactly if the
descriptor is well formed, within the limits and encoded at the front; `parse_of_validate_error`
that the encoding of one beyond the limits is refused with the cause that `validate` gives.
-/

set_option autoImplicit false

namespace FirmwareTransparency.Descriptor

open Read

/-! ## Limits on entries one after the other -/

/-- A check of a list holds exactly if it holds for each of its items. -/
theorem forM_eq_ok_iff {α : Type} {check : α → Except FormatError Unit} {list : List α} :
    list.forM check = .ok () ↔ ∀ a ∈ list, check a = .ok () := by
  induction list with
  | nil => exact ⟨fun _ => by simp, fun _ => rfl⟩
  | cons a list ih =>
    rw [List.forall_mem_cons, ← ih]
    exact check_bind_eq_ok_iff

/-- A check of one after the other fails at the first that fails. -/
theorem exists_of_forM_eq_error {α : Type} {check : α → Except FormatError Unit} {list : List α}
    {e : FormatError} (h : list.forM check = .error e) :
    ∃ good bad rest, list = good ++ bad :: rest ∧ (∀ a ∈ good, check a = .ok ()) ∧
      check bad = .error e := by
  induction list with
  | nil => cases h
  | cons a list ih =>
    change (check a >>= fun _ => list.forM check) = .error e at h
    cases ha : check a with
    | ok u =>
      rw [ha] at h
      obtain ⟨good, bad, rest, rfl, hgood, hbad⟩ := ih h
      exact ⟨a :: good, bad, rest, rfl, List.forall_mem_cons.2 ⟨ha, hgood⟩, hbad⟩
    | error cause =>
      rw [ha] at h
      cases h
      exact ⟨[], a, list, rfl, by simp, ha⟩

/-! ## The header -/

/-- The written form of the fields in front of the entries. -/
def Header.encode (header : Header) : Bytes :=
  magic ++ Bytes.ofUInt32 header.major ++ Bytes.ofUInt32 header.minor ++
    Bytes.bigEndian 4 header.totalSize ++ Bytes.bigEndian 2 header.entryCount

/-- A header that is not refused under some limits. -/
structure Header.Accepted (limits : Limits) (header : Header) : Prop where
  major : header.major ≤ currentMajor
  minor : header.minor ≤ currentMinor
  size_ge : headerSize ≤ header.totalSize
  size_lt : header.totalSize < 256 ^ 4
  count_le : header.entryCount ≤ limits.maxEntries
  count_pos : header.entryCount ≠ 0
  count_lt : header.entryCount < 256 ^ 2

/-- A header is read exactly where it is written, if the limits accept it. -/
theorem Header.read_exact (limits : Limits) :
    Exact (Header.read limits) (Header.Accepted limits) Header.encode := by
  intro cursor header after
  simp only [Header.read, bind_eq_ok_iff, guard_eq_ok_iff, bytes_eq_ok_iff, uint16_eq_ok_iff,
    uint32_eq_ok_iff, pure_eq_ok_iff, not_not, not_or]
  constructor
  · rintro ⟨found, c1, ⟨-, h1⟩, rfl, major, c2, h2, minor, c3, h3, ⟨hmajor, hminor⟩, size, c4, h4,
      hsize, count, c5, h5, hle, hpos, rfl, rfl⟩
    have haccepted : Header.Accepted limits ⟨major, minor, size.toNat, count.toNat⟩ :=
      ⟨UInt32.not_lt.1 hmajor, UInt32.not_lt.1 hminor, Nat.le_of_not_lt hsize, size.toNat_lt,
        Nat.le_of_not_lt hle, hpos, count.toNat_lt⟩
    exact ⟨haccepted, (((h1.append h2).append h3).append h4).append h5⟩
  · rintro ⟨h, hpasses⟩
    simp only [Header.encode, Cursor.Passes.append_iff] at hpasses
    obtain ⟨c4, ⟨c3, ⟨c2, ⟨c1, h1, h2⟩, h3⟩, h4⟩, h5⟩ := hpasses
    have hsize : (UInt32.ofNat header.totalSize).toNat = header.totalSize :=
      UInt32.toNat_ofNat_of_lt' h.size_lt
    have hcount : (UInt16.ofNat header.entryCount).toNat = header.entryCount :=
      UInt16.toNat_ofNat_of_lt' h.count_lt
    refine ⟨magic, c1, ⟨rfl, h1⟩, rfl, header.major, c2, h2, header.minor, c3, h3,
      ⟨UInt32.not_lt.2 h.major, UInt32.not_lt.2 h.minor⟩, UInt32.ofNat header.totalSize, c4, ?_, ?_,
      UInt16.ofNat header.entryCount, after, ?_, ?_, ?_, ?_, rfl⟩
    · rwa [Bytes.ofUInt32, hsize]
    · rw [hsize]
      exact Nat.not_lt.2 h.size_ge
    · rwa [Bytes.ofUInt16, hcount]
    · rw [hcount]
      exact Nat.not_lt.2 h.count_le
    · rw [hcount]
      exact h.count_pos
    · rw [hsize, hcount]

/-- More entries than allowed are refused as soon as their number is known. -/
theorem Header.read_fails_of_lt {limits : Limits} {header : Header}
    (haccepted : header.Accepted { limits with maxEntries := header.entryCount })
    (hlt : limits.maxEntries < header.entryCount) :
    Fails (Header.read limits) header.encode
      (.tooManyEntries header.entryCount limits.maxEntries) := by
  have hsize : (UInt32.ofNat header.totalSize).toNat = header.totalSize :=
    UInt32.toNat_ofNat_of_lt' haccepted.size_lt
  have hcount : (UInt16.ofNat header.entryCount).toNat = header.entryCount :=
    UInt16.toNat_ofNat_of_lt' haccepted.count_lt
  have hversion : ¬(currentMajor < header.major ∨ currentMinor < header.minor) :=
    not_or.2 ⟨UInt32.not_lt.2 haccepted.major, UInt32.not_lt.2 haccepted.minor⟩
  simp only [Header.read, Header.encode, List.append_assoc]
  refine Fails.bind_right (fun _ _ h => bytes_eq_ok_iff.2 ⟨rfl, h⟩) (Fails.guard (by simp) ?_)
  refine Fails.bind_right (fun _ _ h => uint32_eq_ok_iff.2 h) ?_
  refine Fails.bind_right (fun _ _ h => uint32_eq_ok_iff.2 h) (Fails.guard hversion ?_)
  refine Fails.bind_right (a := UInt32.ofNat header.totalSize)
    (fun _ _ h => uint32_eq_ok_iff.2 (by rwa [Bytes.ofUInt32, hsize])) ?_
  rw [hsize]
  refine Fails.guard (Nat.not_lt.2 haccepted.size_ge) ?_
  rw [← List.append_nil (Bytes.bigEndian 2 header.entryCount)]
  refine Fails.bind_right (a := UInt16.ofNat header.entryCount)
    (fun _ _ h => uint16_eq_ok_iff.2 (by rwa [Bytes.ofUInt16, hcount])) ?_
  rw [hcount]
  exact fails_of_guard hlt

/-! ## Well-formed descriptors -/

/-- A descriptor that has an encoding: what it declares is what it holds. -/
structure WellFormed (descriptor : Descriptor) : Prop where
  major : descriptor.major ≤ currentMajor
  minor : descriptor.minor ≤ currentMinor
  size : descriptor.totalSize = sizeOver descriptor.entries
  size_le : descriptor.totalSize ≤ maxTotalSize
  ne_nil : descriptor.entries ≠ []
  length_le : descriptor.entries.length ≤ maxEntryCount
  entries : ∀ entry ∈ descriptor.entries, entry.WellFormed

/-- The header of a descriptor. -/
def header (descriptor : Descriptor) : Header where
  major := descriptor.major
  minor := descriptor.minor
  totalSize := descriptor.totalSize
  entryCount := descriptor.entries.length

/-- The entries as they are written. -/
def body (descriptor : Descriptor) : Bytes := descriptor.entries.flatMap Entry.encode

/-- The size over some entries is that of the header and of the entries as they are written. -/
theorem length_flatMap_encode (entries : List Entry) :
    headerSize + (entries.flatMap Entry.encode).length = sizeOver entries := by
  unfold sizeOver
  congr 1
  induction entries with
  | nil => rfl
  | cons entry entries ih =>
    rw [List.flatMap_cons, List.length_append, Entry.length_encode, ih, List.foldr_cons]

/-- Every header takes the same number of bytes. -/
theorem Header.length_encode (header : Header) : header.encode.length = headerSize := by
  simp [Header.encode, magic, headerSize, Bytes.ofUInt32]

/-- The entries take what the declared size leaves for them. -/
theorem WellFormed.length_body {descriptor : Descriptor} (h : descriptor.WellFormed) :
    descriptor.body.length = descriptor.totalSize - headerSize := by
  rw [h.size, ← length_flatMap_encode, Nat.add_sub_cancel_left]
  rfl

/-- The encoding of a descriptor is its header and its entries. -/
theorem WellFormed.encode_eq {descriptor : Descriptor} (h : descriptor.WellFormed) :
    descriptor.encode = .ok (descriptor.header.encode ++ descriptor.body) := by
  unfold encode
  rw [if_neg (not_or.2 ⟨Nat.not_lt.2 h.size_le, Nat.not_lt.2 h.length_le⟩)]
  rfl

/-- The encoding takes as many bytes as the descriptor declares. -/
theorem WellFormed.length_encode {descriptor : Descriptor} (h : descriptor.WellFormed) :
    (descriptor.header.encode ++ descriptor.body).length = descriptor.totalSize := by
  rw [List.length_append, Header.length_encode, body, length_flatMap_encode, h.size]

/-- The header of a descriptor is accepted if the limits allow for so many entries. -/
theorem WellFormed.header_accepted {descriptor : Descriptor} (h : descriptor.WellFormed)
    {limits : Limits} (hle : descriptor.entries.length ≤ limits.maxEntries) :
    descriptor.header.Accepted limits where
  major := h.major
  minor := h.minor
  size_ge := by
    change headerSize ≤ descriptor.totalSize
    rw [h.size]
    exact Nat.le_add_right _ _
  size_lt := Nat.lt_succ_of_le h.size_le
  count_le := hle
  count_pos := fun hzero => h.ne_nil (List.length_eq_zero_iff.1 hzero)
  count_lt := Nat.lt_succ_of_le h.length_le

/-- The number of entries is checked first, and then the entries in their order. -/
theorem validate_eq {descriptor : Descriptor} {limits : Limits} :
    descriptor.validate limits =
      if limits.maxEntries < descriptor.entries.length then
        .error (.tooManyEntries descriptor.entries.length limits.maxEntries)
      else descriptor.entries.forM (·.validate limits) := by
  unfold validate
  split <;> rfl

/-- A descriptor is within the limits exactly if the number of its entries and each of them are. -/
theorem validate_eq_ok_iff {descriptor : Descriptor} {limits : Limits} :
    descriptor.validate limits = .ok () ↔
      descriptor.entries.length ≤ limits.maxEntries ∧
        ∀ entry ∈ descriptor.entries, entry.validate limits = .ok () := by
  rw [← forM_eq_ok_iff, ← Nat.not_lt]
  exact check_guard_eq_ok_iff

/-- A descriptor can be made of entries exactly if there is one, they can be counted and their size
be declared. -/
theorem ofEntries_eq_ok_iff {entries : List Entry} {descriptor : Descriptor} :
    ofEntries entries = .ok descriptor ↔
      (entries ≠ [] ∧ entries.length ≤ maxEntryCount ∧ sizeOver entries ≤ maxTotalSize) ∧
        descriptor = ⟨currentMajor, currentMinor, sizeOver entries, entries⟩ := by
  simp only [ofEntries, check_guard_eq_ok_iff, check_bind_eq_ok_iff, checkSize_eq_ok_iff, pure,
    Except.pure, Except.ok.injEq, List.isEmpty_iff, Nat.not_lt, and_assoc, ne_eq,
    eq_comm (a := descriptor)]

/-- A descriptor that was made of well-formed entries is well formed. -/
theorem wellFormed_of_ofEntries {entries : List Entry} {descriptor : Descriptor}
    (hentries : ∀ entry ∈ entries, entry.WellFormed) (h : ofEntries entries = .ok descriptor) :
    descriptor.WellFormed := by
  obtain ⟨⟨hne, hlength, hsize⟩, rfl⟩ := ofEntries_eq_ok_iff.1 h
  exact ⟨UInt32.le_refl _, UInt32.le_refl _, rfl, hsize, hne, hlength, hentries⟩

/-! ## Reading -/

/-- A descriptor is read exactly where its encoding stands, if it is well formed and within the
limits. -/
theorem read_exact (limits : Limits) :
    Exact (read limits)
      (fun descriptor => descriptor.WellFormed ∧ descriptor.validate limits = .ok ())
      (fun descriptor => descriptor.header.encode ++ descriptor.body) := by
  intro cursor descriptor after
  have htimes := fun count => (Entry.read_exact limits).times count
  simp only [read, bind_eq_ok_iff, Header.read_exact limits _ _ _]
  constructor
  · rintro ⟨found, c1, ⟨haccepted, h1⟩, inner, c2, hinner, ⟨entries, last⟩, c3, hwithin, hguard⟩
    obtain ⟨hempty, hpure⟩ := guard_eq_ok_iff.1 hguard
    obtain ⟨rfl, rfl⟩ := pure_eq_ok_iff.1 hpure
    obtain ⟨⟨hcount, hentries⟩, hlength, h2⟩ :=
      (htimes found.entryCount).part_eq_ok_iff.1
        ⟨inner, c2, last, hinner, hwithin, by simpa using hempty⟩
    -- The entries fill the part that the total size leaves behind the header.
    have hsize : found.totalSize = sizeOver entries := by
      have hge := haccepted.size_ge
      rw [← length_flatMap_encode]
      omega
    refine ⟨⟨⟨haccepted.major, haccepted.minor, hsize, Nat.le_of_lt_succ haccepted.size_lt, ?_, ?_,
      fun entry hentry => (hentries entry hentry).1⟩, validate_eq_ok_iff.2 ⟨?_, ?_⟩⟩, ?_⟩
    · rintro rfl
      exact haccepted.count_pos hcount.symm
    · show entries.length ≤ _
      rw [hcount]
      exact Nat.le_of_lt_succ haccepted.count_lt
    · show entries.length ≤ _
      rw [hcount]
      exact haccepted.count_le
    · exact fun entry hentry => (hentries entry hentry).2
    · simp only [header, hcount]
      exact h1.append h2
  · rintro ⟨⟨hformed, hvalid⟩, hpasses⟩
    obtain ⟨hcount, hentries⟩ := validate_eq_ok_iff.1 hvalid
    obtain ⟨c1, h1, h2⟩ := Cursor.Passes.append_iff.1 hpasses
    have hbody : ∀ entry ∈ descriptor.entries,
        entry.WellFormed ∧ entry.validate limits = .ok () :=
      fun entry hentry => ⟨hformed.entries entry hentry, hentries entry hentry⟩
    obtain ⟨inner, c2, last, hinner, hwithin, hempty⟩ :=
      (htimes descriptor.entries.length).part_eq_ok_iff.2 ⟨⟨rfl, hbody⟩, hformed.length_body, h2⟩
    exact ⟨descriptor.header, c1, ⟨hformed.header_accepted hcount, h1⟩, inner, c2, hinner,
      (descriptor.entries, last), after, hwithin,
      guard_eq_ok_iff.2 ⟨by simp [hempty], pure_eq_ok_iff.2 ⟨rfl, rfl⟩⟩⟩

/-- The byte strings that are read as a descriptor are its encoding and whatever follows. -/
theorem parse_eq_ok_iff {limits : Limits} {bytes : Bytes} {descriptor : Descriptor} :
    parse limits bytes = .ok descriptor ↔
      (descriptor.WellFormed ∧ descriptor.validate limits = .ok ()) ∧
        ∃ rest, bytes = descriptor.header.encode ++ descriptor.body ++ rest :=
  (read_exact limits).onBytes_eq_ok_iff

/-- Where the encoding of a descriptor beyond the limits stands, reading fails with the cause that
validation gives. -/
theorem read_fails {descriptor : Descriptor} (h : descriptor.WellFormed) {limits : Limits}
    {e : FormatError} (hvalid : descriptor.validate limits = .error e) :
    Fails (read limits) (descriptor.header.encode ++ descriptor.body) e := by
  rw [validate_eq] at hvalid
  by_cases hcount : limits.maxEntries < descriptor.entries.length
  · rw [if_pos hcount] at hvalid
    cases hvalid
    have hheader := Header.read_fails_of_lt (h.header_accepted le_rfl) hcount
    exact (Fails.bind_left hheader).of_front
  · rw [if_neg hcount] at hvalid
    obtain ⟨good, bad, others, hentries, hgood, hbad⟩ := exists_of_forM_eq_error hvalid
    have hformed : ∀ entry ∈ good ++ bad :: others, entry.WellFormed := by
      rw [← hentries]
      exact h.entries
    -- The entries in front of the first bad one are read, and no later one is looked at.
    have htimes :
        Fails (times descriptor.entries.length (Entry.read limits)) descriptor.body e := by
      rw [body, hentries, List.flatMap_append, List.flatMap_cons, ← List.append_assoc,
        List.length_append, List.length_cons]
      refine (fails_timesFrom (Entry.read_exact limits) (fun entry hentry => ⟨?_, ?_⟩)
        (Entry.read_fails ?_ hbad)).of_front
      · exact hformed entry (List.mem_append_left _ hentry)
      · exact hgood entry hentry
      · exact hformed bad (by simp)
    refine Fails.bind_right (a := descriptor.header) ?_ ?_
    · intro cursor middle hpasses
      have haccepted := h.header_accepted (Nat.le_of_not_lt hcount)
      exact (Header.read_exact limits _ _ _).2 ⟨haccepted, hpasses⟩
    · rw [← List.append_nil descriptor.body]
      refine Fails.bind_right (a := Cursor.start descriptor.body) ?_ ?_
      · intro cursor middle hpasses
        exact part_eq_ok_iff.2 ⟨rfl, h.length_body, hpasses⟩
      · exact (htimes.within []).bind_left

/-- The encoding of a descriptor beyond the limits is refused with the cause that `validate` gives,
whatever follows. -/
theorem parse_of_validate_error {descriptor : Descriptor} (h : descriptor.WellFormed)
    {limits : Limits} {e : FormatError} (hvalid : descriptor.validate limits = .error e)
    (rest : Bytes) :
    parse limits (descriptor.header.encode ++ descriptor.body ++ rest) = .error e :=
  (read_fails h hvalid).onBytes rest

end FirmwareTransparency.Descriptor
