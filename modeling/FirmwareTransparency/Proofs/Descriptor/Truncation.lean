import FirmwareTransparency.Proofs.Descriptor.Codec

/-!
# Descriptors that are cut short

A read looks how many bytes are left before it takes any. So where an encoding breaks off, the reads
of what is still there succeed, and the first one that would go past the end fails for that reason
and for no other. Main statement: `parse_take` says that a descriptor that is cut short anywhere is
refused because bytes are missing.
-/

set_option autoImplicit false

namespace FirmwareTransparency

namespace Read

/-! ## Reads that run out of bytes -/

/-- A read runs out of bytes wherever only a beginning of some bytes is left. -/
def Starves {α : Type} (read : Read α) (bytes : Bytes) : Prop :=
  ∀ cursor : Cursor, cursor.rest <+: bytes → cursor.rest ≠ bytes →
    ∃ offset needed available last,
      read cursor = .error (.outOfBounds offset needed available) last

section Starves

variable {α β : Type} {read : Read α} {next : α → Read β} {front back bytes : Bytes} {count : Nat}

/-- A read of so many bytes starves where fewer are left. -/
theorem starves_fixed (h : bytes.length = count) : Starves (fixed count) bytes := by
  intro cursor hstarts hne
  have hlt : cursor.remaining < count := by
    rw [← h]
    exact lt_of_le_of_ne hstarts.length_le fun heq => hne (hstarts.eq_of_length heq)
  exact ⟨_, _, _, _, fixed_eq_error_of_lt hlt⟩

/-- Reads in a row starve if the first of them does. -/
theorem Starves.bind_left (h : Starves read bytes) : Starves (read >>= next) bytes := by
  intro cursor hstarts hne
  obtain ⟨offset, needed, available, last, hlast⟩ := h cursor hstarts hne
  exact ⟨offset, needed, available, last, bind_of_error hlast⟩

/-- Of two reads the first runs out of bytes, or it has all of its own and the second runs out. -/
theorem Starves.bind {a : α}
    (hread : ∀ cursor middle, cursor.Passes front middle → read cursor = .ok a middle)
    (h : Starves read front) (hnext : Starves (next a) back) :
    Starves (read >>= next) (front ++ back) := by
  intro cursor hstarts hne
  by_cases hfront : front <+: cursor.rest
  · obtain ⟨left, hleft⟩ := hfront
    rw [← hleft] at hstarts hne
    have hmiddle : cursor.Passes front ⟨cursor.offset + front.length, left⟩ := ⟨hleft.symm, rfl⟩
    obtain ⟨offset, needed, available, last, hlast⟩ :=
      hnext ⟨cursor.offset + front.length, left⟩ ((List.prefix_append_right_inj front).1 hstarts)
        fun heq => hne (congrArg (front ++ ·) heq)
    exact ⟨offset, needed, available, last, (bind_of_ok (hread _ _ hmiddle)).trans hlast⟩
  · have hcut : cursor.rest <+: front :=
      (List.prefix_or_prefix_of_prefix hstarts (List.prefix_append front back)).resolve_right hfront
    exact h.bind_left cursor hcut fun heq => hfront (heq ▸ List.prefix_rfl)

/-- A check that lets pass leaves a read to starve. -/
theorem Starves.guard {c : Prop} [Decidable c] {e : FormatError} {after : PUnit → Read α}
    (hc : ¬c) (h : Starves read bytes) :
    Starves (if c then throw e >>= after else read) bytes := by
  rw [if_neg hc]
  exact h

/-- A read of a byte string starves where fewer bytes are left. -/
theorem starves_bytes (h : bytes.length = count) : Starves (Read.bytes count) bytes :=
  (starves_fixed h).bind_left

/-- A part cannot be split off where fewer bytes are left. -/
theorem starves_part (h : bytes.length = count) : Starves (part count) bytes :=
  (starves_bytes h).bind_left

/-- A word is read from as many bytes as it is wide. -/
theorem starves_word (ofNat : Nat → α) (h : bytes.length = count) :
    Starves (do return ofNat (← number count)) bytes :=
  (starves_fixed h).bind_left.bind_left

/-- A byte string that breaks off is refused because bytes are missing. -/
theorem Starves.onBytes (h : Starves read bytes) {cut : Bytes} (hcut : cut <+: bytes)
    (hne : cut ≠ bytes) :
    ∃ offset needed available,
      Read.onBytes read cut = .error (.outOfBounds offset needed available) := by
  obtain ⟨offset, needed, available, last, hlast⟩ := h (.start cut) hcut hne
  refine ⟨offset, needed, available, ?_⟩
  unfold Read.onBytes EStateM.run
  rw [hlast]

end Starves

end Read

namespace Descriptor

open Read

variable {limits : Limits}

/-! ## The descriptor -/

/-- A header that breaks off cannot be read, since bytes are missing. -/
theorem Header.read_starves {header : Header} (h : header.Accepted limits) :
    Starves (Header.read limits) header.encode := by
  have hsize : (UInt32.ofNat header.totalSize).toNat = header.totalSize :=
    UInt32.toNat_ofNat_of_lt' h.size_lt
  have hversion : ¬(currentMajor < header.major ∨ currentMinor < header.minor) :=
    not_or.2 ⟨UInt32.not_lt.2 h.major, UInt32.not_lt.2 h.minor⟩
  have hword : ∀ value, (Bytes.bigEndian 4 value).length = 4 := Bytes.length_bigEndian 4
  simp only [Header.read, Header.encode, List.append_assoc]
  refine Starves.bind (fun _ _ h => bytes_eq_ok_iff.2 ⟨rfl, h⟩) (starves_bytes rfl)
    (Starves.guard (by simp) ?_)
  refine Starves.bind (fun _ _ h => uint32_eq_ok_iff.2 h) (starves_word _ (hword _)) ?_
  refine Starves.bind (fun _ _ h => uint32_eq_ok_iff.2 h) (starves_word _ (hword _))
    (Starves.guard hversion ?_)
  refine Starves.bind (a := UInt32.ofNat header.totalSize)
    (fun _ _ h => uint32_eq_ok_iff.2 (by rwa [Bytes.ofUInt32, hsize]))
    (starves_word _ (hword _)) ?_
  rw [hsize]
  -- No byte is read behind the count.
  have hcount := starves_word UInt16.ofNat (Bytes.length_bigEndian 2 header.entryCount)
  exact Starves.guard (Nat.not_lt.2 h.size_ge) hcount.bind_left

/-- A descriptor that breaks off cannot be read, since bytes are missing. -/
theorem read_starves {descriptor : Descriptor} (h : descriptor.WellFormed)
    (hvalid : descriptor.validate limits = .ok ()) :
    Starves (read limits) (descriptor.header.encode ++ descriptor.body) := by
  have haccepted := h.header_accepted (validate_eq_ok_iff.1 hvalid).1
  refine Starves.bind (a := descriptor.header) ?_ (Header.read_starves haccepted) ?_
  · intro cursor middle hpasses
    exact (Header.read_exact limits _ _ _).2 ⟨haccepted, hpasses⟩
  · -- The whole body is split off before an entry is looked at.
    exact (starves_part h.length_body).bind_left

/-- A descriptor that is cut short is refused because bytes are missing. -/
theorem parse_take {bytes : Bytes} {descriptor : Descriptor}
    (h : parse limits bytes = .ok descriptor) {length : Nat}
    (hlength : length < descriptor.totalSize) :
    ∃ offset needed available,
      parse limits (bytes.take length) = .error (.outOfBounds offset needed available) := by
  obtain ⟨⟨hformed, hvalid⟩, rest, rfl⟩ := parse_eq_ok_iff.1 h
  have hencode := hformed.length_encode
  have hle : length ≤ (descriptor.header.encode ++ descriptor.body).length := by omega
  rw [List.take_append_of_le_length hle]
  refine (read_starves hformed hvalid).onBytes (List.take_prefix _ _) fun heq => ?_
  have hcut := congrArg List.length heq
  rw [List.length_take] at hcut
  omega

end Descriptor

end FirmwareTransparency
