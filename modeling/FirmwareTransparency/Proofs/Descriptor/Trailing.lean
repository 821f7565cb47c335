import FirmwareTransparency.Proofs.Descriptor.Redundancy

/-!
# Bytes behind a descriptor

The header says where a descriptor ends, and from there on nothing is looked at, whether the
descriptor can be read or not. That is a statement on reads and not on what they accept: a read is
settled by the bytes in front of it if they fix its value or its error, and the reads of the header
and of a part that is split off are settled by as many bytes as they are wide. Main statement:
`parse_append`.
-/

set_option autoImplicit false

namespace FirmwareTransparency

namespace Read

/-! ## Reads that some bytes settle -/

/-- A read gives a value wherever some bytes stand, and goes behind them. -/
def Gives {α : Type} (read : Read α) (bytes : Bytes) (a : α) : Prop :=
  ∀ cursor after, cursor.Passes bytes after → read cursor = .ok a after

/-- A read ends in one way wherever some bytes stand, whatever follows them. -/
def Settled {α : Type} (read : Read α) (bytes : Bytes) : Prop :=
  (∃ a, Gives read bytes a) ∨ ∃ e, Fails read bytes e

/-- Any so many bytes settle a read. -/
def SettledBy {α : Type} (read : Read α) (count : Nat) : Prop :=
  ∀ bytes, bytes.length = count → Settled read bytes

section Settled

variable {α β : Type} {read : Read α} {next : α → Read β} {front back bytes : Bytes}
  {n m : Nat}

/-- A read is settled by two strings in a row if its first part is by one and the rest by the other.
-/
theorem Settled.bind (hread : Settled read front)
    (hnext : ∀ a, Gives read front a → Settled (next a) back) :
    Settled (read >>= next) (front ++ back) := by
  rcases hread with ⟨a, ha⟩ | ⟨e, he⟩
  · rcases hnext a ha with ⟨b, hb⟩ | ⟨e, he⟩
    · refine .inl ⟨b, fun cursor after hpasses => ?_⟩
      obtain ⟨middle, hfront, hback⟩ := Cursor.Passes.append_iff.1 hpasses
      rw [bind_of_ok (ha cursor middle hfront)]
      exact hb middle after hback
    · exact .inr ⟨e, Fails.bind_right ha he⟩
  · exact .inr ⟨e, he.bind_left.of_front⟩

/-- Two reads in a row are settled by as many bytes as both together. -/
theorem SettledBy.bind (hread : SettledBy read n) (hnext : ∀ a, SettledBy (next a) m) :
    SettledBy (read >>= next) (n + m) := by
  intro bytes hlength
  rw [← List.take_append_drop n bytes]
  refine (hread _ ?_).bind fun a _ => hnext a _ ?_
  · rw [List.length_take]
    omega
  · rw [List.length_drop]
    omega

/-- A value that is given without a read takes no bytes to settle. -/
theorem settledBy_pure (a : α) : SettledBy (pure a) 0 := by
  intro bytes hlength
  obtain rfl := List.length_eq_zero_iff.1 hlength
  exact .inl ⟨a, fun cursor after hpasses =>
    pure_eq_ok_iff.2 ⟨rfl, Cursor.Passes.nil_iff.1 hpasses⟩⟩

/-- A check takes no bytes to settle. -/
theorem SettledBy.guard {c : Prop} [Decidable c] {e : FormatError} {after : PUnit → Read α}
    (h : SettledBy read n) : SettledBy (if c then throw e >>= after else read) n := by
  by_cases hc : c
  · exact fun bytes _ => .inr ⟨e, fails_of_guard hc⟩
  · rw [if_neg hc]
    exact h

/-- So many bytes settle a read of so many. -/
theorem settledBy_fixed (count : Nat) : SettledBy (fixed count) count := by
  intro bytes hlength
  exact .inl ⟨⟨bytes, hlength⟩, fun cursor after hpasses => fixed_eq_ok_iff.2 hpasses⟩

/-- So many bytes settle a read of a byte string of that length. -/
theorem settledBy_bytes (count : Nat) : SettledBy (Read.bytes count) count :=
  (settledBy_fixed count).bind fun _ => settledBy_pure _

/-- So many bytes settle that a part of that length is split off. -/
theorem settledBy_part (count : Nat) : SettledBy (part count) count :=
  (settledBy_bytes count).bind fun _ => settledBy_pure _

/-- So many bytes settle a read of a word of that width. -/
theorem settledBy_word (ofNat : Nat → α) (count : Nat) :
    SettledBy (do return ofNat (← number count)) count :=
  ((settledBy_fixed count).bind fun _ => settledBy_pure _).bind fun _ => settledBy_pure _

/-- A read of another cursor takes no bytes from this one. -/
theorem settledBy_within (inner : Cursor) (read : Read α) : SettledBy (within inner read) 0 := by
  unfold within
  cases read.run inner with
  | ok a last => exact settledBy_pure (a, last)
  | error e last => exact fun bytes _ => .inr ⟨e, fails_throw bytes⟩

/-- What a read gives for the front of a byte string it gives for the whole. -/
theorem Gives.onBytes {a : α} (h : Gives read front a) (rest : Bytes) :
    onBytes read (front ++ rest) = .ok a :=
  onBytes_eq_ok_iff.2 ⟨_, h _ _ (.of_append 0 front rest)⟩

/-- Behind bytes that settle a read any others will do. -/
theorem Settled.onBytes (h : Settled read front) (rest other : Bytes) :
    onBytes read (front ++ rest) = onBytes read (front ++ other) := by
  rcases h with ⟨a, ha⟩ | ⟨e, he⟩
  · rw [ha.onBytes, ha.onBytes]
  · rw [he.onBytes, he.onBytes]

end Settled

end Read

namespace Descriptor

open Bytes Read

variable {limits : Limits} {bytes front : Bytes}

/-! ## The end that a descriptor declares -/

/-- The header stands whole in the bytes, and they reach to the end that it declares. -/
structure EndsWithin (bytes : Bytes) : Prop where
  header : headerSize ≤ bytes.length
  size : bytes.numberAt 12 4 ≤ bytes.length

/-- The bytes of a header settle how reading it ends. -/
theorem Header.read_settledBy (limits : Limits) : SettledBy (Header.read limits) headerSize := by
  change SettledBy (Header.read limits) (4 + (4 + (4 + (4 + (2 + 0)))))
  unfold Header.read
  refine (settledBy_bytes 4).bind fun found => .guard ?_
  refine (settledBy_word UInt32.ofNat 4).bind fun major => ?_
  refine (settledBy_word UInt32.ofNat 4).bind fun minor => .guard ?_
  refine (settledBy_word UInt32.ofNat 4).bind fun size => .guard ?_
  refine (settledBy_word UInt16.ofNat 2).bind fun count => .guard (.guard ?_)
  exact settledBy_pure _

/-- A header that is read declares the size that stands behind the version. -/
theorem Header.totalSize_of_gives {header : Header} (h : Gives (Header.read limits) front header) :
    header.totalSize = front.numberAt 12 4 := by
  have hstart :=
    h (.start front) ⟨front.length, []⟩ ⟨by simp [Cursor.start], by simp [Cursor.start]⟩
  obtain ⟨haccepted, hpasses⟩ := (Header.read_exact limits _ _ _).1 hstart
  have hfront : front = header.encode := by
    simpa [Cursor.start] using hpasses.rest
  rw [hfront]
  exact (header.totalSize_slot.numberAt haccepted.size_lt).symm

/-- A descriptor is settled by its header and the part of which the header gives the size. -/
theorem read_settled {body : Bytes} (hfront : front.length = headerSize)
    (hbody : body.length = front.numberAt 12 4 - headerSize) :
    Settled (read limits) (front ++ body) := by
  refine (Header.read_settledBy limits front hfront).bind fun header hheader => ?_
  have hlength : body.length = header.totalSize - headerSize := by
    rw [hbody, Header.totalSize_of_gives hheader]
  refine SettledBy.bind (m := 0) (settledBy_part _) (fun inner => ?_) body hlength
  -- The entries are read from the part alone.
  refine SettledBy.bind (m := 0) (settledBy_within inner _) fun found => .guard ?_
  exact settledBy_pure _

/-- What follows the declared end of a descriptor changes neither the descriptor that is read nor
the cause that it is refused for. -/
theorem parse_append (h : EndsWithin bytes) (limits : Limits) (tail : Bytes) :
    parse limits (bytes ++ tail) = parse limits bytes := by
  let front : Bytes := bytes.take headerSize
  let body : Bytes := (bytes.drop headerSize).take (bytes.numberAt 12 4 - headerSize)
  let slack : Bytes := (bytes.drop headerSize).drop (bytes.numberAt 12 4 - headerSize)
  have hsplit : bytes = front ++ body ++ slack := by
    rw [List.append_assoc, List.take_append_drop, List.take_append_drop]
  have hfront : front.length = headerSize := List.length_take_of_le h.header
  have hnumber : front.numberAt 12 4 = bytes.numberAt 12 4 := by
    rw [numberAt, numberAt, field, field, List.drop_take, List.take_take]
    rfl
  have hbody : body.length = front.numberAt 12 4 - headerSize := by
    have hsize := h.size
    rw [hnumber, List.length_take, List.length_drop]
    omega
  have hsettled : Settled (read limits) (front ++ body) := read_settled hfront hbody
  rw [hsplit, List.append_assoc (front ++ body)]
  exact hsettled.onBytes _ _

end Descriptor

end FirmwareTransparency
