import FirmwareTransparency.Descriptor.Error
import FirmwareTransparency.Hash.Sha256

/-!
# A cursor over bytes

A cursor stands at an offset in a buffer and knows the bytes that are left. A read checks how many
are left before it takes any, so a read that fails reports where the cursor stands and does not move
it. A cursor over a part of the buffer is a value of its own: reading it moves no other cursor.
-/

set_option autoImplicit false

namespace FirmwareTransparency

/-- A position in a buffer together with the bytes that are left. -/
structure Cursor where
  /-- How many bytes have been read. -/
  offset : Nat
  /-- The bytes that are left. -/
  rest : Bytes
  deriving DecidableEq

namespace Cursor

/-- A cursor at the start of a buffer. -/
def start (buffer : Bytes) : Cursor := ⟨0, buffer⟩

/-- How many bytes are left. -/
def remaining (cursor : Cursor) : Nat := cursor.rest.length

/-- Whether no byte is left. -/
def isEmpty (cursor : Cursor) : Bool := cursor.rest.isEmpty

end Cursor

/-- A computation that reads from a cursor. On an error the cursor stays where the read failed. -/
abbrev Read (α : Type) := EStateM FormatError Cursor α

namespace Read

/-- A check that reads nothing. -/
def ofExcept {α : Type} : Except FormatError α → Read α
  | .ok a => pure a
  | .error e => throw e

/-- Reads exactly so many bytes. -/
def fixed (count : Nat) : Read (FixedBytes count) := fun cursor =>
  if h : (cursor.rest.take count).length = count then
    .ok ⟨cursor.rest.take count, h⟩ ⟨cursor.offset + count, cursor.rest.drop count⟩
  else .error (.outOfBounds cursor.offset count cursor.remaining) cursor

/-- Reads so many bytes, their number being known only when they are read. -/
def bytes (count : Nat) : Read Bytes := do
  let found ← fixed count
  return found.toBytes

/-- Reads a big-endian number of so many bytes. -/
def number (width : Nat) : Read Nat := do
  let found ← fixed width
  return Bytes.toNat found.toBytes

/-- Reads one byte. -/
def uint8 : Read UInt8 := do return UInt8.ofNat (← number 1)

/-- Reads a number of two bytes. -/
def uint16 : Read UInt16 := do return UInt16.ofNat (← number 2)

/-- Reads a number of four bytes. -/
def uint32 : Read UInt32 := do return UInt32.ofNat (← number 4)

/-- Reads a number of eight bytes. -/
def uint64 : Read UInt64 := do return UInt64.ofNat (← number 8)

/-- Reads a digest. -/
def digest : Read Digest := fixed 32

/-- Splits off a cursor of its own over the next so many bytes. -/
def part (count : Nat) : Read Cursor := do
  let found ← bytes count
  return .start found

/-- Runs a read on another cursor and gives that cursor back behind the value; the error of the
other read is the error of this one. -/
def within {α : Type} (cursor : Cursor) (read : Read α) : Read (α × Cursor) :=
  match read.run cursor with
  | .ok a cursor => return (a, cursor)
  | .error e _ => throw e

/-- Reads the same so many times; `done` holds the values so far, latest first. -/
def timesFrom {α : Type} (read : Read α) : (count : Nat) → (done : List α) → Read (List α)
  | 0, done => return done.reverse
  | count + 1, done => do
    let a ← read
    timesFrom read count (a :: done)

/-- Reads the same so many times. -/
def times {α : Type} (count : Nat) (read : Read α) : Read (List α) := timesFrom read count []

/-- The value of a read at the start of a buffer. -/
def onBytes {α : Type} (read : Read α) (buffer : Bytes) : Except FormatError α :=
  match read.run (.start buffer) with
  | .ok a _ => .ok a
  | .error e _ => .error e

/-- A read of so many bytes succeeds exactly if so many are left. -/
theorem fixed_eq_ok_of_le {count : Nat} {cursor : Cursor} (h : count ≤ cursor.remaining) :
    fixed count cursor =
      .ok ⟨cursor.rest.take count, by rw [List.length_take]; exact Nat.min_eq_left h⟩
        ⟨cursor.offset + count, cursor.rest.drop count⟩ := by
  unfold fixed
  rw [dif_pos]

/-- A read of more bytes than remain fails, and the cursor stays where it is. -/
theorem fixed_eq_error_of_lt {count : Nat} {cursor : Cursor} (h : cursor.remaining < count) :
    fixed count cursor =
      .error (.outOfBounds cursor.offset count cursor.remaining) cursor := by
  unfold fixed
  rw [dif_neg]
  simp only [List.length_take, Cursor.remaining] at h ⊢
  omega

end Read

end FirmwareTransparency
