import FirmwareTransparency.Bytes.Basic

/-!
# SHA-256

The only hash of the format. A message is padded with a one bit, zeros and its length in bits to
whole blocks of 64 bytes, and every block is folded into a state of eight words. `Hasher` takes a
message in pieces; `sha256` takes it at once.
Main statement: `Hasher.update_update` says that only the bytes count and not how they were cut.
-/

set_option autoImplicit false

namespace FirmwareTransparency

/-- A SHA-256 digest. -/
abbrev Digest := FixedBytes 32

namespace Sha256

/-- The eight chaining words. -/
structure State where
  a : UInt32
  b : UInt32
  c : UInt32
  d : UInt32
  e : UInt32
  f : UInt32
  g : UInt32
  h : UInt32
  deriving DecidableEq

/-- The state before any block: fractional bits of the square roots of the first primes. -/
def State.start : State :=
  ⟨0x6a09e667, 0xbb67ae85, 0x3c6ef372, 0xa54ff53a, 0x510e527f, 0x9b05688c, 0x1f83d9ab, 0x5be0cd19⟩

/-- One constant for every round: fractional bits of the cube roots of the first primes. -/
def roundConstants : List UInt32 :=
  [0x428a2f98, 0x71374491, 0xb5c0fbcf, 0xe9b5dba5, 0x3956c25b, 0x59f111f1, 0x923f82a4, 0xab1c5ed5,
    0xd807aa98, 0x12835b01, 0x243185be, 0x550c7dc3, 0x72be5d74, 0x80deb1fe, 0x9bdc06a7, 0xc19bf174,
    0xe49b69c1, 0xefbe4786, 0x0fc19dc6, 0x240ca1cc, 0x2de92c6f, 0x4a7484aa, 0x5cb0a9dc, 0x76f988da,
    0x983e5152, 0xa831c66d, 0xb00327c8, 0xbf597fc7, 0xc6e00bf3, 0xd5a79147, 0x06ca6351, 0x14292967,
    0x27b70a85, 0x2e1b2138, 0x4d2c6dfc, 0x53380d13, 0x650a7354, 0x766a0abb, 0x81c2c92e, 0x92722c85,
    0xa2bfe8a1, 0xa81a664b, 0xc24b8b70, 0xc76c51a3, 0xd192e819, 0xd6990624, 0xf40e3585, 0x106aa070,
    0x19a4c116, 0x1e376c08, 0x2748774c, 0x34b0bcb5, 0x391c0cb3, 0x4ed8aa4a, 0x5b9cca4f, 0x682e6ff3,
    0x748f82ee, 0x78a5636f, 0x84c87814, 0x8cc70208, 0x90befffa, 0xa4506ceb, 0xbef9a3f7, 0xc67178f2]

/-- Rotates a word to the right. -/
def rotateRight (word : UInt32) (count : UInt32) : UInt32 :=
  (word >>> count) ||| (word <<< (32 - count))

/-- The big-endian words of a block. -/
def words : Bytes → List UInt32
  | a :: b :: c :: d :: rest =>
    ((a.toUInt32 <<< 24) ||| (b.toUInt32 <<< 16) ||| (c.toUInt32 <<< 8) ||| d.toUInt32) ::
      words rest
  | _ => []

/-- The word that follows the given ones, which stand latest first. -/
def nextWord : List UInt32 → UInt32
  | _ :: w2 :: _ :: _ :: _ :: _ :: w7 :: _ :: _ :: _ :: _ :: _ :: _ :: _ :: w15 :: w16 :: _ =>
    let s0 := rotateRight w15 7 ^^^ rotateRight w15 18 ^^^ (w15 >>> 3)
    let s1 := rotateRight w2 17 ^^^ rotateRight w2 19 ^^^ (w2 >>> 10)
    w16 + s0 + w7 + s1
  | _ => 0

/-- Extends a message schedule, which stands latest first, by so many words. -/
def extendSchedule : Nat → List UInt32 → List UInt32
  | 0, schedule => schedule
  | count + 1, schedule => extendSchedule count (nextWord schedule :: schedule)

/-- The sixty-four schedule words of a block, in order. -/
def schedule (block : Bytes) : List UInt32 :=
  (extendSchedule 48 (words block).reverse).reverse

/-- One round with its constant and schedule word. -/
def round (s : State) (constant word : UInt32) : State :=
  let s1 := rotateRight s.e 6 ^^^ rotateRight s.e 11 ^^^ rotateRight s.e 25
  let choice := (s.e &&& s.f) ^^^ ((~~~ s.e) &&& s.g)
  let t1 := s.h + s1 + choice + constant + word
  let s0 := rotateRight s.a 2 ^^^ rotateRight s.a 13 ^^^ rotateRight s.a 22
  let majority := (s.a &&& s.b) ^^^ (s.a &&& s.c) ^^^ (s.b &&& s.c)
  ⟨t1 + (s0 + majority), s.a, s.b, s.c, s.d + t1, s.e, s.f, s.g⟩

/-- All rounds, one for each pair of a constant and a schedule word. -/
def rounds : State → List UInt32 → List UInt32 → State
  | s, constant :: constants, word :: words => rounds (round s constant word) constants words
  | s, _, _ => s

/-- Folds one block of 64 bytes into the state. -/
def compress (s : State) (block : Bytes) : State :=
  let t := rounds s roundConstants (schedule block)
  ⟨s.a + t.a, s.b + t.b, s.c + t.c, s.d + t.d, s.e + t.e, s.f + t.f, s.g + t.g, s.h + t.h⟩

/-- Folds so many blocks from the front of a byte string into the state. -/
def compressBlocks : Nat → State → Bytes → State
  | 0, s, _ => s
  | count + 1, s, bytes => compressBlocks count (compress s (bytes.take 64)) (bytes.drop 64)

/-- The digest that a state spells. -/
def State.digest (s : State) : Digest where
  toBytes := Bytes.ofUInt32 s.a ++ Bytes.ofUInt32 s.b ++ Bytes.ofUInt32 s.c ++ Bytes.ofUInt32 s.d ++
    Bytes.ofUInt32 s.e ++ Bytes.ofUInt32 s.f ++ Bytes.ofUInt32 s.g ++ Bytes.ofUInt32 s.h
  length_eq := by simp [Bytes.ofUInt32]

/-- The bytes after a message of so many bytes: a one bit, the fewest zeros that end a block after
the length, and the length in bits. -/
def padding (length : Nat) : Bytes :=
  0x80 :: (List.replicate ((119 - length % 64) % 64) 0 ++ Bytes.bigEndian 8 (length * 8))

/-- A message that is still being read. -/
structure Hasher where
  /-- The state after all whole blocks so far. -/
  state : State
  /-- What has been read since the last whole block. -/
  pending : Bytes
  /-- How many bytes have been read in all. -/
  length : Nat
  deriving DecidableEq

/-- Nothing read yet. -/
def Hasher.empty : Hasher := ⟨.start, [], 0⟩

/-- Reads more of the message. -/
def Hasher.update (hasher : Hasher) (bytes : Bytes) : Hasher :=
  let pending := hasher.pending ++ bytes
  let blocks := pending.length / 64
  ⟨compressBlocks blocks hasher.state pending, pending.drop (64 * blocks),
    hasher.length + bytes.length⟩

/-- The digest of what has been read. -/
def Hasher.digest (hasher : Hasher) : Digest :=
  let last := hasher.pending ++ padding hasher.length
  (compressBlocks (last.length / 64) hasher.state last).digest

end Sha256

/-- The SHA-256 digest of a message. -/
def sha256 (message : Bytes) : Digest := (Sha256.Hasher.empty.update message).digest

namespace Sha256

/-- Blocks can be compressed in two runs, the second behind the bytes of the first. -/
theorem compressBlocks_append (first second : Nat) (s : State) (bytes : Bytes) :
    compressBlocks (first + second) s bytes =
      compressBlocks second (compressBlocks first s bytes) (bytes.drop (64 * first)) := by
  induction first generalizing s bytes with
  | zero => simp [compressBlocks]
  | succ first ih =>
    rw [show first + 1 + second = first + second + 1 by omega, compressBlocks, compressBlocks, ih,
      List.drop_drop]
    congr 2
    omega

/-- Whole blocks do not see what stands behind them. -/
theorem compressBlocks_of_le {count : Nat} {s : State} {bytes : Bytes}
    (h : 64 * count ≤ bytes.length) (more : Bytes) :
    compressBlocks count s (bytes ++ more) = compressBlocks count s bytes := by
  induction count generalizing s bytes with
  | zero => rfl
  | succ count ih =>
    rw [compressBlocks, compressBlocks, List.take_append_of_le_length (by omega),
      List.drop_append_of_le_length (by omega), ih (by simp; omega)]

/-- Reading in two pieces is reading both at once. -/
theorem Hasher.update_update (hasher : Hasher) (first second : Bytes) :
    (hasher.update first).update second = hasher.update (first ++ second) := by
  have hlen : ((hasher.pending ++ first).drop (64 * ((hasher.pending ++ first).length / 64)) ++
      second).length = (hasher.pending ++ first ++ second).length -
        64 * ((hasher.pending ++ first).length / 64) := by
    simp only [List.length_append, List.length_drop]
    omega
  have hle : 64 * ((hasher.pending ++ first).length / 64) ≤ (hasher.pending ++ first).length := by
    omega
  have hblocks : (hasher.pending ++ (first ++ second)).length / 64 =
      (hasher.pending ++ first).length / 64 +
        ((hasher.pending ++ first).drop (64 * ((hasher.pending ++ first).length / 64)) ++
          second).length / 64 := by
    rw [hlen, ← List.append_assoc]
    simp only [List.length_append]
    omega
  simp only [Hasher.update, Hasher.mk.injEq]
  refine ⟨?_, ?_, by simp [Nat.add_assoc]⟩
  · rw [hblocks, compressBlocks_append, ← List.append_assoc, compressBlocks_of_le hle,
      List.drop_append_of_le_length hle]
  · rw [hblocks, Nat.mul_add, ← List.drop_drop, ← List.append_assoc,
      List.drop_append_of_le_length hle]

end Sha256

end FirmwareTransparency
