import FirmwareTransparency.Key.PublicKey
import FirmwareTransparency.Proofs.Key.Der

/-!
# The two encodings of an ECDSA signature

A signature comes in distinguished encoding or as two numbers of 32 bytes, and nothing but its bytes
tells which. The distinguished encoding is tried first, so it always means the pair that it was
written for. Two numbers are read as what they are unless their 64 bytes also make a distinguished
encoding; that one is of another pair, and it is the one that is checked. Main statement:
`p256_verify_encodings`.
-/

set_option autoImplicit false

namespace FirmwareTransparency

namespace Der

variable {n : Nat}

/-- A number of 32 bytes takes at most one byte more, so its length takes one byte. -/
theorem writeInteger_of_lt (h : n < 256 ^ 32) :
    writeInteger n = integerTag :: UInt8.ofNat (writeNatural n).length :: writeNatural n := by
  have hpow : 256 ^ 32 = 2 ^ 256 := by decide
  have hlength := length_writeNatural_of_lt (hpow ▸ h)
  exact writeValue_of_lt (by omega)

/-- A number of 32 bytes takes 35 bytes as an integer at most. -/
theorem length_writeInteger_of_lt (h : n < 256 ^ 32) : (writeInteger n).length ≤ 35 := by
  have hpow : 256 ^ 32 = 2 ^ 256 := by decide
  have hlength := length_writeNatural_of_lt (hpow ▸ h)
  rw [writeInteger_of_lt h, List.length_cons, List.length_cons]
  omega

end Der

namespace P256

namespace Signature

variable {bytes : Bytes} {signature : Signature}

/-- The distinguished encoding of a signature. -/
def toDer (signature : Signature) : Bytes := Der.writePair signature.r signature.s

/-- The two numbers of a signature in 32 bytes each. -/
def toPair (signature : Signature) : Bytes :=
  Bytes.bigEndian 32 signature.r ++ Bytes.bigEndian 32 signature.s

/-- Two numbers are a signature exactly if they are in range. -/
theorem ofNumbers?_eq_some_iff {r s : Nat} :
    ofNumbers? r s = some signature ↔
      signature.inRange = true ∧ r = signature.r ∧ s = signature.s := by
  simp only [ofNumbers?, Option.ite_none_right_eq_some, Option.some.injEq]
  constructor
  · rintro ⟨hrange, rfl⟩
    exact ⟨hrange, rfl, rfl⟩
  · rintro ⟨hrange, rfl, rfl⟩
    exact ⟨hrange, rfl⟩

/-- Both numbers of a signature take 32 bytes at most. -/
theorem lt_of_inRange (h : signature.inRange = true) :
    signature.r < 256 ^ 32 ∧ signature.s < 256 ^ 32 := by
  simp only [inRange, Bool.and_eq_true, decide_eq_true_eq] at h
  have horder : groupOrder < 256 ^ 32 := by decide
  exact ⟨Nat.lt_trans h.1.1.2 horder, Nat.lt_trans h.2 horder⟩

/-- Both numbers of a signature take 70 bytes as integers at most. -/
theorem length_integers (h : signature.inRange = true) :
    (Der.writeInteger signature.r ++ Der.writeInteger signature.s).length ≤ 70 := by
  obtain ⟨hr, hs⟩ := lt_of_inRange h
  have hfirst := Der.length_writeInteger_of_lt hr
  have hsecond := Der.length_writeInteger_of_lt hs
  rw [List.length_append]
  omega

/-- A signature is read as a sequence exactly from its one written form. -/
theorem ofDer?_eq_some_iff :
    ofDer? bytes = some signature ↔ signature.inRange = true ∧ bytes = signature.toDer := by
  unfold ofDer? toDer
  simp only [Option.bind_eq_bind, Option.bind_eq_some_iff, Prod.exists,
    Der.integerPair?_eq_some_iff, ofNumbers?_eq_some_iff]
  constructor
  · rintro ⟨r, s, ⟨-, rfl⟩, hrange, rfl, rfl⟩
    exact ⟨hrange, rfl⟩
  · rintro ⟨hrange, rfl⟩
    have hlength := length_integers hrange
    exact ⟨_, _, ⟨by omega, rfl⟩, hrange, rfl, rfl⟩

/-- A signature is read back from the pair of its numbers. -/
theorem ofPair?_toPair (h : signature.inRange = true) :
    ofPair? signature.toPair = some signature := by
  obtain ⟨hr, hs⟩ := lt_of_inRange h
  have hlength : signature.toPair.length = 64 := by simp [toPair]
  rw [ofPair?, if_pos hlength, ofNumbers?_eq_some_iff]
  exact ⟨h, Bytes.toNat_take_bigEndian hr _, Bytes.toNat_drop_bigEndian _ hs⟩

/-- The sequence of a signature is read as that signature. -/
theorem ofBytes?_toDer (h : signature.inRange = true) :
    ofBytes? signature.toDer = some signature := by
  rw [ofBytes?, ofDer?_eq_some_iff.2 ⟨h, rfl⟩]

/-- The pair of a signature is read as that signature unless it is the sequence of another one. -/
theorem ofBytes?_toPair (h : signature.inRange = true)
    (hclear : ∀ other : Signature, other.inRange = true → other.toDer ≠ signature.toPair) :
    ofBytes? signature.toPair = some signature := by
  have hnone : ofDer? signature.toPair = none := by
    apply Option.eq_none_iff_forall_ne_some.2
    intro other hother
    obtain ⟨hrange, heq⟩ := ofDer?_eq_some_iff.1 hother
    exact hclear other hrange heq.symm
  rw [ofBytes?, hnone]
  exact ofPair?_toPair h

/-- Strings that overlap with a shift of four bytes go on with a shift of four bytes. -/
theorem eq_drop_of_shifted {a b c d : UInt8} {front back tail : Bytes} (hlength : front.length = 32)
    (h : a :: b :: (c :: d :: front ++ back) = front ++ tail) : back = tail.drop 4 := by
  have hnil : front.drop 36 = [] := List.drop_eq_nil_of_le (by omega)
  have hdrop := congrArg (List.drop 36) h
  simpa [List.drop_append, hlength, hnil] using hdrop

/-- No signature has one form for both encodings: the first number would begin like a sequence and
so take all its 32 bytes, and the tag of the second would stand where a number as short as the rest
has a zero. -/
theorem toDer_ne_toPair (h : signature.inRange = true) : signature.toDer ≠ signature.toPair := by
  intro heq
  obtain ⟨hr, hs⟩ := lt_of_inRange h
  have hlength := length_integers h
  rw [toDer, Der.writePair, Der.writeValue_of_lt (by omega), Der.writeInteger_of_lt hr, toPair]
    at heq
  have hhead : (Bytes.bigEndian 32 signature.r).head? = some Der.sequenceTag := by
    rw [← List.head?_append_of_ne_nil _ (List.ne_nil_of_length_eq_add_one
      (Bytes.length_bigEndian 32 _)), ← heq]
    rfl
  obtain ⟨rest, hbytes⟩ := List.head?_eq_some_iff.1 hhead
  have hrest : rest.length = 31 := by
    simpa using (congrArg List.length hbytes).symm
  have hvalue : signature.r = 0x30 * 256 ^ 31 + Bytes.toNat rest := by
    have hread := congrArg Bytes.toNat hbytes
    rw [Bytes.toNat_bigEndian, Nat.mod_eq_of_lt hr, Bytes.toNat_cons, hrest] at hread
    exact hread
  -- The first number is large, so its DER takes all 32 bytes and shifts the rest by four. This
  -- leaves 26 bytes for the second number, whose own 32 bytes say that it needs more.
  have hlow : Bytes.toNat rest < 256 ^ 31 := hrest ▸ Bytes.toNat_lt rest
  have hfirst : Der.writeNatural signature.r = Bytes.bigEndian 32 signature.r :=
    Der.writeNatural_of_width (by omega) (.inr (by omega))
  rw [hfirst] at heq
  have hsecond := eq_drop_of_shifted (Bytes.length_bigEndian 32 _) heq
  rw [Der.writeInteger_of_lt hs] at hsecond
  have hshort : (Der.writeNatural signature.s).length = 26 := by
    have hcount := congrArg List.length hsecond
    rw [List.length_cons, List.length_cons, List.length_drop, Bytes.length_bigEndian] at hcount
    omega
  have hsmall := Der.lt_of_length_writeNatural signature.s
  have hlarge := Bytes.toNat_drop_le (Bytes.bigEndian 32 signature.s) 4
  rw [← hsecond, Bytes.toNat_bigEndian, Nat.mod_eq_of_lt hs, Bytes.toNat_cons, List.length_cons,
    hshort] at hlarge
  rw [hshort] at hsmall
  have htag : Der.integerTag.toNat = 2 := rfl
  omega

end Signature

end P256

namespace PublicKey

open P256

/-- In distinguished encoding a signature is the pair that is checked. As two numbers it is that
pair as well, unless its bytes are the distinguished encoding of another pair, which is checked in
its place. -/
theorem p256_verify_encodings (key : P256.PublicKey) (message : Bytes) {signature : Signature}
    (h : signature.inRange = true) :
    verify (.p256 key) message signature.toDer =
        verifyDigest key (sha256 message) signature ∧
      ((∀ other : Signature, other.inRange = true → other.toDer ≠ signature.toPair) →
        verify (.p256 key) message signature.toPair =
          verify (.p256 key) message signature.toDer) ∧
      ∀ other : Signature, other.inRange = true → other.toDer = signature.toPair →
        other ≠ signature ∧
          verify (.p256 key) message signature.toPair =
            verifyDigest key (sha256 message) other := by
  have hder : verify (.p256 key) message signature.toDer =
      verifyDigest key (sha256 message) signature := by
    rw [verify, P256.verify, Signature.ofBytes?_toDer h]
  refine ⟨hder, ?_, ?_⟩
  · intro hclear
    rw [hder, verify, P256.verify, Signature.ofBytes?_toPair h hclear]
  · intro other hother heq
    refine ⟨?_, ?_⟩
    · rintro rfl
      exact Signature.toDer_ne_toPair h heq
    · rw [← heq, verify, P256.verify, Signature.ofBytes?_toDer hother]

/-- A signature of which the two numbers, in 32 bytes each, begin like a sequence of integers of 29
bytes, and are one. -/
def ambiguousSignature : Signature :=
  ⟨0x303e021d01000000000000000000000000000000000000000000000000000002,
    0x00021d0100000000000000000000000000000000000000000000000000000001⟩

/-- The integers of that sequence. -/
def misreadSignature : Signature :=
  ⟨0x0100000000000000000000000000000000000000000000000000000200,
    0x0100000000000000000000000000000000000000000000000000000001⟩

/-- A message. -/
def sampleMessage : Bytes := [0x6c, 0x6f, 0x67, 0x20, 0x72, 0x6f, 0x6f, 0x74]

/-- The key under which the ambiguous signature is one of the message. -/
def ambiguousKey : P256.PublicKey where
  x := 0xeca27fd45e489ec51f1b1eaa4ec5016b2767a2eb5a2343e177f7744b287c7c14
  y := 0x81b65c68342ddb3268802570ac61bb28f046abeb3a523d5c4db00df17b38e8fc
  onCurve := by decide +kernel

/-- A pair that is the sequence of another signature is checked as that one, and a pair that is none
as itself. -/
theorem p256_verify_encodings_ambiguous :
    (ambiguousSignature.inRange = true ∧ misreadSignature.inRange = true ∧
      misreadSignature.toDer = ambiguousSignature.toPair ∧
      misreadSignature ≠ ambiguousSignature ∧
      verify (.p256 ambiguousKey) sampleMessage ambiguousSignature.toPair =
        verifyDigest ambiguousKey (sha256 sampleMessage) misreadSignature) ∧
    (Signature.inRange ⟨1, 1⟩ = true ∧
      (∀ other : Signature, other.inRange = true → other.toDer ≠ Signature.toPair ⟨1, 1⟩) ∧
      verify (.p256 ambiguousKey) sampleMessage (Signature.toPair ⟨1, 1⟩) =
        verify (.p256 ambiguousKey) sampleMessage (Signature.toDer ⟨1, 1⟩)) := by
  have hrange : ambiguousSignature.inRange = true := by decide
  have hother : misreadSignature.inRange = true := by decide
  have heq : misreadSignature.toDer = ambiguousSignature.toPair := by decide +kernel
  have hone : Signature.inRange ⟨1, 1⟩ = true := by decide
  have hclear : ∀ other : Signature, other.inRange = true →
      other.toDer ≠ Signature.toPair ⟨1, 1⟩ := by
    intro other _ h
    have hhead : some Der.sequenceTag = (Signature.toPair ⟨1, 1⟩).head? := congrArg List.head? h
    exact absurd hhead (by decide)
  exact ⟨⟨hrange, hother, heq,
      (p256_verify_encodings ambiguousKey sampleMessage hrange).2.2 misreadSignature hother heq⟩,
    hone, hclear, (p256_verify_encodings ambiguousKey sampleMessage hone).2.1 hclear⟩

/-- A valid signature can be refused when it is given as two numbers. -/
theorem not_forall_p256_verify_encodings_eq :
    ¬∀ (key : P256.PublicKey) (message : Bytes) (signature : Signature),
      signature.inRange = true →
        verify (.p256 key) message signature.toPair =
          verify (.p256 key) message signature.toDer := by
  intro h
  have hder : verify (.p256 ambiguousKey) sampleMessage ambiguousSignature.toDer = true := by
    decide +kernel
  have hpair : verify (.p256 ambiguousKey) sampleMessage ambiguousSignature.toPair = false := by
    decide +kernel
  have heq := h ambiguousKey sampleMessage ambiguousSignature (by decide)
  rw [hder, hpair] at heq
  cases heq

end PublicKey

end FirmwareTransparency
