import FirmwareTransparency.Key.PublicKey
import FirmwareTransparency.Proofs.Key.Der
import FirmwareTransparency.Proofs.Key.Pem

/-!
# The encodings of a key are interchangeable

A key comes bare or in a subject public key info, as bytes or as a block of text, and nothing but
the bytes tells which. A bare Ed25519 key is told by its length, a bare point of P-256 by its first
byte, a bare RSA pair by the tag of its first part, and a block with such a pair by its label. So
each encoding is read by the reader that it was written for, and all of them give one key. Main
statement: `encodings_interchangeable`.
-/

set_option autoImplicit false

namespace FirmwareTransparency

namespace Pem

/-- The label of a block with a subject public key info. -/
def infoLabel : Bytes := Text.utf8 "PUBLIC KEY"

/-- The label of a public key info is ASCII. -/
theorem lt_of_mem_infoLabel : ∀ byte ∈ infoLabel, byte < 0x80 := by decide +kernel

variable {bytes : Bytes} {lineEnd : LineEnd} {closing : Option LineEnd}

/-- The lenient reader gives the bytes of a block with a public key info back. -/
theorem lenient?_infoBlock (h : bytes ≠ []) :
    lenient? infoLabel (write lineEnd closing infoLabel bytes) = some bytes :=
  lenient?_write h (by decide)

end Pem

variable {lineEnd : Pem.LineEnd} {closing : Option Pem.LineEnd}

/-! ## Ed25519 -/

namespace Ed25519

/-- The content of the algorithm in a subject public key info. -/
def infoAlgorithm : Bytes := [0x06, 0x03, 0x2b, 0x65, 0x70]

/-- The subject public key info of a key. -/
def PublicKey.toInfo (key : PublicKey) : Bytes := Der.writePublicKeyInfo infoAlgorithm key.toBytes

variable (key : PublicKey)

/-- All keys have one length, so all infos begin alike. -/
theorem toInfo_eq : key.toInfo = infoHeader ++ key.toBytes := by
  have hlength : (0 :: key.toBytes).length = 33 := by rw [List.length_cons, key.length_eq]
  have hbits : Der.writeValue Der.bitStringTag (0 :: key.toBytes) =
      0x03 :: 0x21 :: 0 :: key.toBytes := by
    rw [Der.writeValue_of_lt (by omega), hlength]
    rfl
  have halgorithm : Der.writeValue Der.sequenceTag infoAlgorithm = 0x30 :: 0x05 :: infoAlgorithm :=
    rfl
  have hcontent : (0x30 :: 0x05 :: infoAlgorithm ++ 0x03 :: 0x21 :: 0 :: key.toBytes).length =
      42 := by
    rw [List.length_append, List.length_cons, List.length_cons, List.length_cons, List.length_cons,
      hlength]
    rfl
  rw [PublicKey.toInfo, Der.writePublicKeyInfo, hbits, halgorithm,
    Der.writeValue_of_lt (by omega), hcontent]
  rfl

/-- The public key info of every key takes 44 bytes. -/
theorem length_toInfo : key.toInfo.length = 44 := by
  rw [toInfo_eq, List.length_append, key.length_eq]
  rfl

/-- A key is read back from its public key info. -/
theorem ofInfo?_toInfo : ofInfo? key.toInfo = some key := by
  have hdrop : Bytes.dropFront? infoHeader key.toInfo = some key.toBytes :=
    Bytes.dropFront?_eq_some_iff.2 (toInfo_eq key)
  have hkey : FixedBytes.ofBytes? 32 key.toBytes = some key := FixedBytes.ofBytes?_eq_some_iff.2 rfl
  simp only [ofInfo?, Option.bind_eq_bind, Option.bind_some, hdrop, hkey]

/-- Bare bytes are read as the key, since they are 32. -/
theorem ofBytes?_toBytes : ofBytes? key.toBytes = some key := by
  rw [ofBytes?, dif_pos key.length_eq]

/-- A public key info is read as its key, since it is longer than a bare one. -/
theorem ofBytes?_toInfo : ofBytes? key.toInfo = some key := by
  have hlength : key.toInfo.length ≠ 32 := by
    rw [length_toInfo]
    decide
  rw [ofBytes?, dif_neg hlength, ofInfo?_toInfo]

/-- A key is read back from a block with its public key info. -/
theorem ofPem?_infoBlock :
    ofPem? (Pem.write lineEnd closing Pem.infoLabel key.toInfo) = some key := by
  have hblock : Pem.lenient? (Text.utf8 "PUBLIC KEY")
      (Pem.write lineEnd closing Pem.infoLabel key.toInfo) = some key.toInfo :=
    Pem.lenient?_infoBlock (List.cons_ne_nil _ _)
  simp only [ofPem?, Option.bind_eq_bind, Option.bind_some, hblock, ofInfo?_toInfo]

end Ed25519

/-! ## P-256 -/

namespace P256

/-- Both coordinates of a point. -/
def PublicKey.uncompressed (key : PublicKey) : Bytes :=
  0x04 :: (Bytes.bigEndian 32 key.x ++ Bytes.bigEndian 32 key.y)

/-- The subject public key info of a key. -/
def PublicKey.toInfo (key : PublicKey) : Bytes :=
  Der.writePublicKeyInfo infoAlgorithm key.uncompressed

variable (key : PublicKey)

/-- Both coordinates of a point take 32 bytes at most. -/
theorem PublicKey.coordinates_lt : key.x < 256 ^ 32 ∧ key.y < 256 ^ 32 := by
  have hcurve := key.onCurve
  simp only [isOnCurve, Bool.and_eq_true, decide_eq_true_eq] at hcurve
  have hprime : fieldPrime < 256 ^ 32 := by decide
  exact ⟨Nat.lt_trans hcurve.1.1 hprime, Nat.lt_trans hcurve.1.2 hprime⟩

/-- A point is read back from both of its coordinates. -/
theorem ofShort?_uncompressed : ofShort? key.uncompressed = some key := by
  obtain ⟨hx, hy⟩ := key.coordinates_lt
  have hlength : (Bytes.bigEndian 32 key.x ++ Bytes.bigEndian 32 key.y).length = 64 := by simp
  rw [PublicKey.uncompressed, ofShort?, if_pos rfl, if_pos hlength,
    Bytes.toNat_take_bigEndian hx, Bytes.toNat_drop_bigEndian _ hy]
  exact dif_pos key.onCurve

/-- The tag of a sequence stands for no short form. -/
theorem ofShort?_toInfo : ofShort? key.toInfo = none := by
  rw [PublicKey.toInfo, Der.writePublicKeyInfo, Der.writeValue, List.cons_append, ofShort?,
    if_neg (by decide), if_neg (by decide)]

/-- A point is read back from its public key info. -/
theorem ofInfo?_toInfo : ofInfo? key.toInfo = some key := by
  have hlength : key.uncompressed.length = 65 := by simp [PublicKey.uncompressed]
  have halgorithm : infoAlgorithm.length = 19 := rfl
  have hinfo : Der.publicKeyInfo? infoAlgorithm key.toInfo = some key.uncompressed :=
    Der.publicKeyInfo?_write (by omega)
  simp only [ofInfo?, Option.bind_eq_bind, Option.bind_some, hinfo, ofShort?_uncompressed]

/-- Both coordinates are read as the point. -/
theorem ofBytes?_uncompressed : ofBytes? key.uncompressed = some key := by
  rw [ofBytes?, ofShort?_uncompressed]

/-- A public key info is read as its point, since its first byte begins no bare one. -/
theorem ofBytes?_toInfo : ofBytes? key.toInfo = some key := by
  rw [ofBytes?, ofShort?_toInfo, ofInfo?_toInfo]

/-- A point is read back from a block with its public key info. -/
theorem ofPem?_infoBlock :
    ofPem? (Pem.write lineEnd closing Pem.infoLabel key.toInfo) = some key := by
  have hblock : Pem.strict? (Text.utf8 "PUBLIC KEY")
      (Pem.write lineEnd closing Pem.infoLabel key.toInfo) = some key.toInfo :=
    Pem.strict?_write (List.cons_ne_nil _ _)
  simp only [ofPem?, Option.bind_eq_bind, Option.bind_some, hblock, ofInfo?_toInfo]

end P256

/-! ## RSA -/

namespace Rsa

/-- The bare pair of a key. -/
def PublicKey.toPair (key : PublicKey) : Bytes := Der.writePair key.modulus key.exponent

/-- The subject public key info of a key. -/
def PublicKey.toInfo (key : PublicKey) : Bytes :=
  Der.writePublicKeyInfo infoAlgorithm key.toPair

variable {key : PublicKey}

/-- A key is sound exactly if its modulus and its exponent are odd and in range. -/
theorem isSound_iff :
    key.isSound = true ↔ key.modulus < 2 ^ 4096 ∧ key.modulus % 2 = 1 ∧ key.exponent % 2 = 1 ∧
      2 ≤ key.exponent ∧ key.exponent < 2 ^ 33 ∧ key.exponent < key.modulus := by
  rw [← Nat.one_shiftLeft 4096, ← Nat.one_shiftLeft 33, PublicKey.isSound]
  generalize 1 <<< 4096 = bound
  simp only [Bool.and_eq_true, decide_eq_true_eq, beq_iff_eq, and_assoc]

/-- Both numbers of a sound key take 530 bytes as integers at most. -/
theorem length_integers_le (h : key.isSound = true) :
    (Der.writeInteger key.modulus ++ Der.writeInteger key.exponent).length ≤ 530 := by
  obtain ⟨hmodulus, -, -, -, hexponent, -⟩ := isSound_iff.1 h
  have hfirst := Der.length_writeInteger_le hmodulus (by decide)
  have hsecond := Der.length_writeInteger_le hexponent (by decide)
  rw [List.length_append]
  omega

/-- A sound key is read back from its bare pair. -/
theorem ofPair?_toPair (h : key.isSound = true) : ofPair? key.toPair = some key := by
  have hlength := length_integers_le h
  have hpair : Der.integerPair? key.toPair = some (key.modulus, key.exponent) :=
    Der.integerPair?_eq_some_iff.2 ⟨by omega, rfl⟩
  simp only [ofPair?, Option.bind_eq_bind, Option.bind_some, hpair, h]
  rfl

/-- A bare pair is no public key info, since no algorithm stands in it. -/
theorem ofInfo?_toPair (h : key.isSound = true) : ofInfo? key.toPair = none := by
  have hlength := length_integers_le h
  have hinfo : Der.publicKeyInfo? infoAlgorithm key.toPair = none :=
    Der.publicKeyInfo?_writePair (by omega) _
  simp only [ofInfo?, Option.bind_eq_bind, Option.bind_none, hinfo]

/-- A sound key is read back from its public key info. -/
theorem ofInfo?_toInfo (h : key.isSound = true) : ofInfo? key.toInfo = some key := by
  have hlength := length_integers_le h
  have hpair : key.toPair.length ≤ 536 :=
    Nat.le_trans (Der.length_writeValue_le Der.sequenceTag (by omega)) (by omega)
  have halgorithm : infoAlgorithm.length = 13 := rfl
  have hinfo : Der.publicKeyInfo? infoAlgorithm key.toInfo = some key.toPair :=
    Der.publicKeyInfo?_write (by omega)
  simp only [ofInfo?, Option.bind_eq_bind, Option.bind_some, hinfo, ofPair?_toPair h]

/-- A public key info is read as its key. -/
theorem ofBytes?_toInfo (h : key.isSound = true) : ofBytes? key.toInfo = some key := by
  rw [ofBytes?, ofInfo?_toInfo h]

/-- A bare pair is read as its key, once it is found to be no public key info. -/
theorem ofBytes?_toPair (h : key.isSound = true) : ofBytes? key.toPair = some key := by
  rw [ofBytes?, ofInfo?_toPair h, ofPair?_toPair h]

/-- The mark of a bare pair has a space in front of an R, which a block of an info has nowhere. -/
theorem ofPem?_infoBlock (h : key.isSound = true) :
    ofPem? (Pem.write lineEnd closing Pem.infoLabel key.toInfo) = some key := by
  have hmark : Bytes.find? (Pem.beginMark ++ pairLabel ++ Pem.dashes)
      (Pem.write lineEnd closing Pem.infoLabel key.toInfo) = none := by
    have hmeet : [0x20, 0x52] <:+: Pem.beginMark ++ pairLabel ++ Pem.dashes := by decide
    exact Pem.find?_write_eq_none hmeet (by decide) (by decide)
  have hblock : Pem.strict? (Text.utf8 "PUBLIC KEY")
      (Pem.write lineEnd closing Pem.infoLabel key.toInfo) = some key.toInfo :=
    Pem.strict?_write (List.cons_ne_nil _ _)
  rw [ofPem?, hmark, Option.isSome_none, if_neg Bool.false_ne_true]
  simp only [Option.bind_eq_bind, Option.bind_some, hblock, ofInfo?_toInfo h]

/-- A sound key is read back from a block with its bare pair. -/
theorem ofPem?_pairBlock (h : key.isSound = true) :
    ofPem? (Pem.write lineEnd closing pairLabel key.toPair) = some key := by
  have hmark : Bytes.find? (Pem.beginMark ++ pairLabel ++ Pem.dashes)
      (Pem.write lineEnd closing pairLabel key.toPair) = some 0 := Pem.find?_write_self
  have hblock : Pem.strict? pairLabel (Pem.write lineEnd closing pairLabel key.toPair) =
      some key.toPair := Pem.strict?_write (List.cons_ne_nil _ _)
  rw [ofPem?, hmark, Option.isSome_some, if_pos rfl]
  simp only [Option.bind_eq_bind, Option.bind_some, hblock, ofPair?_toPair h]

end Rsa

/-! ## Public keys -/

namespace PublicKey

/-- What an RSA key is answered with once it is read: itself, or its size if that is too small. -/
def rsaResult (key : Rsa.PublicKey) : Except KeyError PublicKey :=
  if key.bits < Rsa.minBits then .error (.rsaTooSmall key.bits) else .ok (.rsa key)

/-- The check of the size answers a key with itself or with its size. -/
theorem map_checkSize (key : Rsa.PublicKey) :
    (Rsa.checkSize (some key)).map rsa = rsaResult key := by
  rw [Rsa.checkSize, rsaResult]
  split <;> rfl

/-- The text of a block with a public key info has the block as its encoding. -/
theorem utf8_infoBlock (bytes : Bytes) :
    Text.utf8 (Pem.textOf lineEnd closing Pem.infoLabel bytes) =
      Pem.write lineEnd closing Pem.infoLabel bytes :=
  Pem.utf8_textOf Pem.lt_of_mem_infoLabel

/-- The text of a block with a bare pair has the block as its encoding. -/
theorem utf8_pairBlock (bytes : Bytes) :
    Text.utf8 (Pem.textOf lineEnd closing Rsa.pairLabel bytes) =
      Pem.write lineEnd closing Rsa.pairLabel bytes :=
  Pem.utf8_textOf (by decide +kernel)

/-- Every encoding of a key is read as that key, whatever lines the text form is written in, and
every encoding of an RSA key that is too small is refused for its size. -/
theorem encodings_interchangeable (lineEnd : Pem.LineEnd) (closing : Option Pem.LineEnd) :
    (∀ key : Ed25519.PublicKey,
      key.toInfo.length = 44 ∧
      ofBytes .ed25519 key.toBytes = .ok (.ed25519 key) ∧
      ofBytes .ed25519 key.toInfo = .ok (.ed25519 key) ∧
      ofPem .ed25519 (Pem.textOf lineEnd closing Pem.infoLabel key.toInfo) =
        .ok (.ed25519 key)) ∧
    (∀ key : Rsa.PublicKey, key.modulus % 2 = 1 → key.modulus < 2 ^ 4096 → key.exponent % 2 = 1 →
      2 ≤ key.exponent → key.exponent < 2 ^ 33 → key.exponent < key.modulus →
      ofBytes .rsaPkcs1 key.toInfo = rsaResult key ∧
      ofBytes .rsaPkcs1 key.toPair = rsaResult key ∧
      ofPem .rsaPkcs1 (Pem.textOf lineEnd closing Pem.infoLabel key.toInfo) = rsaResult key ∧
      ofPem .rsaPkcs1 (Pem.textOf lineEnd closing Rsa.pairLabel key.toPair) = rsaResult key) ∧
    ∀ key : P256.PublicKey,
      ofBytes .ecdsaP256 key.uncompressed = .ok (.p256 key) ∧
      ofBytes .ecdsaP256 key.toInfo = .ok (.p256 key) ∧
      ofPem .ecdsaP256 (Pem.textOf lineEnd closing Pem.infoLabel key.toInfo) = .ok (.p256 key) := by
  refine ⟨?_, ?_, ?_⟩
  · intro key
    refine ⟨Ed25519.length_toInfo key, ?_, ?_, ?_⟩
    · simp only [ofBytes, Ed25519.ofBytes?_toBytes]
    · simp only [ofBytes, Ed25519.ofBytes?_toInfo]
    · simp only [ofPem, utf8_infoBlock, Ed25519.ofPem?_infoBlock]
  · intro key hodd hmodulus hexponentOdd hleast hexponent hlt
    have hsound := Rsa.isSound_iff.2 ⟨hmodulus, hodd, hexponentOdd, hleast, hexponent, hlt⟩
    refine ⟨?_, ?_, ?_, ?_⟩
    · simp only [ofBytes, Rsa.ofBytes?_toInfo hsound, map_checkSize]
    · simp only [ofBytes, Rsa.ofBytes?_toPair hsound, map_checkSize]
    · simp only [ofPem, utf8_infoBlock, Rsa.ofPem?_infoBlock hsound, map_checkSize]
    · simp only [ofPem, utf8_pairBlock, Rsa.ofPem?_pairBlock hsound, map_checkSize]
  · intro key
    refine ⟨?_, ?_, ?_⟩
    · simp only [ofBytes, P256.ofBytes?_uncompressed]
    · simp only [ofBytes, P256.ofBytes?_toInfo]
    · simp only [ofPem, utf8_infoBlock, P256.ofPem?_infoBlock]

/-- An RSA key of 2048 bits. -/
def sampleRsaKey : Rsa.PublicKey := ⟨1 <<< 2047 + 1, 65537⟩

/-- The four encodings of a key of 2048 bits give the key, those of a tiny one its size. -/
theorem encodings_interchangeable_sample :
    (sampleRsaKey.modulus % 2 = 1 ∧ sampleRsaKey.modulus < 2 ^ 4096 ∧
      sampleRsaKey.exponent % 2 = 1 ∧ 2 ≤ sampleRsaKey.exponent ∧
      sampleRsaKey.exponent < 2 ^ 33 ∧ sampleRsaKey.exponent < sampleRsaKey.modulus ∧
      ofBytes .rsaPkcs1 sampleRsaKey.toPair = .ok (.rsa sampleRsaKey) ∧
      ofPem .rsaPkcs1 (Pem.textOf .crlf none Pem.infoLabel sampleRsaKey.toInfo) =
        .ok (.rsa sampleRsaKey)) ∧
    ofPem .rsaPkcs1 (Pem.textOf .crlf none Rsa.pairLabel (Rsa.PublicKey.toPair ⟨15, 3⟩)) =
      .error (.rsaTooSmall 8) := by
  have hodd : sampleRsaKey.modulus % 2 = 1 := by decide +kernel
  have hmodulus : sampleRsaKey.modulus < 2 ^ 4096 := by decide +kernel
  have hlt : sampleRsaKey.exponent < sampleRsaKey.modulus := by decide +kernel
  have hresult : rsaResult sampleRsaKey = .ok (.rsa sampleRsaKey) := by decide +kernel
  obtain ⟨-, hpair, hinfoBlock, -⟩ := (encodings_interchangeable .crlf none).2.1 sampleRsaKey hodd
    hmodulus (by decide) (by decide) (by decide) hlt
  obtain ⟨-, -, -, hpairBlock⟩ := (encodings_interchangeable .crlf none).2.1 ⟨15, 3⟩ (by decide)
    (by decide +kernel) (by decide) (by decide) (by decide) (by decide)
  exact ⟨⟨hodd, hmodulus, by decide, by decide, by decide, hlt, hpair.trans hresult,
    hinfoBlock.trans hresult⟩, hpairBlock⟩

end PublicKey

end FirmwareTransparency
