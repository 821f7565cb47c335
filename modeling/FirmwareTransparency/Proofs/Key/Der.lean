import FirmwareTransparency.Bytes.Lemmas
import FirmwareTransparency.Key.Der

/-!
# Distinguished encoding has one form

Writing takes the fewest bytes for a length, and for a number the fewest that leave the highest bit
clear. Reading accepts exactly what is written so, one `iff` for every reader, since a byte more
would be one that reading refuses. Main statement: `integerPair?_eq_some_iff`.
-/

set_option autoImplicit false

namespace FirmwareTransparency.Der

variable {tag : UInt8} {bytes content rest : Bytes} {n first second : Nat}

/-! ## The written form -/

/-- Writes a length: one byte below 128, or the count of its bytes and these bytes. -/
def writeLength (n : Nat) : Bytes :=
  if n < 0x80 then [UInt8.ofNat n]
  else UInt8.ofNat (0x80 + (n.log2 / 8 + 1)) :: Bytes.bigEndian (n.log2 / 8 + 1) n

/-- Writes a value: its tag, the length of its content, and the content. -/
def writeValue (tag : UInt8) (content : Bytes) : Bytes :=
  tag :: writeLength content.length ++ content

/-- Writes a number in the fewest bytes of which the highest bit is clear. -/
def writeNatural (n : Nat) : Bytes := Bytes.bigEndian ((n.log2 + 1) / 8 + 1) n

/-- Writes a non-negative integer. -/
def writeInteger (n : Nat) : Bytes := writeValue integerTag (writeNatural n)

/-- Writes a sequence of two non-negative integers. -/
def writePair (first second : Nat) : Bytes :=
  writeValue sequenceTag (writeInteger first ++ writeInteger second)

/-! ## Lengths -/

/-- A length below 128 is one byte. -/
theorem writeLength_of_lt (h : n < 0x80) : writeLength n = [UInt8.ofNat n] :=
  if_pos h

/-- A length of 128 or more is written behind the count of its bytes. -/
theorem writeLength_of_width {width : Nat} (hlong : 0x80 ≤ n) (hleast : 256 ^ width ≤ n)
    (hfits : n < 256 ^ (width + 1)) :
    writeLength n = UInt8.ofNat (0x80 + (width + 1)) :: Bytes.bigEndian (width + 1) n := by
  have hwidth : n.log2 / 8 = width := by
    rw [show 256 = 2 ^ 8 from rfl, ← Nat.pow_mul] at hleast hfits
    have hle := (Nat.le_log2 (by omega)).2 hleast
    have hlt := (Nat.log2_lt (by omega)).2 hfits
    omega
  rw [writeLength, if_neg (Nat.not_lt.2 hlong), hwidth]

/-- A number of 128 or more has a width. -/
theorem exists_width (h : 0x80 ≤ n) : ∃ width, 256 ^ width ≤ n ∧ n < 256 ^ (width + 1) := by
  have hle : n.log2 / 8 * 8 ≤ n.log2 := Nat.div_mul_le_self _ _
  have hlt : n.log2 < (n.log2 / 8 + 1) * 8 := by omega
  refine ⟨n.log2 / 8, ?_, ?_⟩
  · rw [show 256 = 2 ^ 8 from rfl, ← Nat.pow_mul, Nat.mul_comm]
    exact (Nat.le_log2 (by omega)).1 hle
  · rw [show 256 = 2 ^ 8 from rfl, ← Nat.pow_mul, Nat.mul_comm]
    exact (Nat.log2_lt (by omega)).1 hlt

/-- A length of up to four bytes is read back, whatever follows it. -/
theorem length?_writeLength (h : n < 2 ^ 32) (rest : Bytes) :
    length? (writeLength n ++ rest) = some (n, rest) := by
  by_cases hshort : n < 0x80
  · have hmark : (UInt8.ofNat n).toNat = n := by
      rw [UInt8.toNat_ofNat']
      omega
    have hlt : UInt8.ofNat n < 0x80 := by
      rw [UInt8.lt_iff_toNat_lt, hmark]
      exact hshort
    rw [writeLength_of_lt hshort, List.singleton_append, length?, if_pos hlt, hmark]
  · have hlong : 0x80 ≤ n := Nat.le_of_not_lt hshort
    obtain ⟨width, hleast, hfits⟩ := exists_width hlong
    have hwidth : width < 4 := by
      have hpow : 256 ^ width < 256 ^ 4 := Nat.lt_of_le_of_lt hleast h
      exact (Nat.pow_lt_pow_iff_right (by decide)).1 hpow
    have hmark : (UInt8.ofNat (0x80 + (width + 1))).toNat = 0x80 + (width + 1) := by
      rw [UInt8.toNat_ofNat']
      omega
    have hge : ¬UInt8.ofNat (0x80 + (width + 1)) < 0x80 := by
      rw [UInt8.lt_iff_toNat_lt, hmark]
      exact Nat.not_lt.2 (Nat.le_add_right _ _)
    have hdrop : (Bytes.bigEndian (width + 1) n ++ rest).drop (width + 1) = rest :=
      List.drop_left' (Bytes.length_bigEndian _ _)
    have hvalue := Bytes.toNat_take_bigEndian hfits rest
    -- The reader refuses a length that fewer bytes would hold.
    have hmin : 1 <<< (8 * (width + 1 - 1)) ≤ n := by
      rw [Nat.one_shiftLeft, Nat.pow_mul, Nat.add_sub_cancel]
      exact hleast
    rw [writeLength_of_width hlong hleast hfits, List.cons_append, length?, if_neg hge]
    simp only [hmark, Nat.add_sub_cancel_left, hdrop, hvalue]
    refine if_pos ⟨Nat.le_add_left _ _, hwidth, ?_, hlong, hmin⟩
    simp

/-- A length that is read was written in the fewest bytes. -/
theorem eq_of_length? (h : length? bytes = some (n, rest)) :
    n < 2 ^ 32 ∧ bytes = writeLength n ++ rest := by
  cases bytes with
  | nil => cases h
  | cons mark more =>
    by_cases hshort : mark < 0x80
    · rw [length?, if_pos hshort] at h
      cases h
      have hlt : mark.toNat < 0x80 := UInt8.lt_iff_toNat_lt.1 hshort
      rw [writeLength_of_lt hlt, UInt8.ofNat_toNat]
      exact ⟨by omega, rfl⟩
    · rw [length?, if_neg hshort] at h
      simp only [Option.ite_none_right_eq_some] at h
      obtain ⟨⟨hpos, hle, hfits, hlong, hmin⟩, hsome⟩ := h
      have hmark : 0x80 ≤ mark.toNat :=
        Nat.le_of_not_lt fun hlt => hshort (UInt8.lt_iff_toNat_lt.2 hlt)
      obtain ⟨width, hcount⟩ : ∃ width, mark.toNat = 0x80 + (width + 1) :=
        ⟨mark.toNat - 0x81, by omega⟩
      simp only [hcount, Nat.add_sub_cancel_left] at hle hfits hlong hmin hsome
      cases hsome
      have hlength : (more.take (width + 1)).length = width + 1 := List.length_take_of_le hfits
      have hleast : 256 ^ width ≤ Bytes.toNat (more.take (width + 1)) := by
        rwa [Nat.one_shiftLeft, Nat.pow_mul, Nat.add_sub_cancel] at hmin
      have hlt := Bytes.toNat_lt (more.take (width + 1))
      rw [hlength] at hlt
      have hbound : 256 ^ (width + 1) ≤ 256 ^ 4 := Nat.pow_le_pow_right (by decide) hle
      have hwritten := Bytes.bigEndian_toNat (more.take (width + 1))
      rw [hlength] at hwritten
      refine ⟨Nat.lt_of_lt_of_le hlt hbound, ?_⟩
      rw [writeLength_of_width hlong hleast hlt, hwritten, ← hcount, UInt8.ofNat_toNat,
        List.cons_append, List.take_append_drop]

/-- A length is read exactly from its one written form. -/
theorem length?_eq_some_iff :
    length? bytes = some (n, rest) ↔ n < 2 ^ 32 ∧ bytes = writeLength n ++ rest := by
  constructor
  · exact eq_of_length?
  · rintro ⟨hlt, rfl⟩
    exact length?_writeLength hlt rest

/-! ## Values -/

/-- The content of a value is read exactly from the value's one written form. -/
theorem value?_eq_some_iff :
    value? tag bytes = some (content, rest) ↔
      content.length < 2 ^ 32 ∧ bytes = writeValue tag content ++ rest := by
  constructor
  · intro h
    cases bytes with
    | nil => cases h
    | cons first more =>
      rw [value?] at h
      simp only [Option.ite_none_right_eq_some] at h
      obtain ⟨rfl, h⟩ := h
      split at h
      · next length behind hlength =>
        obtain ⟨hlt, rfl⟩ := length?_eq_some_iff.1 hlength
        simp only [Option.ite_none_right_eq_some] at h
        obtain ⟨hfits, hsome⟩ := h
        cases hsome
        have htake : (behind.take length).length = length := List.length_take_of_le hfits
        refine ⟨htake.symm ▸ hlt, ?_⟩
        simp only [writeValue, htake, List.cons_append, List.append_assoc, List.take_append_drop]
      · cases h
  · rintro ⟨hlt, rfl⟩
    simp only [writeValue, List.cons_append, List.append_assoc]
    rw [value?, if_pos rfl, length?_eq_some_iff.2 ⟨hlt, rfl⟩]
    simp

/-- Bytes are one value exactly if they are its written form. -/
theorem whole?_eq_some_iff :
    whole? tag bytes = some content ↔
      content.length < 2 ^ 32 ∧ bytes = writeValue tag content := by
  have hwhole : whole? tag bytes = some content ↔ value? tag bytes = some (content, []) := by
    unfold whole?
    split
    · next found hvalue => simp [hvalue]
    · next hvalue =>
      simp only [reduceCtorEq, false_iff]
      exact hvalue content
  rw [hwhole, value?_eq_some_iff, List.append_nil]

/-! ## Integers -/

/-- The width that a number is written in leaves its highest bit clear, and none less does. -/
theorem exists_naturalWidth (n : Nat) :
    ∃ width, writeNatural n = Bytes.bigEndian (width + 1) n ∧ n < 2 ^ (8 * width + 7) ∧
      (width = 0 ∨ 2 ^ (8 * width - 1) ≤ n) := by
  refine ⟨(n.log2 + 1) / 8, rfl, ?_, ?_⟩
  · exact Nat.lt_of_lt_of_le Nat.lt_log2_self (Nat.pow_le_pow_right (by decide) (by omega))
  · by_cases hwidth : (n.log2 + 1) / 8 = 0
    · exact .inl hwidth
    · have hzero : n ≠ 0 := by
        rintro rfl
        exact hwidth rfl
      exact .inr ((Nat.le_log2 hzero).1 (by omega))

/-- A number is written in the least width that leaves the highest bit clear. -/
theorem writeNatural_of_width {width : Nat} (hfits : n < 2 ^ (8 * width + 7))
    (hleast : width = 0 ∨ 2 ^ (8 * width - 1) ≤ n) :
    writeNatural n = Bytes.bigEndian (width + 1) n := by
  have hwidth : (n.log2 + 1) / 8 = width := by
    by_cases hzero : n = 0
    · have hpos := Nat.two_pow_pos (8 * width - 1)
      have hlog : n.log2 = 0 := by rw [hzero]; rfl
      omega
    · have hlt := (Nat.log2_lt hzero).2 hfits
      rcases hleast with rfl | hleast
      · omega
      · have hle := (Nat.le_log2 hzero).2 hleast
        omega
  rw [writeNatural, hwidth]

/-- What stands below a unit does not make another one. -/
theorem mul_le_mul_add_iff {units low unit : Nat} (least : Nat) (h : low < unit) :
    least * unit ≤ units * unit + low ↔ least ≤ units := by
  rw [← Nat.le_div_iff_mul_le (Nat.zero_lt_of_lt h), Nat.mul_comm, Nat.mul_add_div
    (Nat.zero_lt_of_lt h), Nat.div_eq_of_lt h, Nat.add_zero]

/-- The highest bit of a number is clear exactly if that of its first byte is. -/
theorem toNat_lt_iff {byte : UInt8} :
    Bytes.toNat (byte :: rest) < 2 ^ (8 * rest.length + 7) ↔ ¬0x80 ≤ byte := by
  have hpow : 2 ^ (8 * rest.length + 7) = 128 * 256 ^ rest.length := by
    rw [Nat.pow_add, Nat.pow_mul, Nat.mul_comm]
  rw [← Nat.not_le, Bytes.toNat_cons, hpow, mul_le_mul_add_iff 128 (Bytes.toNat_lt rest),
    UInt8.le_iff_toNat_le]
  rfl

/-- Without its first byte the number would have its highest bit set or be another one. -/
theorem le_toNat_iff {byte next : UInt8} :
    2 ^ (8 * (next :: rest).length - 1) ≤ Bytes.toNat (byte :: next :: rest) ↔
      ¬(byte = 0 ∧ next < 0x80) := by
  have hpow : 2 ^ (8 * (next :: rest).length - 1) = 128 * 256 ^ rest.length := by
    rw [List.length_cons, show 8 * (rest.length + 1) - 1 = 8 * rest.length + 7 by omega,
      Nat.pow_add, Nat.pow_mul, Nat.mul_comm]
  have hvalue : Bytes.toNat (byte :: next :: rest) =
      (256 * byte.toNat + next.toNat) * 256 ^ rest.length + Bytes.toNat rest := by
    rw [Bytes.toNat_cons, Bytes.toNat_cons, List.length_cons, Nat.pow_succ]
    ring
  have hzero : byte = 0 ↔ byte.toNat = 0 := UInt8.toNat_inj.symm
  have hsmall : next < 0x80 ↔ next.toNat < 128 := UInt8.lt_iff_toNat_lt
  rw [hpow, hvalue, mul_le_mul_add_iff 128 (Bytes.toNat_lt rest), hzero, hsmall]
  omega

/-- Reading a number refuses one that has its highest bit set or a byte more than it needs. -/
theorem natural?_cons_eq_some_iff {byte : UInt8} :
    natural? (byte :: rest) = some n ↔
      Bytes.toNat (byte :: rest) < 2 ^ (8 * rest.length + 7) ∧
        (rest = [] ∨ 2 ^ (8 * rest.length - 1) ≤ Bytes.toNat (byte :: rest)) ∧
        Bytes.toNat (byte :: rest) = n := by
  rw [toNat_lt_iff]
  unfold natural?
  by_cases hhigh : 0x80 ≤ byte
  · simp [hhigh]
  · cases rest with
    | nil => simp [hhigh, Bytes.toNat]
    | cons next rest =>
      rw [le_toNat_iff]
      by_cases hextra : byte = 0 ∧ next < 0x80 <;> simp [hhigh, hextra]

/-- A number is read exactly from its one written form, without a byte that it does not need. -/
theorem natural?_eq_some_iff : natural? content = some n ↔ content = writeNatural n := by
  obtain ⟨width, hwritten, hfits, hleast⟩ := exists_naturalWidth n
  cases content with
  | nil =>
    rw [hwritten, ← List.length_eq_zero_iff.trans eq_comm, Bytes.length_bigEndian]
    simp [natural?]
  | cons byte rest =>
    rw [natural?_cons_eq_some_iff]
    constructor
    · rintro ⟨hlt, hneeded, rfl⟩
      have hneeded : rest.length = 0 ∨ 2 ^ (8 * rest.length - 1) ≤ Bytes.toNat (byte :: rest) :=
        hneeded.imp_left List.length_eq_zero_iff.2
      rw [writeNatural_of_width hlt hneeded]
      exact (Bytes.bigEndian_toNat (byte :: rest)).symm
    · intro h
      rw [hwritten] at h
      have hlength : rest.length = width := by
        simpa using congrArg List.length h
      have hvalue : Bytes.toNat (byte :: rest) = n := by
        have hlt : n < 256 ^ (width + 1) := by
          rw [show 256 = 2 ^ 8 from rfl, ← Nat.pow_mul]
          exact Nat.lt_of_lt_of_le hfits (Nat.pow_le_pow_right (by decide) (by omega))
        rw [h, Bytes.toNat_bigEndian, Nat.mod_eq_of_lt hlt]
      rw [hvalue, hlength, ← List.length_eq_zero_iff, hlength]
      exact ⟨hfits, hleast, rfl⟩

/-- An integer is read exactly from its one written form, whatever follows it. -/
theorem integer?_eq_some_iff :
    integer? bytes = some (n, rest) ↔
      (writeNatural n).length < 2 ^ 32 ∧ bytes = writeInteger n ++ rest := by
  unfold integer? writeInteger
  constructor
  · intro h
    split at h
    · next content behind hvalue =>
      obtain ⟨hlt, rfl⟩ := value?_eq_some_iff.1 hvalue
      simp only [Option.map_eq_some_iff, Prod.mk.injEq] at h
      obtain ⟨found, hfound, rfl, rfl⟩ := h
      obtain rfl := natural?_eq_some_iff.1 hfound
      exact ⟨hlt, rfl⟩
    · cases h
  · rintro ⟨hlt, rfl⟩
    rw [value?_eq_some_iff.2 ⟨hlt, rfl⟩]
    simp [natural?_eq_some_iff.2 rfl]

/-- An integer is not shorter than its content. -/
theorem length_writeNatural_le (n : Nat) : (writeNatural n).length ≤ (writeInteger n).length := by
  simp only [writeInteger, writeValue, List.length_append]
  omega

/-- A pair of integers has exactly one distinguished encoding, as long as its length has one. -/
theorem integerPair?_eq_some_iff :
    integerPair? bytes = some (first, second) ↔
      (writeInteger first ++ writeInteger second).length < 2 ^ 32 ∧
        bytes = writePair first second := by
  unfold integerPair? writePair
  simp only [Option.bind_eq_bind, Option.bind_eq_some_iff, Prod.exists, whole?_eq_some_iff,
    integer?_eq_some_iff]
  constructor
  · rintro ⟨content, ⟨hlt, rfl⟩, a, behind, ⟨-, rfl⟩, b, rest, ⟨-, rfl⟩, hend⟩
    obtain ⟨hnil, rfl, rfl⟩ : rest = [] ∧ a = first ∧ b = second := by
      simpa using hend
    subst hnil
    rw [List.append_nil] at hlt ⊢
    exact ⟨hlt, rfl⟩
  · rintro ⟨hlt, rfl⟩
    have hfirst := length_writeNatural_le first
    have hsecond := length_writeNatural_le second
    have hsum := hlt
    rw [List.length_append] at hsum
    refine ⟨_, ⟨hlt, rfl⟩, first, writeInteger second, ⟨by omega, rfl⟩, second, [],
      ⟨by omega, (List.append_nil _).symm⟩, ?_⟩
    simp

/-! ## Lengths of what is written -/

/-- A value with a short content has one byte for its length. -/
theorem writeValue_of_lt (h : content.length < 0x80) :
    writeValue tag content = tag :: UInt8.ofNat content.length :: content := by
  rw [writeValue, writeLength_of_lt h]
  rfl

/-- A length takes five bytes at most. -/
theorem length_writeLength_le (h : n < 2 ^ 32) : (writeLength n).length ≤ 5 := by
  rw [writeLength]
  split
  · exact Nat.le_add_left 1 4
  · next hlong =>
    have hlog : n.log2 < 32 := (Nat.log2_lt (by omega)).2 h
    rw [List.length_cons, Bytes.length_bigEndian]
    omega

/-- The tag and the length of a value take six bytes at most. -/
theorem length_writeValue_le (tag : UInt8) (h : content.length < 2 ^ 32) :
    (writeValue tag content).length ≤ content.length + 6 := by
  have hlength := length_writeLength_le h
  rw [writeValue, List.length_append, List.length_cons]
  omega

/-- A number is smaller than the bytes that it is written in can count. -/
theorem lt_of_length_writeNatural (n : Nat) : n < 256 ^ (writeNatural n).length := by
  obtain ⟨width, hwritten, hfits, -⟩ := exists_naturalWidth n
  rw [hwritten, Bytes.length_bigEndian, show 256 = 2 ^ 8 from rfl, ← Nat.pow_mul]
  exact Nat.lt_of_lt_of_le hfits (Nat.pow_le_pow_right (by decide) (by omega))

/-- A number takes at most one byte more than its bits fill, for the highest bit. -/
theorem length_writeNatural_of_lt {bits : Nat} (h : n < 2 ^ bits) :
    (writeNatural n).length ≤ bits / 8 + 1 := by
  rw [writeNatural, Bytes.length_bigEndian]
  by_cases hzero : n = 0
  · have hlog : n.log2 = 0 := by rw [hzero]; rfl
    omega
  · have hlog := (Nat.log2_lt hzero).2 h
    omega

/-- An integer takes a byte for every eight bits and seven more at most. -/
theorem length_writeInteger_le {bits : Nat} (h : n < 2 ^ bits) (hbits : bits < 2 ^ 32) :
    (writeInteger n).length ≤ bits / 8 + 7 := by
  have hlength := length_writeNatural_of_lt h
  have hvalue : (writeInteger n).length ≤ (writeNatural n).length + 6 :=
    length_writeValue_le integerTag (by omega)
  omega

/-! ## Public key infos -/

/-- Writes a subject public key info: an algorithm and a string of whole bytes, which is the key. -/
def writePublicKeyInfo (algorithm key : Bytes) : Bytes :=
  writeValue sequenceTag (writeValue sequenceTag algorithm ++ writeValue bitStringTag (0 :: key))

variable {algorithm key : Bytes}

/-- A value is not shorter than its content. -/
theorem length_le_length_writeValue (tag : UInt8) (content : Bytes) :
    content.length ≤ (writeValue tag content).length := by
  rw [writeValue, List.length_append]
  exact Nat.le_add_left _ _

/-- A subject public key info has exactly one distinguished encoding as well. -/
theorem publicKeyInfo?_eq_some_iff :
    publicKeyInfo? algorithm bytes = some key ↔
      (writeValue sequenceTag algorithm ++ writeValue bitStringTag (0 :: key)).length < 2 ^ 32 ∧
        bytes = writePublicKeyInfo algorithm key := by
  unfold publicKeyInfo? writePublicKeyInfo
  simp only [Option.bind_eq_bind, Option.bind_eq_some_iff, Prod.exists, whole?_eq_some_iff,
    value?_eq_some_iff]
  constructor
  · rintro ⟨content, ⟨hlt, rfl⟩, found, rest, ⟨-, rfl⟩, bits, ⟨-, rfl⟩, hbits⟩
    cases bits with
    | nil => cases hbits
    | cons unused bits =>
      simp only [Option.ite_none_right_eq_some] at hbits
      obtain ⟨⟨rfl, rfl⟩, hkey⟩ := hbits
      cases hkey
      exact ⟨hlt, rfl⟩
  · rintro ⟨hlt, rfl⟩
    have hfirst := length_le_length_writeValue sequenceTag algorithm
    have hsecond := length_le_length_writeValue bitStringTag (0 :: key)
    have hsum := hlt
    rw [List.length_append] at hsum
    refine ⟨_, ⟨hlt, rfl⟩, algorithm, _, ⟨by omega, rfl⟩, 0 :: key, ⟨by omega, rfl⟩, ?_⟩
    simp

/-- A key is read back from its public key info. -/
theorem publicKeyInfo?_write (h : algorithm.length + key.length < 2 ^ 31) :
    publicKeyInfo? algorithm (writePublicKeyInfo algorithm key) = some key := by
  have hcontent : (0 :: key).length = key.length + 1 := rfl
  have hfirst := length_writeValue_le sequenceTag (show algorithm.length < 2 ^ 32 by omega)
  have hsecond := length_writeValue_le bitStringTag (show (0 :: key).length < 2 ^ 32 by omega)
  apply publicKeyInfo?_eq_some_iff.2
  refine ⟨?_, rfl⟩
  rw [List.length_append]
  omega

/-- A value of another tag is not read. -/
theorem value?_of_ne {byte : UInt8} (h : byte ≠ tag) : value? tag (byte :: rest) = none := by
  rw [value?, if_neg h]

/-- A pair of integers does not begin with an algorithm, so it is no public key info. -/
theorem publicKeyInfo?_writePair
    (h : (writeInteger first ++ writeInteger second).length < 2 ^ 32) (algorithm : Bytes) :
    publicKeyInfo? algorithm (writePair first second) = none := by
  have hwhole : whole? sequenceTag (writePair first second) =
      some (writeInteger first ++ writeInteger second) := whole?_eq_some_iff.2 ⟨h, rfl⟩
  have hvalue : value? sequenceTag (writeInteger first ++ writeInteger second) = none :=
    value?_of_ne (by decide)
  simp only [publicKeyInfo?, Option.bind_eq_bind, Option.bind_some, Option.bind_none, hwhole,
    hvalue]

end FirmwareTransparency.Der
