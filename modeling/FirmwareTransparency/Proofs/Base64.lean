import FirmwareTransparency.Base64
import FirmwareTransparency.Proofs.Text.Ascii

/-!
# Base64 is read back

A group of four symbols spells the three bytes that it was written from, and the last group spells
the one or two bytes that are left over. Main statement: `decode_encode` says that every byte string
is read back from its written form. The written form is ASCII, so it is a text as well (`textOf`).
-/

set_option autoImplicit false

namespace FirmwareTransparency.Base64

/-! ## One group -/

/-- Padding is no symbol. -/
theorem symbol_ne_padding : ∀ value < 64, symbol value ≠ padding := by
  decide

/-- A symbol is accepted at every offset, and has the value that it was written for. -/
theorem valueAt_symbol (offset : Nat) {value : Nat} (h : value < 64) :
    valueAt offset (symbol value) = .ok value := by
  unfold valueAt
  rw [value?_symbol value h]

/-- The first two values of a group spell the first byte. -/
theorem firstByte_spells (a b : UInt8) :
    firstByte (a.toNat / 4) (a.toNat % 4 * 16 + b.toNat / 16) = a := by
  have ha := a.toNat_lt
  have hb := b.toNat_lt
  apply UInt8.toNat_inj.1
  rw [firstByte, UInt8.toNat_ofNat']
  omega

/-- The second and the third value of a group spell the second byte. -/
theorem secondByte_spells (a b c : UInt8) :
    secondByte (a.toNat % 4 * 16 + b.toNat / 16) (b.toNat % 16 * 4 + c.toNat / 64) = b := by
  have hb := b.toNat_lt
  have hc := c.toNat_lt
  apply UInt8.toNat_inj.1
  rw [secondByte, UInt8.toNat_ofNat']
  omega

/-- The third and the fourth value of a group spell the third byte. -/
theorem thirdByte_spells (b c : UInt8) :
    thirdByte (b.toNat % 16 * 4 + c.toNat / 64) (c.toNat % 64) = c := by
  have hc := c.toNat_lt
  apply UInt8.toNat_inj.1
  rw [thirdByte, UInt8.toNat_ofNat']
  omega

/-- A symbol in front of the padding adds its value. -/
theorem lastValues_symbol (offset position : Nat) {value : Nat} {rest : Bytes} {values : List Nat}
    (h : value < 64) (hrest : lastValues offset (position + 1) rest = .ok values) :
    lastValues offset position (symbol value :: rest) = .ok (value :: values) := by
  rw [lastValues, if_neg (symbol_ne_padding value h), valueAt_symbol _ h, hrest]
  rfl

/-- A last group of three bytes has no padding and is read back. -/
theorem decodeLast_three (offset : Nat) (a b c : UInt8) :
    decodeLast offset (encode [a, b, c]) = .ok [a, b, c] := by
  have ha := a.toNat_lt
  have hb := b.toNat_lt
  have hc := c.toNat_lt
  have hvalues : lastValues offset 0 (encode [a, b, c]) =
      .ok [a.toNat / 4, a.toNat % 4 * 16 + b.toNat / 16, b.toNat % 16 * 4 + c.toNat / 64,
        c.toNat % 64] := by
    apply lastValues_symbol offset 0 (by omega)
    apply lastValues_symbol offset 1 (by omega)
    apply lastValues_symbol offset 2 (by omega)
    apply lastValues_symbol offset 3 (by omega)
    rfl
  have hbytes : [firstByte (a.toNat / 4) (a.toNat % 4 * 16 + b.toNat / 16),
      secondByte (a.toNat % 4 * 16 + b.toNat / 16) (b.toNat % 16 * 4 + c.toNat / 64),
      thirdByte (b.toNat % 16 * 4 + c.toNat / 64) (c.toNat % 64)] = [a, b, c] := by
    rw [firstByte_spells, secondByte_spells, thirdByte_spells]
  unfold decodeLast
  rw [hvalues, ← hbytes]
  rfl

/-- Two bytes that are left over are read back from their group with one padding symbol. -/
theorem decodeLast_two (offset : Nat) (a b : UInt8) :
    decodeLast offset (encode [a, b]) = .ok [a, b] := by
  have ha := a.toNat_lt
  have hb := b.toNat_lt
  have hvalues : lastValues offset 0 (encode [a, b]) =
      .ok [a.toNat / 4, a.toNat % 4 * 16 + b.toNat / 16, b.toNat % 16 * 4] := by
    apply lastValues_symbol offset 0 (by omega)
    apply lastValues_symbol offset 1 (by omega)
    apply lastValues_symbol offset 2 (by omega)
    rfl
  have hsecond : secondByte (a.toNat % 4 * 16 + b.toNat / 16) (b.toNat % 16 * 4) = b :=
    secondByte_spells a b 0
  have hbits : b.toNat % 16 * 4 % 4 = 0 := Nat.mul_mod_left _ _
  unfold decodeLast
  rw [hvalues]
  show (if b.toNat % 16 * 4 % 4 = 0 then _ else _) = _
  rw [if_pos hbits, firstByte_spells, hsecond]
  rfl

/-- One byte that is left over is read back from its group with two padding symbols. -/
theorem decodeLast_one (offset : Nat) (a : UInt8) :
    decodeLast offset (encode [a]) = .ok [a] := by
  have ha := a.toNat_lt
  have hvalues : lastValues offset 0 (encode [a]) = .ok [a.toNat / 4, a.toNat % 4 * 16] := by
    apply lastValues_symbol offset 0 (by omega)
    apply lastValues_symbol offset 1 (by omega)
    rfl
  have hfirst : firstByte (a.toNat / 4) (a.toNat % 4 * 16) = a := firstByte_spells a 0
  have hbits : a.toNat % 4 * 16 % 16 = 0 := Nat.mul_mod_left _ _
  unfold decodeLast
  rw [hvalues]
  show (if a.toNat % 4 * 16 % 16 = 0 then _ else _) = _
  rw [if_pos hbits, hfirst]
  rfl

/-! ## All groups -/

/-- What is written consists of groups of four. -/
theorem length_encode_mod (bytes : Bytes) : (encode bytes).length % 4 = 0 := by
  induction bytes using encode.induct with
  | case1 a b c rest ih =>
    simp only [encode, List.length_cons]
    omega
  | case2 a b => simp [encode]
  | case3 a => simp [encode]
  | case4 => simp [encode]

/-- Something is written for every byte string but the empty one. -/
theorem encode_ne_nil {bytes : Bytes} (h : bytes ≠ []) : encode bytes ≠ [] := by
  cases bytes using encode.induct with
  | case1 a b c rest ih => exact List.cons_ne_nil _ _
  | case2 a b => exact List.cons_ne_nil _ _
  | case3 a => exact List.cons_ne_nil _ _
  | case4 => exact absurd rfl h

/-- The groups of a written form are read one after the other behind the bytes read so far. -/
theorem decodeGroups_encode (offset : Nat) (done : Bytes) {bytes : Bytes} (h : bytes ≠ []) :
    decodeGroups offset done (encode bytes) = .ok (done.reverse ++ bytes) := by
  induction bytes using encode.induct generalizing offset done with
  | case1 a b c rest ih =>
    by_cases hrest : rest = []
    · -- The last group has a reader of its own, also where it is a full one.
      subst hrest
      show (decodeLast offset (encode [a, b, c]) >>= fun last => .ok (done.reverse ++ last)) = _
      rw [decodeLast_three]
      rfl
    · obtain ⟨next, more, hmore⟩ := List.exists_cons_of_ne_nil (encode_ne_nil hrest)
      have ha := a.toNat_lt
      have hb := b.toNat_lt
      have hc := c.toNat_lt
      have hnext := ih (offset + 4) (c :: b :: a :: done) hrest
      rw [hmore] at hnext
      rw [encode, hmore, decodeGroups, valueAt_symbol _ (by omega), valueAt_symbol _ (by omega),
        valueAt_symbol _ (by omega), valueAt_symbol _ (by omega)]
      show decodeGroups (offset + 4) (thirdByte _ _ :: secondByte _ _ :: firstByte _ _ :: done)
        (next :: more) = _
      rw [firstByte_spells, secondByte_spells, thirdByte_spells, hnext]
      simp
  | case2 a b =>
    show (decodeLast offset (encode [a, b]) >>= fun last => .ok (done.reverse ++ last)) = _
    rw [decodeLast_two]
    rfl
  | case3 a =>
    show (decodeLast offset (encode [a]) >>= fun last => .ok (done.reverse ++ last)) = _
    rw [decodeLast_one]
    rfl
  | case4 => exact absurd rfl h

/-- Every byte string is read back from its written form. -/
theorem decode_encode (bytes : Bytes) : decode (encode bytes) = .ok bytes := by
  by_cases hbytes : bytes = []
  · subst hbytes
    rfl
  · have hlength := length_encode_mod bytes
    unfold decode
    rw [List.getLast?_eq_getLast_of_ne_nil (encode_ne_nil hbytes)]
    show (if _ ∧ _ then _ else _) = _
    rw [if_neg (by omega), decodeGroups_encode 0 [] hbytes]
    rfl

/-! ## As text -/

/-- A written form holds symbols and padding. -/
theorem mem_encode {bytes : Bytes} {byte : UInt8} (h : byte ∈ encode bytes) :
    byte = padding ∨ ∃ value < 64, byte = symbol value := by
  induction bytes using encode.induct with
  | case1 a b c rest ih =>
    have ha := a.toNat_lt
    have hb := b.toNat_lt
    have hc := c.toNat_lt
    simp only [encode, List.mem_cons] at h
    obtain rfl | rfl | rfl | rfl | h := h
    · exact .inr ⟨_, by omega, rfl⟩
    · exact .inr ⟨_, by omega, rfl⟩
    · exact .inr ⟨_, by omega, rfl⟩
    · exact .inr ⟨_, by omega, rfl⟩
    · exact ih h
  | case2 a b =>
    have ha := a.toNat_lt
    have hb := b.toNat_lt
    simp only [encode, List.mem_cons, List.not_mem_nil, or_false] at h
    obtain rfl | rfl | rfl | rfl := h
    · exact .inr ⟨_, by omega, rfl⟩
    · exact .inr ⟨_, by omega, rfl⟩
    · exact .inr ⟨_, by omega, rfl⟩
    · exact .inl rfl
  | case3 a =>
    have ha := a.toNat_lt
    simp only [encode, List.mem_cons, List.not_mem_nil, or_false] at h
    obtain rfl | rfl | rfl | rfl := h
    · exact .inr ⟨_, by omega, rfl⟩
    · exact .inr ⟨_, by omega, rfl⟩
    · exact .inl rfl
    · exact .inl rfl
  | case4 => cases h

/-- What holds of the padding and of every symbol holds of every byte of a written form. -/
theorem forall_mem_encode {P : UInt8 → Prop} (hpadding : P padding)
    (hsymbol : ∀ value < 64, P (symbol value)) (bytes : Bytes) : ∀ byte ∈ encode bytes, P byte := by
  intro byte hbyte
  obtain rfl | ⟨value, hvalue, rfl⟩ := mem_encode hbyte
  · exact hpadding
  · exact hsymbol value hvalue

/-- The written form of bytes as a text. -/
def textOf (bytes : Bytes) : String := Text.ofAscii (encode bytes)

/-- What is written is ASCII. -/
theorem lt_of_mem_encode (bytes : Bytes) : ∀ byte ∈ encode bytes, byte < 0x80 :=
  forall_mem_encode (by decide) (by decide) bytes

/-- The text of a byte string has its written form as its encoding. -/
theorem utf8_textOf (bytes : Bytes) : Text.utf8 (textOf bytes) = encode bytes :=
  Text.utf8_ofAscii (lt_of_mem_encode bytes)

end FirmwareTransparency.Base64
