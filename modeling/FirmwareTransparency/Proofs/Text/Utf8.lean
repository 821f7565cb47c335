import FirmwareTransparency.Proofs.Text.Ascii

/-!
# Where a character ends

UTF-8 marks the first byte of every character, so no encoding goes on into another: a text's bytes
fall apart into characters in one way only. `IsUtf8` says of bytes that they are those of some text.
Main statements: `utf8EncodeChar_append_inj` and `isUtf8_flatMap`.
-/

set_option autoImplicit false

namespace FirmwareTransparency.Text

variable {c d : Char} {bytes rest : Bytes}

/-- A text is encoded character by character. -/
theorem utf8_eq_flatMap (text : String) :
    utf8 text = text.toList.flatMap String.utf8EncodeChar := by
  rw [← utf8_ofList, String.ofList_toList]

/-- The first byte of a character is marked as such, and no other byte is. -/
theorem exists_utf8EncodeChar (c : Char) :
    ∃ first more, String.utf8EncodeChar c = first :: more ∧ first.IsUTF8FirstByte ∧
      ∀ byte ∈ more, ¬byte.IsUTF8FirstByte := by
  obtain ⟨first, more, h⟩ := List.exists_cons_of_ne_nil (String.utf8EncodeChar_ne_nil (c := c))
  have hmarked : ∀ i (hi : i < (first :: more).length),
      (first :: more)[i].IsUTF8FirstByte ↔ i = 0 := by
    rw [← h]
    intro i hi
    exact UInt8.isUTF8FirstByte_getElem_utf8EncodeChar
  refine ⟨first, more, h, (hmarked 0 (Nat.succ_pos _)).2 rfl, ?_⟩
  intro byte hbyte
  obtain ⟨i, hi, rfl⟩ := List.getElem_of_mem hbyte
  exact fun hfirst => absurd ((hmarked (i + 1) (Nat.succ_lt_succ hi)).1 hfirst) (Nat.succ_ne_zero i)

/-- Two texts that start with the same bytes start with the same character. -/
theorem utf8EncodeChar_append_inj
    (h : String.utf8EncodeChar c ++ bytes = String.utf8EncodeChar d ++ rest) :
    c = d ∧ bytes = rest := by
  have hdecode : ∀ (c : Char) (bytes : Bytes),
      (String.utf8EncodeChar c ++ bytes).toByteArray.utf8DecodeChar? 0 = some c := by
    intro c bytes
    rw [List.toByteArray_append]
    exact ByteArray.utf8DecodeChar?_utf8EncodeChar_append
  have hc := hdecode c bytes
  rw [h, hdecode d rest] at hc
  obtain rfl := Option.some.inj hc
  exact ⟨rfl, List.append_cancel_left h⟩

/-- An ASCII byte begins a character. -/
theorem isUTF8FirstByte_of_lt {byte : UInt8} (h : byte < 0x80) : byte.IsUTF8FirstByte := by
  have hclear : ∀ code < 128, UInt8.ofNat code &&& 0x80 = 0 := by decide
  have hbyte := hclear byte.toNat (UInt8.lt_iff_toNat_lt.1 h)
  rw [UInt8.ofNat_toNat] at hbyte
  exact .inl hbyte

/-- An ASCII character is encoded by the byte of its number. -/
theorem utf8EncodeChar_of_lt (h : c.toNat < 128) :
    String.utf8EncodeChar c = [UInt8.ofNat c.toNat] := by
  rw [← utf8EncodeChar_ofNat h, Char.ofNat_toNat]

/-- Outside ASCII all bytes of a character have their highest bit set. -/
theorem le_of_mem_utf8EncodeChar (h : 128 ≤ c.toNat) :
    ∀ byte ∈ String.utf8EncodeChar c, 0x80 ≤ byte := by
  intro byte hbyte
  have hlong : ¬c.val.toNat ≤ 127 := by
    change ¬c.toNat ≤ 127
    omega
  rw [UInt8.le_iff_toNat_le]
  change 128 ≤ byte.toNat
  simp only [String.utf8EncodeChar, if_neg hlong] at hbyte
  split at hbyte
  · simp only [List.mem_cons, List.not_mem_nil, or_false] at hbyte
    obtain rfl | rfl := hbyte <;> rw [UInt8.toNat_ofNat'] <;> omega
  · split at hbyte
    · simp only [List.mem_cons, List.not_mem_nil, or_false] at hbyte
      obtain rfl | rfl | rfl := hbyte <;> rw [UInt8.toNat_ofNat'] <;> omega
    · simp only [List.mem_cons, List.not_mem_nil, or_false] at hbyte
      obtain rfl | rfl | rfl | rfl := hbyte <;> rw [UInt8.toNat_ofNat'] <;> omega

/-- Bytes that are the UTF-8 of some text. -/
def IsUtf8 (bytes : Bytes) : Prop := ∃ text, utf8 text = bytes

/-- ASCII bytes are the encoding of a text. -/
theorem isUtf8_of_all (h : bytes.all (· < 0x80) = true) : IsUtf8 bytes :=
  ⟨ofAscii bytes, utf8_ofAscii (by simpa using h)⟩

/-- The bytes of one character are the encoding of a text. -/
theorem isUtf8_utf8EncodeChar (c : Char) : IsUtf8 (String.utf8EncodeChar c) :=
  ⟨String.ofList [c], by rw [utf8_ofList, List.flatMap_singleton]⟩

/-- The encodings of two texts in a row are that of a text. -/
theorem IsUtf8.append (hfront : IsUtf8 bytes) (hback : IsUtf8 rest) : IsUtf8 (bytes ++ rest) := by
  obtain ⟨front, rfl⟩ := hfront
  obtain ⟨back, rfl⟩ := hback
  refine ⟨front ++ back, ?_⟩
  rw [utf8_eq_flatMap, String.toList_append, List.flatMap_append, ← utf8_eq_flatMap,
    ← utf8_eq_flatMap]

/-- The encodings of any number of texts in a row are that of a text. -/
theorem isUtf8_flatMap {α : Type} {f : α → Bytes} {list : List α} (h : ∀ a ∈ list, IsUtf8 (f a)) :
    IsUtf8 (list.flatMap f) := by
  induction list with
  | nil => exact isUtf8_of_all rfl
  | cons a list ih =>
    obtain ⟨ha, hlist⟩ := List.forall_mem_cons.1 h
    rw [List.flatMap_cons]
    exact ha.append (ih hlist)

end FirmwareTransparency.Text
