import FirmwareTransparency.Bytes.Lemmas
import FirmwareTransparency.Text

/-!
# ASCII as text

A text's UTF-8 is the encodings of its characters one after the other, and an ASCII byte encodes the
character that it numbers. So bytes of ASCII and texts of ASCII characters are the same thing. Main
statement: `utf8_ofAscii`.
-/

set_option autoImplicit false

namespace FirmwareTransparency.Text

/-- The encoding of a text is that of its characters, one after the other. -/
theorem utf8_ofList (chars : List Char) :
    utf8 (String.ofList chars) = chars.flatMap String.utf8EncodeChar := by
  simp [utf8, String.toByteArray_ofList, List.utf8Encode]

/-- A code point of ASCII is encoded as the one byte with its number. -/
theorem utf8EncodeChar_ofNat {code : Nat} (h : code < 128) :
    String.utf8EncodeChar (Char.ofNat code) = [UInt8.ofNat code] := by
  have hvalid : code.isValidChar := Or.inl (by omega)
  have hval : (Char.ofNat code).val.toNat = code := by
    simp [Char.ofNat, hvalid, Char.ofNatAux]
  have hsize : (Char.ofNat code).utf8Size = 1 := by
    rw [Char.utf8Size_eq_one_iff, UInt32.le_iff_toNat_le, hval]
    exact Nat.le_of_lt_succ h
  rw [String.utf8EncodeChar_eq_singleton hsize]
  simp only [List.cons.injEq, and_true]
  apply UInt8.toNat_inj.1
  rw [UInt32.toNat_toUInt8, hval, UInt8.toNat_ofNat']

/-- A text that was read from ASCII has these bytes as its encoding. -/
theorem utf8_ofAscii {bytes : Bytes} (h : ∀ byte ∈ bytes, byte < 0x80) :
    utf8 (ofAscii bytes) = bytes := by
  rw [ofAscii, utf8_ofList]
  induction bytes with
  | nil => rfl
  | cons byte bytes ih =>
    obtain ⟨hbyte, hbytes⟩ := List.forall_mem_cons.1 h
    have hlt : byte.toNat < 128 := UInt8.lt_iff_toNat_lt.1 hbyte
    rw [List.map_cons, List.flatMap_cons, utf8EncodeChar_ofNat hlt, ih hbytes, UInt8.ofNat_toNat]
    rfl

/-- A printable byte is ASCII. -/
theorem lt_of_isGraphic {byte : UInt8} (h : isGraphic byte = true) : byte < 0x80 := by
  simp only [isGraphic, Bool.and_eq_true, decide_eq_true_eq, UInt8.le_iff_toNat_le] at h
  rw [UInt8.lt_iff_toNat_lt]
  have hle : byte.toNat ≤ 126 := h.2
  change byte.toNat < 128
  omega

end FirmwareTransparency.Text
