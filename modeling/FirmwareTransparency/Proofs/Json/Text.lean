import FirmwareTransparency.Json.Decode
import FirmwareTransparency.Proofs.Base64

/-!
# JSON strings are read back

Escaping works byte by byte, and so does cutting a body into pieces: every escaped byte becomes one
piece, and the pieces spell the bytes again. Main statements: `text?_escape` says that a text is
read back from its escaped form up to the closing quote, and `text_decodes` and `memberName_decodes`
that it is read back wherever a string may stand.
-/

set_option autoImplicit false

namespace FirmwareTransparency.Json

/-! ## Cutting and spelling -/

/-- The piece that an escaped byte is cut into. -/
def pieceOf (byte : UInt8) : Piece :=
  if byte < 0x20 ∧ byte ∉ [0x08, 0x09, 0x0a, 0x0c, 0x0d] then .unit byte.toNat else .byte byte

/-- A control byte is escaped by four hexadecimal digits that spell its number. -/
theorem toHex_spells (byte : UInt8) (h : byte < 0x20) :
    ∃ c d, Text.utf8 (Bytes.toHex [byte]) = [c, d] ∧ unitOf? 0x30 0x30 c d = some byte.toNat := by
  have hdigit : ∀ value < 16, (Bytes.hexDigit value).toNat < 128 := by decide
  have hspells : ∀ value < 32,
      unitOf? 0x30 0x30 (UInt8.ofNat (Bytes.hexDigit (value / 16)).toNat)
        (UInt8.ofNat (Bytes.hexDigit (value % 16)).toNat) = some value := by
    decide
  have hencode : ∀ value < 16,
      String.utf8EncodeChar (Bytes.hexDigit value) =
        [UInt8.ofNat (Bytes.hexDigit value).toNat] := by
    intro value hvalue
    rw [← Text.utf8EncodeChar_ofNat (hdigit value hvalue), Char.ofNat_toNat]
  have hlt : byte.toNat < 32 := UInt8.lt_iff_toNat_lt.1 h
  refine ⟨_, _, ?_, hspells byte.toNat hlt⟩
  rw [Bytes.toHex, Text.utf8_ofList]
  simp [hencode (byte.toNat / 16) (by omega), hencode (byte.toNat % 16) (by omega)]

/-- Cutting ends at a quote. -/
theorem piecesFrom_quote (done : List Piece) (rest : Bytes) :
    piecesFrom done (quote :: rest) = some (done.reverse, rest) := by
  rw [piecesFrom.eq_def]
  simp

/-- A short escape is one piece, the byte that it stands for. -/
theorem piecesFrom_short (done : List Piece) {kind value : UInt8} (rest : Bytes)
    (h : shortEscape? kind = some value) :
    piecesFrom done (backslash :: kind :: rest) = piecesFrom (.byte value :: done) rest := by
  have hkind : kind ≠ 0x75 := by
    rintro rfl
    cases h
  rw [piecesFrom.eq_def]
  simp [hkind, h, quote, backslash]

/-- Four hexadecimal digits behind their escape are one piece, the unit that they spell. -/
theorem piecesFrom_unit (done : List Piece) {a b c d : UInt8} {value : Nat} (rest : Bytes)
    (h : unitOf? a b c d = some value) :
    piecesFrom done (backslash :: 0x75 :: a :: b :: c :: d :: rest) =
      piecesFrom (.unit value :: done) rest := by
  rw [piecesFrom.eq_def]
  simp [h, quote, backslash]

/-- A byte that needs no escape is a piece itself. -/
theorem piecesFrom_plain (done : List Piece) {byte : UInt8} (rest : Bytes) (hquote : byte ≠ quote)
    (hbackslash : byte ≠ backslash) (hcontrol : ¬byte < 0x20) :
    piecesFrom done (byte :: rest) = piecesFrom (.byte byte :: done) rest := by
  rw [piecesFrom.eq_def]
  simp [hquote, hbackslash, hcontrol]

/-- Every byte becomes one piece as it is written, escaped or not. -/
theorem piecesFrom_escape (done : List Piece) (byte : UInt8) (rest : Bytes) :
    piecesFrom done (escape byte ++ rest) = piecesFrom (pieceOf byte :: done) rest := by
  -- Seven bytes have a short escape, the other control bytes a long one, and the rest none.
  by_cases hshort : byte ∈ [quote, backslash, 0x08, 0x09, 0x0a, 0x0c, 0x0d]
  · simp only [List.mem_cons, List.not_mem_nil, or_false] at hshort
    obtain rfl | rfl | rfl | rfl | rfl | rfl | rfl := hshort <;>
      exact piecesFrom_short done rest rfl
  · simp only [List.mem_cons, List.not_mem_nil, or_false, not_or] at hshort
    obtain ⟨hquote, hbackslash, h8, h9, ha, hc, hd⟩ := hshort
    simp only [escape, if_neg hquote, if_neg hbackslash, if_neg h8, if_neg h9, if_neg ha,
      if_neg hc, if_neg hd]
    by_cases hcontrol : byte < 0x20
    · obtain ⟨c, d, hhex, hunit⟩ := toHex_spells byte hcontrol
      have hpiece : pieceOf byte = .unit byte.toNat := by
        simp [pieceOf, hcontrol, h8, h9, ha, hc, hd]
      rw [if_pos hcontrol, hhex, hpiece]
      exact piecesFrom_unit done rest hunit
    · have hpiece : pieceOf byte = .byte byte := by
        simp [pieceOf, hcontrol]
      rw [if_neg hcontrol, hpiece]
      exact piecesFrom_plain done rest hquote hbackslash hcontrol

/-- Escaped bytes are cut into one piece each, up to the closing quote. -/
theorem piecesFrom_flatMap_escape (done : List Piece) (bytes rest : Bytes) :
    piecesFrom done (bytes.flatMap escape ++ quote :: rest) =
      some (done.reverse ++ bytes.map pieceOf, rest) := by
  induction bytes generalizing done with
  | nil => simpa using piecesFrom_quote done rest
  | cons byte bytes ih =>
    rw [List.flatMap_cons, List.append_assoc, piecesFrom_escape, ih]
    simp

/-- The pieces of escaped bytes spell the bytes again. -/
theorem spellFrom_pieceOf (done bytes : Bytes) :
    spellFrom done (bytes.map pieceOf) = some (done.reverse ++ bytes) := by
  induction bytes generalizing done with
  | nil => simp [spellFrom]
  | cons byte bytes ih =>
    rw [List.map_cons]
    by_cases h : byte < 0x20 ∧ byte ∉ [0x08, 0x09, 0x0a, 0x0c, 0x0d]
    · have hlt : byte.toNat < 32 := UInt8.lt_iff_toNat_lt.1 h.1
      have hlow : isLowSurrogate byte.toNat = false := by
        simp only [isLowSurrogate, Bool.and_eq_false_iff, decide_eq_false_iff_not]
        omega
      have hhigh : isHighSurrogate byte.toNat = false := by
        simp only [isHighSurrogate, Bool.and_eq_false_iff, decide_eq_false_iff_not]
        omega
      have hutf8 : utf8Of byte.toNat = [byte] := by
        rw [utf8Of, Text.utf8EncodeChar_ofNat (by omega), UInt8.ofNat_toNat]
      rw [pieceOf, if_pos h, spellFrom.eq_def]
      simp [hlow, hhigh, hutf8, ih]
    · rw [pieceOf, if_neg h, spellFrom.eq_def]
      simp [ih]

/-- A text is read back from its escaped form. -/
theorem text?_escape (text : String) (rest : Bytes) :
    text? ((Text.utf8 text).flatMap escape ++ quote :: rest) = some (text, rest) := by
  unfold text? pieces
  rw [piecesFrom_flatMap_escape]
  show (textOf? _ >>= fun text => some (text, rest)) = _
  unfold textOf?
  rw [List.reverse_nil, List.nil_append, spellFrom_pieceOf]
  show (Text.ofUtf8? (Text.utf8 text) >>= fun text => some (text, rest)) = _
  rw [Text.ofUtf8?_utf8]
  rfl

/-- Base64 needs no escape. -/
theorem writeText_textOf (bytes : Bytes) :
    writeText (Base64.textOf bytes) = quote :: Base64.encode bytes ++ [quote] := by
  have hplain : ∀ byte ∈ Base64.encode bytes, escape byte = [byte] :=
    Base64.forall_mem_encode (by decide) (by decide) bytes
  rw [writeText, Base64.utf8_textOf, List.flatMap_congr hplain, List.flatMap_singleton']

/-! ## Decoders -/

/-- A decoder reads a value from the given bytes and stops behind them. -/
def Decodes {α : Type} (value : Decoder α) (bytes : Bytes) (a : α) : Prop :=
  ∀ rest, value (bytes ++ rest) = .ok (a, rest)

/-- A text is read back where a string may stand. -/
theorem text_decodes (name : String) : Decodes text (writeText name) name := by
  intro rest
  show wellFormed (text? ((Text.utf8 name).flatMap escape ++ [quote] ++ rest)) = _
  rw [List.append_assoc, List.singleton_append, text?_escape]
  rfl

/-- A name is read back where the name of a member may stand. -/
theorem memberName_decodes (name : String) : Decodes memberName (writeText name) name :=
  text_decodes name

/-- A text is not null. -/
theorem optional_text_decodes (name : String) :
    Decodes (optional text) (writeText name) (some name) := by
  intro rest
  show (text (writeText name ++ rest) >>= fun result => .ok (some result.1, result.2)) = _
  rw [text_decodes name rest]
  rfl

end FirmwareTransparency.Json
