import FirmwareTransparency.Bytes.Basic

/-!
# Text

Text is a `String`; on the wire and in files it is UTF-8. This module converts between the two,
reads printable ASCII, trims Unicode white space and lays out labelled lines.
Main statement: `ofUtf8?_eq_some_iff` says that a byte string is read as a text exactly if it is
what that text is written as.
-/

set_option autoImplicit false

namespace FirmwareTransparency.Text

/-- The UTF-8 bytes of a text. -/
def utf8 (text : String) : Bytes := text.toByteArray.data.toList

/-- The text whose UTF-8 bytes are given, if they are valid UTF-8. -/
def ofUtf8? (bytes : Bytes) : Option String := String.fromUTF8? ⟨bytes.toArray⟩

/-- The text with one character for every byte, the byte being its code point. -/
def ofAscii (bytes : Bytes) : String :=
  String.ofList (bytes.map fun byte => Char.ofNat byte.toNat)

/-- Bytes are read as a text exactly if they are its encoding. -/
theorem ofUtf8?_eq_some_iff {bytes : Bytes} {text : String} :
    ofUtf8? bytes = some text ↔ utf8 text = bytes := by
  unfold ofUtf8? String.fromUTF8? utf8
  constructor
  · intro h
    split at h
    · cases h; rfl
    · cases h
  · rintro rfl
    rw [dif_pos text.isValidUTF8]
    rfl

/-- A text is read back from its encoding. -/
@[simp] theorem ofUtf8?_utf8 (text : String) : ofUtf8? (utf8 text) = some text :=
  ofUtf8?_eq_some_iff.2 rfl

/-- Two texts with one encoding are the same. -/
theorem utf8_injective {a b : String} (h : utf8 a = utf8 b) : a = b :=
  Option.some.inj ((ofUtf8?_utf8 a).symm.trans (h ▸ ofUtf8?_utf8 b))

/-- A byte that prints as a visible ASCII character. -/
def isGraphic (byte : UInt8) : Bool := 0x21 ≤ byte && byte ≤ 0x7e

/-- Unicode white space. -/
def isWhiteSpace (c : Char) : Bool :=
  let code := c.toNat
  (0x9 ≤ code && code ≤ 0xd) || code == 0x20 || code == 0x85 || code == 0xa0 || code == 0x1680 ||
    (0x2000 ≤ code && code ≤ 0x200a) || code == 0x2028 || code == 0x2029 || code == 0x202f ||
    code == 0x205f || code == 0x3000

/-- A text without the white space at both its ends. -/
def trim (text : String) : String :=
  String.ofList (((text.toList.dropWhile isWhiteSpace).reverse.dropWhile isWhiteSpace).reverse)

/-- A label filled up with spaces to the width of its column, and a value after it. -/
def labelled (indent width : Nat) (label value : String) : String :=
  String.ofList (List.replicate indent (Char.ofNat 32)) ++ label ++
    String.ofList (List.replicate (width - label.length) (Char.ofNat 32)) ++ value

/-- Lines one below the other, each ended by a line feed. -/
def unlines (lines : List String) : String :=
  String.join (lines.map fun line => line ++ "\n")

end FirmwareTransparency.Text
