import FirmwareTransparency.Json.Skip

/-!
# The grammar of JSON

How values are written, apart from how they are read: white space between any two tokens, numbers by
their four parts, characters raw or by an escape, and items with commas between them. A value that
nobody asks for need not have a text in its strings, so `IsValue` asks only that their bodies can be
cut into pieces; `Spells` says which text a body spells, whichever way each character is written.
That the readers accept these forms and no others is left to the modules on each of them; the lemmas
here are on white space, which may stand in front of every token.
-/

set_option autoImplicit false

namespace FirmwareTransparency.Json

/-! ## White space -/

/-- White space, or nothing. -/
def IsBlank (bytes : Bytes) : Prop := ∀ byte ∈ bytes, isSpace byte = true

/-- White space around a document. -/
def Padded (written : Bytes → Prop) (bytes : Bytes) : Prop :=
  ∃ front core back, IsBlank front ∧ written core ∧ IsBlank back ∧ bytes = front ++ core ++ back

/-! ## Numbers -/

/-- One decimal digit or more. -/
def IsDigits (bytes : Bytes) : Prop := bytes ≠ [] ∧ ∀ byte ∈ bytes, isDigit byte = true

/-- A zero, or digits that do not begin with one. -/
def IsWhole (bytes : Bytes) : Prop := bytes = [0x30] ∨ IsDigits bytes ∧ bytes.head? ≠ some 0x30

/-- A point and digits, or nothing. -/
def IsFraction (bytes : Bytes) : Prop :=
  bytes = [] ∨ ∃ digits, IsDigits digits ∧ bytes = 0x2e :: digits

/-- The letter E in either case, a sign that can be left out, and digits, or nothing. -/
def IsExponent (bytes : Bytes) : Prop :=
  bytes = [] ∨ ∃ mark sign digits, (mark = 0x65 ∨ mark = 0x45) ∧ sign ∈ [[], [0x2b], [0x2d]] ∧
    IsDigits digits ∧ bytes = mark :: sign ++ digits

/-- A number, with or without a minus sign. -/
def IsNumber (bytes : Bytes) : Prop :=
  ∃ sign whole fraction exponent, sign ∈ [[], [0x2d]] ∧ IsWhole whole ∧ IsFraction fraction ∧
    IsExponent exponent ∧ bytes = sign ++ whole ++ fraction ++ exponent

/-! ## Strings -/

/-- What may follow a backslash besides a unit, and the byte that it stands for: the quote, the
backslash and the slash for themselves, and a letter for each of five control bytes. -/
def shortEscapes : List (UInt8 × UInt8) :=
  [(0x22, 0x22), (0x5c, 0x5c), (0x2f, 0x2f), (0x62, 0x08), (0x66, 0x0c), (0x6e, 0x0a), (0x72, 0x0d),
    (0x74, 0x09)]

/-- What stands between the quotes of a string, cut into pieces: bytes that stand for themselves,
short escapes, and units of four hexadecimal digits. -/
inductive Cut : Bytes → List Piece → Prop where
  | nil : Cut [] []
  | plain {byte : UInt8} {body : Bytes} {pieces : List Piece} (hquote : byte ≠ quote)
      (hbackslash : byte ≠ backslash) (hcontrol : ¬byte < 0x20) (hbody : Cut body pieces) :
      Cut (byte :: body) (.byte byte :: pieces)
  | short {kind value : UInt8} {body : Bytes} {pieces : List Piece}
      (hkind : (kind, value) ∈ shortEscapes) (hbody : Cut body pieces) :
      Cut (backslash :: kind :: body) (.byte value :: pieces)
  | unit {a b c d : UInt8} {value : Nat} {body : Bytes} {pieces : List Piece}
      (hunit : unitOf? a b c d = some value) (hbody : Cut body pieces) :
      Cut (backslash :: 0x75 :: a :: b :: c :: d :: body) (.unit value :: pieces)

/-- The body of a string, whether or not it spells a text. -/
def IsBody (body : Bytes) : Prop := ∃ pieces, Cut body pieces

/-- The ways to write a character: raw where it needs no escape, by a short escape, by a unit, or by
a pair of surrogate units. -/
inductive SpellsChar : Char → Bytes → Prop where
  | raw {c : Char} (hquote : c.toNat ≠ 0x22) (hbackslash : c.toNat ≠ 0x5c)
      (hcontrol : 0x20 ≤ c.toNat) : SpellsChar c (String.utf8EncodeChar c)
  | short {kind value : UInt8} (hkind : (kind, value) ∈ shortEscapes) :
      SpellsChar (Char.ofNat value.toNat) [backslash, kind]
  | unit {a b c d : UInt8} {value : Nat} (hunit : unitOf? a b c d = some value)
      (hlow : isLowSurrogate value = false) (hhigh : isHighSurrogate value = false) :
      SpellsChar (Char.ofNat value) [backslash, 0x75, a, b, c, d]
  | pair {a b c d e f g h : UInt8} {high low : Nat} (hfirst : unitOf? a b c d = some high)
      (hsecond : unitOf? e f g h = some low) (hhigh : isHighSurrogate high = true)
      (hlow : isLowSurrogate low = true) :
      SpellsChar (Char.ofNat (pairValue high low))
        [backslash, 0x75, a, b, c, d, backslash, 0x75, e, f, g, h]

/-- A body that spells a text, character by character. -/
inductive Spells : List Char → Bytes → Prop where
  | nil : Spells [] []
  | cons {c : Char} {chars : List Char} {front body : Bytes} (hchar : SpellsChar c front)
      (hbody : Spells chars body) : Spells (c :: chars) (front ++ body)

/-- A string with the given text. -/
def WritesText (text : String) (bytes : Bytes) : Prop :=
  ∃ body, Spells text.toList body ∧ bytes = quote :: body ++ [quote]

/-! ## Arrays and objects -/

/-- What stands in front of an item: white space, and in front of all but the first a comma. -/
inductive Separator : Bool → Bytes → Prop where
  | first {blank : Bytes} (h : IsBlank blank) : Separator true blank
  | comma {front back : Bytes} (hfront : IsBlank front) (hback : IsBlank back) :
      Separator false (front ++ comma :: back)

/-- Items up to the closing byte, from the first on or from behind another one. -/
inductive Items {α : Type} (writes : α → Bytes → Prop) (close : UInt8) :
    Bool → List α → Bytes → Prop where
  | done {isFirst : Bool} {blank : Bytes} (h : IsBlank blank) :
      Items writes close isFirst [] (blank ++ [close])
  | next {isFirst : Bool} {separator written rest : Bytes} {a : α} {list : List α}
      (hseparator : Separator isFirst separator) (hitem : writes a written)
      (hrest : Items writes close false list rest) :
      Items writes close isFirst (a :: list) (separator ++ written ++ rest)

/-- A member of an object: the body of its name, and its value. -/
structure Member where
  name : Bytes
  value : Bytes
  deriving DecidableEq

/-- A member's name and value with a colon between them. -/
def Member.Writes (member : Member) (bytes : Bytes) : Prop :=
  ∃ front back, IsBlank front ∧ IsBlank back ∧
    bytes = quote :: member.name ++ quote :: front ++ colon :: back ++ member.value

/-- An array of the given elements. -/
def IsArray (elements : List Bytes) (bytes : Bytes) : Prop :=
  ∃ inside, Items Eq closeBracket true elements inside ∧ bytes = openBracket :: inside

/-- An object of the given members. -/
def IsObject (members : List Member) (bytes : Bytes) : Prop :=
  ∃ inside, Items Member.Writes closeBrace true members inside ∧ bytes = openBrace :: inside

/-- A value of any kind. -/
inductive IsValue : Bytes → Prop where
  | word {word : Bytes} (h : word ∈ [nullWord, trueWord, falseWord]) : IsValue word
  | number {bytes : Bytes} (h : IsNumber bytes) : IsValue bytes
  | string {body : Bytes} (h : IsBody body) : IsValue (quote :: body ++ [quote])
  | array {elements : List Bytes} {bytes : Bytes} (harray : IsArray elements bytes)
      (helements : ∀ element ∈ elements, IsValue element) : IsValue bytes
  | object {members : List Member} {bytes : Bytes} (hobject : IsObject members bytes)
      (hnames : ∀ member ∈ members, IsBody member.name)
      (hvalues : ∀ member ∈ members, IsValue member.value) : IsValue bytes

/-- A member whose name and value obey the grammar. -/
def Member.WellFormed (member : Member) : Prop := IsBody member.name ∧ IsValue member.value

/-- An object is a value if its members obey the grammar. -/
theorem IsObject.isValue {members : List Member} {bytes : Bytes} (hobject : IsObject members bytes)
    (hmembers : ∀ member ∈ members, member.WellFormed) : IsValue bytes :=
  .object hobject (fun member hmember => (hmembers member hmember).1)
    fun member hmember => (hmembers member hmember).2

/-! ## Skipping white space -/

section skipSpace

variable {blank front back bytes rest : Bytes} {byte : UInt8}

/-- Nothing is white space as well. -/
theorem isBlank_nil : IsBlank [] := List.forall_mem_nil _

/-- White space may come in two parts. -/
theorem IsBlank.append (hfront : IsBlank front) (hback : IsBlank back) : IsBlank (front ++ back) :=
  List.forall_mem_append.2 ⟨hfront, hback⟩

/-- White space in front is skipped, whatever follows it. -/
theorem skipSpace_append (hblank : IsBlank blank) (bytes : Bytes) :
    skipSpace (blank ++ bytes) = skipSpace bytes :=
  List.dropWhile_append_of_pos hblank

/-- No white space is skipped in front of a byte that is none. -/
theorem skipSpace_cons (hbyte : isSpace byte = false) (rest : Bytes) :
    skipSpace (byte :: rest) = byte :: rest :=
  List.dropWhile_cons_of_neg (by simp [hbyte])

/-- Behind white space a token is found. -/
theorem skipSpace_token (hblank : IsBlank blank) (hbyte : isSpace byte = false) (rest : Bytes) :
    skipSpace (blank ++ byte :: rest) = byte :: rest := by
  rw [skipSpace_append hblank, skipSpace_cons hbyte]

/-- What is skipped is white space in front of what is left. -/
theorem exists_blank (bytes : Bytes) : ∃ blank, IsBlank blank ∧ bytes = blank ++ skipSpace bytes :=
  ⟨bytes.takeWhile isSpace, List.all_eq_true.1 List.all_takeWhile,
    List.takeWhile_append_dropWhile.symm⟩

/-- The byte that is found has only white space in front of it. -/
theorem exists_blank_of_skipSpace (h : skipSpace bytes = byte :: rest) :
    ∃ blank, IsBlank blank ∧ bytes = blank ++ byte :: rest := by
  obtain ⟨blank, hblank, hbytes⟩ := exists_blank bytes
  exact ⟨blank, hblank, h ▸ hbytes⟩

end skipSpace

end FirmwareTransparency.Json
