import FirmwareTransparency.Proofs.Json.Grammar
import FirmwareTransparency.Proofs.Json.Text
import FirmwareTransparency.Proofs.Text.Utf8

/-!
# Strings are read as they are spelled

Reading cuts a string's body into pieces and spells the pieces as UTF-8. An escape is a whole
character, and UTF-8 marks where characters begin, so raw bytes and escapes can only make up a text
if every character is either raw as a whole or an escape. Main statements: `pieces_eq_some_iff` for
a string whose text nobody asks for, and `text?_eq_some_iff`, which says that a string is read as a
text exactly if it spells it, whichever way each character is written.
-/

set_option autoImplicit false

namespace FirmwareTransparency.Json

variable {body bytes front more rest : Bytes} {list : List Piece} {c : Char} {chars : List Char}

/-! ## Cutting -/

/-- The short escapes that are read are those of the table. -/
theorem shortEscape?_eq_some_iff {kind value : UInt8} :
    shortEscape? kind = some value ↔ (kind, value) ∈ shortEscapes := by
  constructor
  · intro h
    unfold shortEscape? at h
    split_ifs at h with h1 h2 h3 h4 h5 h6 h7 h8 <;> cases h <;> subst kind <;> decide
  · intro h
    simp only [shortEscapes, List.mem_cons, Prod.mk.injEq, List.not_mem_nil, or_false] at h
    obtain ⟨rfl, rfl⟩ | ⟨rfl, rfl⟩ | ⟨rfl, rfl⟩ | ⟨rfl, rfl⟩ | ⟨rfl, rfl⟩ | ⟨rfl, rfl⟩ |
      ⟨rfl, rfl⟩ | ⟨rfl, rfl⟩ := h <;> rfl

/-- Short escapes stand for ASCII. -/
theorem lt_of_mem_shortEscapes {kind value : UInt8} (h : (kind, value) ∈ shortEscapes) :
    value < 0x80 := by
  simp only [shortEscapes, List.mem_cons, Prod.mk.injEq, List.not_mem_nil, or_false] at h
  obtain ⟨-, rfl⟩ | ⟨-, rfl⟩ | ⟨-, rfl⟩ | ⟨-, rfl⟩ | ⟨-, rfl⟩ | ⟨-, rfl⟩ | ⟨-, rfl⟩ | ⟨-, rfl⟩ :=
    h <;> decide

/-- A body that can be cut into pieces is cut into these, up to the closing quote. -/
theorem piecesFrom_of_cut (h : Cut body list) (done : List Piece) (rest : Bytes) :
    piecesFrom done (body ++ quote :: rest) = some (done.reverse ++ list, rest) := by
  induction h generalizing done with
  | nil => simpa using piecesFrom_quote done rest
  | plain hquote hbackslash hcontrol _ ih =>
    rw [List.cons_append, piecesFrom_plain done _ hquote hbackslash hcontrol, ih]
    simp
  | short hkind _ ih =>
    rw [List.cons_append, List.cons_append,
      piecesFrom_short done _ (shortEscape?_eq_some_iff.2 hkind), ih]
    simp
  | unit hunit _ ih =>
    simp only [List.cons_append]
    rw [piecesFrom_unit done _ hunit, ih]
    simp

/-- What was cut is a body that can be cut so, with the closing quote behind it. -/
theorem exists_cut_of_piecesFrom {done : List Piece}
    (h : piecesFrom done bytes = some (list, rest)) :
    ∃ body tail, Cut body tail ∧ list = done.reverse ++ tail ∧ bytes = body ++ quote :: rest := by
  fun_induction piecesFrom done bytes with
  | case1 => cases h
  | case2 done rest =>
    cases h
    exact ⟨[], [], .nil, by simp, rfl⟩
  | case3 => cases h
  | case4 done a b c d rest value hunit _ ih =>
    obtain ⟨body, tail, hcut, rfl, rfl⟩ := ih h
    exact ⟨_, _, .unit hunit hcut, by simp, rfl⟩
  | case5 => cases h
  | case6 => cases h
  | case7 done kind rest _ value hkind _ ih =>
    obtain ⟨body, tail, hcut, rfl, rfl⟩ := ih h
    exact ⟨_, _, .short (shortEscape?_eq_some_iff.1 hkind) hcut, by simp, rfl⟩
  | case8 => cases h
  | case9 => cases h
  | case10 done byte rest hquote hbackslash hcontrol ih =>
    obtain ⟨body, tail, hcut, rfl, rfl⟩ := ih h
    exact ⟨_, _, .plain hquote hbackslash hcontrol hcut, by simp, rfl⟩

/-- A string is cut into pieces up to the first quote that is no escape. -/
theorem pieces_eq_some_iff :
    pieces bytes = some (list, rest) ↔ ∃ body, Cut body list ∧ bytes = body ++ quote :: rest := by
  constructor
  · intro h
    obtain ⟨body, tail, hcut, rfl, rfl⟩ := exists_cut_of_piecesFrom h
    exact ⟨body, hcut, rfl⟩
  · rintro ⟨body, hcut, rfl⟩
    exact piecesFrom_of_cut hcut [] rest

/-! ## Spelling pieces -/

/-- Pieces spell bytes: surrogates stand in pairs. -/
inductive Spelt : List Piece → Bytes → Prop where
  | nil : Spelt [] []
  | byte {value : UInt8} {list : List Piece} {bytes : Bytes} (hrest : Spelt list bytes) :
      Spelt (.byte value :: list) (value :: bytes)
  | unit {value : Nat} {list : List Piece} {bytes : Bytes} (hlow : isLowSurrogate value = false)
      (hhigh : isHighSurrogate value = false) (hrest : Spelt list bytes) :
      Spelt (.unit value :: list) (utf8Of value ++ bytes)
  | pair {high low : Nat} {list : List Piece} {bytes : Bytes} (hhigh : isHighSurrogate high = true)
      (hlow : isLowSurrogate low = true) (hrest : Spelt list bytes) :
      Spelt (.unit high :: .unit low :: list) (utf8Of (pairValue high low) ++ bytes)

/-- No unit can both open and close a surrogate pair. -/
theorem isLowSurrogate_of_isHighSurrogate {value : Nat} (h : isHighSurrogate value = true) :
    isLowSurrogate value = false := by
  simp only [isHighSurrogate, isLowSurrogate, Bool.and_eq_true, decide_eq_true_eq,
    Bool.and_eq_false_iff, decide_eq_false_iff_not] at h ⊢
  omega

/-- Pieces that spell bytes are joined to these. -/
theorem spellFrom_of_spelt (h : Spelt list bytes) (done : Bytes) :
    spellFrom done list = some (done.reverse ++ bytes) := by
  induction h generalizing done with
  | nil => simp [spellFrom]
  | byte _ ih =>
    rw [spellFrom, ih]
    simp
  | unit hlow hhigh _ ih =>
    rw [spellFrom.eq_def]
    simp [hlow, hhigh, ih]
  | pair hhigh hlow _ ih =>
    rw [spellFrom.eq_def]
    simp [isLowSurrogate_of_isHighSurrogate hhigh, hhigh, hlow, ih]

/-- The bytes that pieces are joined to are those that they spell. -/
theorem exists_spelt_of_spellFrom {done spelt : Bytes} (h : spellFrom done list = some spelt) :
    ∃ bytes, Spelt list bytes ∧ spelt = done.reverse ++ bytes := by
  fun_induction spellFrom done list with
  | case1 done =>
    cases h
    exact ⟨[], .nil, by simp⟩
  | case2 done value list ih =>
    obtain ⟨bytes, hspelt, rfl⟩ := ih h
    exact ⟨_, .byte hspelt, by simp⟩
  | case3 => cases h
  | case4 done value _ hhigh low list hlow ih =>
    obtain ⟨bytes, hspelt, heq⟩ := ih h
    exact ⟨_, .pair hhigh hlow hspelt, by rw [heq]; simp⟩
  | case5 => cases h
  | case6 => cases h
  | case7 done value list hlow hhigh ih =>
    obtain ⟨bytes, hspelt, rfl⟩ := ih h
    exact ⟨_, .unit (by simpa using hlow) (by simpa using hhigh) hspelt, by simp⟩

/-! ## From characters to pieces -/

/-- Bytes that need no escape stand for themselves. -/
theorem cut_append (hfront : ∀ byte ∈ front, byte ≠ quote ∧ byte ≠ backslash ∧ ¬byte < 0x20)
    (hbody : Cut body list) : Cut (front ++ body) (front.map .byte ++ list) := by
  induction front with
  | nil => exact hbody
  | cons byte front ih =>
    obtain ⟨⟨hquote, hbackslash, hcontrol⟩, hfront⟩ := List.forall_mem_cons.1 hfront
    exact .plain hquote hbackslash hcontrol (ih hfront)

/-- Pieces that are bytes spell these in front of the others. -/
theorem spelt_append (front : Bytes) (hrest : Spelt list bytes) :
    Spelt (front.map .byte ++ list) (front ++ bytes) := by
  induction front with
  | nil => exact hrest
  | cons byte front ih => exact .byte ih

/-- No byte of a character needs an escape unless the character does. -/
theorem plain_of_raw (hquote : c.toNat ≠ 0x22) (hbackslash : c.toNat ≠ 0x5c)
    (hcontrol : 0x20 ≤ c.toNat) :
    ∀ byte ∈ String.utf8EncodeChar c, byte ≠ quote ∧ byte ≠ backslash ∧ ¬byte < 0x20 := by
  intro byte hbyte
  by_cases hascii : c.toNat < 128
  · rw [Text.utf8EncodeChar_of_lt hascii, List.mem_singleton] at hbyte
    have hcode : byte.toNat = c.toNat := by
      rw [hbyte, UInt8.toNat_ofNat']
      omega
    refine ⟨?_, ?_, ?_⟩
    · rintro rfl
      exact hquote hcode.symm
    · rintro rfl
      exact hbackslash hcode.symm
    · rw [UInt8.lt_iff_toNat_lt, hcode]
      exact Nat.not_lt.2 hcontrol
  · have hhigh := Text.le_of_mem_utf8EncodeChar (Nat.le_of_not_lt hascii) byte hbyte
    refine ⟨?_, ?_, ?_⟩
    · rintro rfl
      exact absurd hhigh (by decide)
    · rintro rfl
      exact absurd hhigh (by decide)
    · exact UInt8.not_lt.2 (UInt8.le_trans (by decide) hhigh)

/-- A body that spells a text can be cut into pieces that spell its bytes. -/
theorem exists_cut_of_spells (h : Spells chars body) :
    ∃ list, Cut body list ∧ Spelt list (chars.flatMap String.utf8EncodeChar) := by
  induction h with
  | nil => exact ⟨[], .nil, .nil⟩
  | @cons c chars front body hchar _ ih =>
    obtain ⟨list, hcut, hspelt⟩ := ih
    rw [List.flatMap_cons]
    cases hchar with
    | raw hquote hbackslash hcontrol =>
      exact ⟨_, cut_append (plain_of_raw hquote hbackslash hcontrol) hcut, spelt_append _ hspelt⟩
    | short hkind =>
      have hlt := UInt8.lt_iff_toNat_lt.1 (lt_of_mem_shortEscapes hkind)
      rw [Text.utf8EncodeChar_ofNat hlt, UInt8.ofNat_toNat]
      exact ⟨_, .short hkind hcut, .byte hspelt⟩
    | unit hunit hlow hhigh => exact ⟨_, .unit hunit hcut, .unit hlow hhigh hspelt⟩
    | pair hfirst hsecond hhigh hlow =>
      exact ⟨_, .unit hfirst (.unit hsecond hcut), .pair hhigh hlow hspelt⟩

/-- What spells a text is the body of a string. -/
theorem Spells.isBody (h : Spells chars body) : IsBody body := by
  obtain ⟨list, hcut, -⟩ := exists_cut_of_spells h
  exact ⟨list, hcut⟩

/-! ## From pieces to characters -/

/-- The bytes of a code point begin with the first byte of a character. -/
theorem exists_utf8Of_append (code : Nat) (bytes : Bytes) :
    ∃ first rest, utf8Of code ++ bytes = first :: rest ∧ first.IsUTF8FirstByte := by
  obtain ⟨first, more, hchar, hfirst, -⟩ := Text.exists_utf8EncodeChar (Char.ofNat code)
  exact ⟨first, more ++ bytes, by rw [utf8Of, hchar, List.cons_append], hfirst⟩

/-- Only raw bytes go on with a character that has begun. -/
theorem exists_of_spelt_append (hcut : Cut body list) (hspelt : Spelt list (more ++ bytes))
    (hmore : ∀ byte ∈ more, ¬byte.IsUTF8FirstByte) :
    ∃ rest tail, body = more ++ rest ∧ Cut rest tail ∧ Spelt tail bytes := by
  induction more generalizing body list with
  | nil => exact ⟨body, list, rfl, hcut, hspelt⟩
  | cons byte more ih =>
    obtain ⟨hbyte, hmore⟩ := List.forall_mem_cons.1 hmore
    generalize hout : byte :: more ++ bytes = out at hspelt
    -- An escape spells a whole character, so it cannot leave a byte that begins none.
    cases hspelt with
    | nil => cases hout
    | byte hrest =>
      cases hout
      cases hcut with
      | plain hquote hbackslash hcontrol hbody =>
        obtain ⟨rest, tail, rfl, hcut, hspelt⟩ := ih hbody hrest hmore
        exact ⟨rest, tail, rfl, hcut, hspelt⟩
      | short hkind hbody =>
        exact absurd (Text.isUTF8FirstByte_of_lt (lt_of_mem_shortEscapes hkind)) hbyte
    | @unit value _ spelt hlow hhigh hrest =>
      obtain ⟨first, rest, hchar, hfirst⟩ := exists_utf8Of_append value spelt
      rw [hchar] at hout
      cases hout
      exact absurd hfirst hbyte
    | @pair high low _ spelt hhigh hlow hrest =>
      obtain ⟨first, rest, hchar, hfirst⟩ := exists_utf8Of_append (pairValue high low) spelt
      rw [hchar] at hout
      cases hout
      exact absurd hfirst hbyte

/-- A character whose first byte needs no escape needs none itself. -/
theorem spellsChar_raw {first : UInt8} (hchar : String.utf8EncodeChar c = first :: more)
    (hquote : first ≠ quote) (hbackslash : first ≠ backslash) (hcontrol : ¬first < 0x20) :
    SpellsChar c (first :: more) := by
  have hascii : c.toNat < 128 → first = UInt8.ofNat c.toNat := by
    intro hlt
    rw [Text.utf8EncodeChar_of_lt hlt] at hchar
    cases hchar
    rfl
  rw [← hchar]
  refine .raw ?_ ?_ ?_
  · intro hcode
    exact hquote (by rw [hascii (by omega), hcode]; rfl)
  · intro hcode
    exact hbackslash (by rw [hascii (by omega), hcode]; rfl)
  · by_contra hlow
    have hlt : c.toNat < 32 := Nat.lt_of_not_le hlow
    apply hcontrol
    rw [hascii (by omega), UInt8.lt_iff_toNat_lt, UInt8.toNat_ofNat', Nat.mod_eq_of_lt (by omega)]
    exact hlt

/-- Only no pieces spell no bytes, since every piece spells at least one. -/
theorem spelt_nil (h : Spelt list []) : list = [] := by
  generalize hout : ([] : Bytes) = out at h
  cases h with
  | nil => rfl
  | byte hrest => cases hout
  | @unit value _ spelt =>
    obtain ⟨first, rest, hchar, -⟩ := exists_utf8Of_append value spelt
    rw [hchar] at hout
    cases hout
  | @pair high low _ spelt =>
    obtain ⟨first, rest, hchar, -⟩ := exists_utf8Of_append (pairValue high low) spelt
    rw [hchar] at hout
    cases hout

/-- Only an empty body is cut into no pieces. -/
theorem cut_nil (h : Cut body []) : body = [] := by
  cases h
  rfl

/-- A body that is cut into pieces which spell the bytes of a text spells the text, character by
character. -/
theorem spells_of_spelt (hcut : Cut body list)
    (hspelt : Spelt list (chars.flatMap String.utf8EncodeChar)) : Spells chars body := by
  -- A raw character takes several pieces at once, so the induction is on the length of the body.
  induction hlength : body.length using Nat.strongRecOn generalizing body list chars with
  | ind length ih =>
    subst hlength
    cases chars with
    | nil =>
      obtain rfl := spelt_nil hspelt
      obtain rfl := cut_nil hcut
      exact .nil
    | cons c chars =>
      rw [List.flatMap_cons] at hspelt
      generalize hout : String.utf8EncodeChar c ++ chars.flatMap String.utf8EncodeChar = out
        at hspelt
      obtain ⟨first, more, hchar, -, hmore⟩ := Text.exists_utf8EncodeChar c
      cases hspelt with
      | nil =>
        rw [hchar] at hout
        cases hout
      | @byte value _ _ hrest =>
        cases hcut with
        | plain hquote hbackslash hcontrol hbody =>
          rw [hchar, List.cons_append] at hout
          cases hout
          obtain ⟨rest, tail, rfl, hcut, hspelt⟩ := exists_of_spelt_append hbody hrest hmore
          have hshort : rest.length < (first :: (more ++ rest)).length := by
            rw [List.length_cons, List.length_append]
            omega
          exact .cons (spellsChar_raw hchar hquote hbackslash hcontrol)
            (ih _ hshort hcut hspelt rfl)
        | @short kind _ body _ hkind hbody =>
          have hlt := UInt8.lt_iff_toNat_lt.1 (lt_of_mem_shortEscapes hkind)
          have hvalue : String.utf8EncodeChar (Char.ofNat value.toNat) = [value] := by
            rw [Text.utf8EncodeChar_ofNat hlt, UInt8.ofNat_toNat]
          rw [← List.singleton_append, ← hvalue] at hout
          obtain ⟨rfl, rfl⟩ := Text.utf8EncodeChar_append_inj hout
          have hshort : body.length < (backslash :: kind :: body).length := by
            simp only [List.length_cons]
            omega
          exact .cons (.short hkind) (ih _ hshort hbody hrest rfl)
      | unit hlow hhigh hrest =>
        cases hcut with
        | @unit a b c d _ body _ hunit hbody =>
          obtain ⟨rfl, rfl⟩ := Text.utf8EncodeChar_append_inj hout
          have hshort : body.length < (backslash :: 0x75 :: a :: b :: c :: d :: body).length := by
            simp only [List.length_cons]
            omega
          exact .cons (.unit hunit hlow hhigh) (ih _ hshort hbody hrest rfl)
      | pair hhigh hlow hrest =>
        cases hcut with
        | @unit a b c d _ body _ hfirst hbody =>
          cases hbody with
          | @unit e f g h _ body _ hsecond hbody =>
            obtain ⟨hc, hchars⟩ := Text.utf8EncodeChar_append_inj hout
            rw [← hchars] at hrest
            rw [hc]
            have hshort : body.length <
                (backslash :: 0x75 :: a :: b :: c :: d ::
                  backslash :: 0x75 :: e :: f :: g :: h :: body).length := by
              simp only [List.length_cons]
              omega
            exact .cons (.pair hfirst hsecond hhigh hlow) (ih _ hshort hbody hrest rfl)

/-! ## Reading -/

/-- A text is read up to the closing quote exactly from the bodies that spell it. -/
theorem text?_eq_some_iff {text : String} :
    text? bytes = some (text, rest) ↔
      ∃ body, Spells text.toList body ∧ bytes = body ++ quote :: rest := by
  simp only [text?, textOf?, Option.bind_eq_bind, Option.bind_eq_some_iff]
  constructor
  · rintro ⟨⟨list, rest⟩, hpieces, text, ⟨spelt, hspell, htext⟩, heq⟩
    cases heq
    obtain ⟨body, hcut, rfl⟩ := pieces_eq_some_iff.1 hpieces
    obtain ⟨bytes, hspelt, rfl⟩ := exists_spelt_of_spellFrom hspell
    obtain rfl := Text.ofUtf8?_eq_some_iff.1 htext
    rw [Text.utf8_eq_flatMap] at hspelt
    exact ⟨body, spells_of_spelt hcut hspelt, rfl⟩
  · rintro ⟨body, hspells, rfl⟩
    obtain ⟨list, hcut, hspelt⟩ := exists_cut_of_spells hspells
    rw [← Text.utf8_eq_flatMap] at hspelt
    exact ⟨(list, rest), pieces_eq_some_iff.2 ⟨body, hcut, rfl⟩, text,
      ⟨Text.utf8 text, spellFrom_of_spelt hspelt [], Text.ofUtf8?_utf8 text⟩, rfl⟩

/-- Two bodies in a row spell two texts in a row. -/
theorem Spells.append {more : List Char} (hfront : Spells chars front) (hbody : Spells more body) :
    Spells (chars ++ more) (front ++ body) := by
  induction hfront with
  | nil => exact hbody
  | cons hchar _ ih =>
    rw [List.append_assoc]
    exact .cons hchar ih

/-- The written form of a text is one way to spell it. -/
theorem writesText_writeText (text : String) : WritesText text (writeText text) := by
  obtain ⟨body, hspells, heq⟩ := text?_eq_some_iff.1 (text?_escape text [])
  obtain rfl := List.append_cancel_right heq
  exact ⟨_, hspells, rfl⟩

end FirmwareTransparency.Json
