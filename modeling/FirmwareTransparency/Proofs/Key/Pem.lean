import FirmwareTransparency.Key.Pem
import FirmwareTransparency.Proofs.Base64
import FirmwareTransparency.Proofs.Search

/-!
# Blocks are read back

A block is written as its bytes in base64, in lines of full width, between the two lines that name
its label. Both readers give the bytes back, however the lines end: the strict one takes the lines
off one after the other, the lenient one filters the line ends out. Base64 has neither dashes nor
spaces, so the marks of a block stand nowhere in it. Main statements: `strict?_write` and
`lenient?_write`.
-/

set_option autoImplicit false

namespace FirmwareTransparency

namespace Pem

/-! ## The written form -/

/-- How a line ends. -/
inductive LineEnd where
  | lf
  | crlf
  | cr

/-- The characters at the end of a line. -/
def LineEnd.bytes : LineEnd → Bytes
  | lf => [0x0a]
  | crlf => [0x0d, 0x0a]
  | cr => [0x0d]

/-- The characters at the end of a last line, which may have none. -/
def closingBytes : Option LineEnd → Bytes
  | some lineEnd => lineEnd.bytes
  | none => []

/-- Fills lines, the first of which has room for so many characters. A line ends only where another
character follows. -/
def wrapFrom (lineEnd : LineEnd) : (room : Nat) → Bytes → Bytes
  | _, [] => []
  | room + 1, byte :: rest => byte :: wrapFrom lineEnd room rest
  | 0, byte :: rest => lineEnd.bytes ++ byte :: wrapFrom lineEnd (lineWidth - 1) rest

/-- A text in lines of full width. -/
def wrap (lineEnd : LineEnd) (text : Bytes) : Bytes := wrapFrom lineEnd lineWidth text

/-- The line that begins a block. -/
def beginLine (label : Bytes) : Bytes := beginMark ++ label ++ dashes

/-- The line that ends a block. -/
def endLine (label : Bytes) : Bytes := endMark ++ label ++ dashes

/-- What stands between the two lines: bytes in base64, with a line end on either side. -/
def between (lineEnd : LineEnd) (bytes : Bytes) : Bytes :=
  lineEnd.bytes ++ wrap lineEnd (Base64.encode bytes) ++ lineEnd.bytes

/-- Writes bytes as a block. -/
def write (lineEnd : LineEnd) (closing : Option LineEnd) (label bytes : Bytes) : Bytes :=
  beginLine label ++ (between lineEnd bytes ++ (endLine label ++ closingBytes closing))

variable {lineEnd : LineEnd} {closing : Option LineEnd} {label bytes text line rest done : Bytes}
  {byte : UInt8} {room steps : Nat}

/-! ## Lines -/

/-- What the line has room for is written into it, and what follows takes the room that is left. -/
theorem wrapFrom_append (h : line.length ≤ room) (rest : Bytes) :
    wrapFrom lineEnd room (line ++ rest) =
      line ++ wrapFrom lineEnd (room - line.length) rest := by
  induction line generalizing room with
  | nil => rfl
  | cons byte line ih =>
    cases room with
    | zero => cases h
    | succ room =>
      rw [List.cons_append, wrapFrom, ih (Nat.le_of_succ_le_succ h), List.length_cons,
        Nat.add_sub_add_right, List.cons_append]

/-- A text that fits one line is not broken. -/
theorem wrap_of_length_le (h : text.length ≤ lineWidth) : wrap lineEnd text = text := by
  have hwrap : wrapFrom lineEnd lineWidth (text ++ []) = text ++ wrapFrom lineEnd _ [] :=
    wrapFrom_append h []
  rwa [List.append_nil, wrapFrom, List.append_nil] at hwrap

/-- A full line ends in front of what follows it. -/
theorem wrap_append (hline : line.length = lineWidth) (hrest : rest ≠ []) :
    wrap lineEnd (line ++ rest) = line ++ (lineEnd.bytes ++ wrap lineEnd rest) := by
  obtain ⟨byte, rest, rfl⟩ := List.exists_cons_of_ne_nil hrest
  rw [wrap, wrapFrom_append (Nat.le_of_eq hline), hline, Nat.sub_self]
  rfl

/-- No line end stands in front of the first line. -/
theorem head?_wrap (lineEnd : LineEnd) (text : Bytes) :
    (wrap lineEnd text).head? = text.head? := by
  cases text <;> rfl

/-- Lines hold nothing but the text and the line ends. -/
theorem mem_wrapFrom (h : byte ∈ wrapFrom lineEnd room text) :
    byte ∈ text ∨ byte ∈ lineEnd.bytes := by
  induction text generalizing room with
  | nil => exact .inl h
  | cons first text ih =>
    cases room with
    | zero =>
      rcases List.mem_append.1 h with hend | h
      · exact .inr hend
      · rcases List.mem_cons.1 h with rfl | h
        · exact .inl List.mem_cons_self
        · exact (ih h).imp_left (List.mem_cons_of_mem first)
    | succ room =>
      rcases List.mem_cons.1 h with rfl | h
      · exact .inl List.mem_cons_self
      · exact (ih h).imp_left (List.mem_cons_of_mem first)

/-- The characters of a line end are all ignored. -/
theorem filter_lineEnd (lineEnd : LineEnd) : lineEnd.bytes.filter (!isIgnored ·) = [] := by
  cases lineEnd <;> rfl

/-- Without white space the lines are the text again. -/
theorem filter_wrapFrom (h : ∀ byte ∈ text, isIgnored byte = false) :
    (wrapFrom lineEnd room text).filter (!isIgnored ·) = text := by
  induction text generalizing room with
  | nil => rfl
  | cons byte text ih =>
    obtain ⟨hbyte, htext⟩ := List.forall_mem_cons.1 h
    have hrest : ∀ room, (byte :: wrapFrom lineEnd room text).filter (!isIgnored ·) =
        byte :: text := by
      intro room
      rw [List.filter_cons, hbyte, ih htext]
      rfl
    cases room with
    | zero => rw [wrapFrom, List.filter_append, filter_lineEnd, List.nil_append, hrest]
    | succ room => rw [wrapFrom, hrest]

/-- The lines end as the text does. -/
theorem getLast?_wrapFrom (text : Bytes) (byte : UInt8) :
    (wrapFrom lineEnd room (text ++ [byte])).getLast? = some byte := by
  have hends : ∃ front, wrapFrom lineEnd room (text ++ [byte]) = front ++ [byte] := by
    induction text generalizing room with
    | nil =>
      cases room with
      | zero => exact ⟨lineEnd.bytes, rfl⟩
      | succ room => exact ⟨[], rfl⟩
    | cons first text ih =>
      cases room with
      | zero =>
        obtain ⟨front, hfront⟩ := ih
        refine ⟨lineEnd.bytes ++ first :: front, ?_⟩
        rw [List.cons_append, wrapFrom, hfront, List.append_assoc, List.cons_append]
      | succ room =>
        obtain ⟨front, hfront⟩ := ih
        refine ⟨first :: front, ?_⟩
        rw [List.cons_append, wrapFrom, hfront, List.cons_append]
  obtain ⟨front, hfront⟩ := hends
  rw [hfront, List.getLast?_concat]

/-! ## Line ends -/

/-- A character that is not ignored ends no line. -/
theorem not_lineEnd_of_plain (h : isIgnored byte = false) : byte ≠ 0x0a ∧ byte ≠ 0x0d := by
  constructor
  · rintro rfl
    cases h
  · rintro rfl
    cases h

/-- The lines of a text without ignored characters do not begin with a line feed. -/
theorem head?_wrap_ne (h : ∀ byte ∈ text, isIgnored byte = false) :
    (wrap lineEnd text).head? ≠ some 0x0a := by
  rw [head?_wrap]
  intro hhead
  exact (not_lineEnd_of_plain (h _ (List.mem_of_head? hhead))).1 rfl

/-- A line end is taken off at the front, unless a line feed behind it would make it longer. -/
theorem dropLineEnd?_append (lineEnd : LineEnd) (h : rest.head? ≠ some 0x0a) :
    dropLineEnd? (lineEnd.bytes ++ rest) = some rest := by
  cases lineEnd with
  | lf => rfl
  | crlf => rfl
  | cr =>
    cases rest with
    | nil => rfl
    | cons next more =>
      have hnext : next ≠ 0x0a := fun heq => h (congrArg some heq)
      show (if next = 0x0a then some more else some (next :: more)) = _
      rw [if_neg hnext]

/-- A line end is taken off at the back, behind a character that is not ignored. -/
theorem dropLastLineEnd?_append (hlast : text.getLast? = some byte)
    (hplain : isIgnored byte = false) (lineEnd : LineEnd) :
    dropLastLineEnd? (text ++ lineEnd.bytes) = some text := by
  obtain ⟨front, rfl⟩ := List.getLast?_eq_some_iff.1 hlast
  have hnext := (not_lineEnd_of_plain hplain).2
  cases lineEnd with
  | lf => simp [dropLastLineEnd?, LineEnd.bytes, dropLineEndReversed?, hnext]
  | crlf => simp [dropLastLineEnd?, LineEnd.bytes, dropLineEndReversed?]
  | cr => simp [dropLastLineEnd?, LineEnd.bytes, dropLineEndReversed?]

/-- No line end is taken off a text that ends with a character which is not ignored. -/
theorem withoutLastLineEnd_of_plain (hlast : text.getLast? = some byte)
    (hplain : isIgnored byte = false) : withoutLastLineEnd text = text := by
  obtain ⟨front, rfl⟩ := List.getLast?_eq_some_iff.1 hlast
  obtain ⟨hlf, hcr⟩ := not_lineEnd_of_plain hplain
  simp [withoutLastLineEnd, dropLastLineEnd?, dropLineEndReversed?, hlf, hcr]

/-- The line end at the back is taken off, if there is one. -/
theorem withoutLastLineEnd_append (hlast : text.getLast? = some byte)
    (hplain : isIgnored byte = false) (closing : Option LineEnd) :
    withoutLastLineEnd (text ++ closingBytes closing) = text := by
  cases closing with
  | none =>
    rw [closingBytes, List.append_nil]
    exact withoutLastLineEnd_of_plain hlast hplain
  | some lineEnd => rw [withoutLastLineEnd, closingBytes, dropLastLineEnd?_append hlast hplain]; rfl

/-! ## The strict reader -/

/-- A last line without a line end is put behind the others. -/
theorem joinLastLine?_of_plain (hlast : text.getLast? = some byte)
    (hplain : isIgnored byte = false) (done : Bytes) :
    joinLastLine? done text = some (done.reverse ++ text) := by
  rw [joinLastLine?, withoutLastLineEnd_of_plain hlast hplain]
  exact if_neg fun hempty => hempty.2.1 hempty.1

/-- One step takes off a full line and the line end behind it. -/
theorem joinLines?_succ (h : dropLineEnd? (text.drop lineWidth) = some rest) :
    joinLines? done (steps + 1) text =
      joinLines? ((text.take lineWidth).reverse ++ done) steps rest := by
  rw [joinLines?]
  split
  · next hnil =>
    rw [hnil] at h
    cases h
  · rw [h]

/-- The lines of a text are joined to the text: the invariant of the loop over the lines. -/
theorem joinLines?_wrap (hplain : ∀ byte ∈ text, isIgnored byte = false) (hne : text ≠ [])
    (hsteps : text.length < steps) (done : Bytes) :
    joinLines? done steps (wrap lineEnd text) = some (done.reverse ++ text) := by
  induction steps generalizing done text with
  | zero => cases hsteps
  | succ steps ih =>
    by_cases hshort : text.length ≤ lineWidth
    · -- the last line
      have hlast := List.getLast?_eq_some_getLast hne
      have hjoin := joinLastLine?_of_plain hlast (hplain _ (List.getLast_mem hne)) done
      rw [wrap_of_length_le hshort, joinLines?, List.drop_eq_nil_of_le hshort]
      exact hjoin
    · -- a full line, and others behind it
      obtain ⟨line, rest, rfl, hline, hrest⟩ : ∃ line rest, text = line ++ rest ∧
          line.length = lineWidth ∧ rest ≠ [] := by
        refine ⟨text.take lineWidth, text.drop lineWidth, ?_, ?_, ?_⟩
        · rw [List.take_append_drop]
        · exact List.length_take_of_le (Nat.le_of_not_le hshort)
        · rw [Ne, List.drop_eq_nil_iff]
          exact hshort
      have hmore : ∀ byte ∈ rest, isIgnored byte = false :=
        fun byte hbyte => hplain byte (List.mem_append_right line hbyte)
      have hend : dropLineEnd? ((line ++ (lineEnd.bytes ++ wrap lineEnd rest)).drop lineWidth) =
          some (wrap lineEnd rest) := by
        rw [List.drop_left' hline]
        exact dropLineEnd?_append lineEnd (head?_wrap_ne hmore)
      have hlength : rest.length < steps := by
        rw [List.length_append, hline] at hsteps
        have hwidth : lineWidth = 64 := rfl
        omega
      rw [wrap_append hline hrest, joinLines?_succ hend, List.take_left' hline,
        ih hmore hrest hlength]
      simp

/-! ## Blocks -/

/-- Base64 has no characters that are ignored. -/
theorem isIgnored_of_mem_encode (bytes : Bytes) :
    ∀ byte ∈ Base64.encode bytes, isIgnored byte = false :=
  Base64.forall_mem_encode (by decide) (by decide) bytes

/-- Base64 has no dashes. -/
theorem ne_dash_of_mem_encode (bytes : Bytes) : ∀ byte ∈ Base64.encode bytes, byte ≠ 0x2d :=
  Base64.forall_mem_encode (by decide) (by decide) bytes

/-- A line end consists of line feeds and carriage returns. -/
theorem mem_lineEnd (h : byte ∈ lineEnd.bytes) : byte = 0x0a ∨ byte = 0x0d := by
  cases lineEnd with
  | lf => exact .inl (List.mem_singleton.1 h)
  | crlf => exact (List.mem_pair.1 h).symm
  | cr => exact .inr (List.mem_singleton.1 h)

/-- Between the two lines of a block stand base64 and line ends. -/
theorem mem_between (h : byte ∈ between lineEnd bytes) :
    byte ∈ Base64.encode bytes ∨ byte ∈ lineEnd.bytes := by
  rcases List.mem_append.1 h with h | h
  · rcases List.mem_append.1 h with h | h
    · exact .inr h
    · exact mem_wrapFrom h
  · exact .inr h

/-- The first line of a block ends with a dash. -/
theorem getLast?_beginLine (label : Bytes) : (beginLine label).getLast? = some 0x2d := by
  rw [beginLine, List.getLast?_append_of_ne_nil _ (by decide)]
  decide

/-- The last line of a block ends with a dash. -/
theorem getLast?_endLine (label : Bytes) : (endLine label).getLast? = some 0x2d := by
  rw [endLine, List.getLast?_append_of_ne_nil _ (by decide)]
  decide

/-- The lines of a block are found between its marks. -/
theorem body?_lines {lines : Bytes} (hhead : lines.head? ≠ some 0x0a)
    (hlast : lines.getLast? = some byte) (hplain : isIgnored byte = false) :
    body? label (beginLine label ++ (lineEnd.bytes ++ lines ++ lineEnd.bytes ++
      (endLine label ++ closingBytes closing))) = some lines := by
  have hblock : fromBlock? (beginLine label ++ (lineEnd.bytes ++ lines ++ lineEnd.bytes ++
      (endLine label ++ closingBytes closing))) =
        some (beginLine label ++ (lineEnd.bytes ++ lines ++ lineEnd.bytes ++
          (endLine label ++ closingBytes closing))) := by
    apply if_pos
    simp only [beginLine, List.append_assoc]
    exact List.isPrefixOf_iff_prefix.2 (List.prefix_append _ _)
  have hbegin : Bytes.dropFront? (beginMark ++ label ++ dashes) (beginLine label ++
      (lineEnd.bytes ++ lines ++ lineEnd.bytes ++ (endLine label ++ closingBytes closing))) =
        some (lineEnd.bytes ++ (lines ++ lineEnd.bytes ++ endLine label ++
          closingBytes closing)) := by
    apply Bytes.dropFront?_eq_some_iff.2
    simp only [beginLine, List.append_assoc]
  have hfirstEnd : dropLineEnd? (lineEnd.bytes ++ (lines ++ lineEnd.bytes ++ endLine label ++
      closingBytes closing)) =
        some (lines ++ lineEnd.bytes ++ endLine label ++ closingBytes closing) := by
    apply dropLineEnd?_append
    have hne : lines ≠ [] := by
      rintro rfl
      cases hlast
    simp only [List.append_assoc]
    rwa [List.head?_append_of_ne_nil _ hne]
  have hclosing : withoutLastLineEnd (lines ++ lineEnd.bytes ++ endLine label ++
      closingBytes closing) = lines ++ lineEnd.bytes ++ endLine label := by
    have hdash : (lines ++ lineEnd.bytes ++ endLine label).getLast? = some 0x2d := by
      rw [List.getLast?_append, getLast?_endLine]
      rfl
    exact withoutLastLineEnd_append hdash rfl closing
  have hend : Bytes.dropBack? (endMark ++ label ++ dashes)
      (lines ++ lineEnd.bytes ++ endLine label) = some (lines ++ lineEnd.bytes) :=
    Bytes.dropBack?_append _ _
  simp only [body?, Option.bind_eq_bind, Option.bind_some, hblock, hbegin, hfirstEnd, hclosing,
    hend]
  exact dropLastLineEnd?_append hlast hplain lineEnd

/-- What the strict reader takes out of a block are the lines of base64. -/
theorem body?_write (hbytes : bytes ≠ []) :
    body? label (write lineEnd closing label bytes) =
      some (wrap lineEnd (Base64.encode bytes)) := by
  have hplain := isIgnored_of_mem_encode bytes
  obtain ⟨front, last, hencode⟩ :=
    (List.eq_nil_or_concat' (Base64.encode bytes)).resolve_left (Base64.encode_ne_nil hbytes)
  have hlast : (wrap lineEnd (Base64.encode bytes)).getLast? = some last := by
    rw [hencode]
    exact getLast?_wrapFrom front last
  have hmem : last ∈ Base64.encode bytes := by
    rw [hencode]
    exact List.mem_append_right front List.mem_cons_self
  exact body?_lines (head?_wrap_ne hplain) hlast (hplain last hmem)

/-- Bytes are read back from their base64, if there are any. -/
theorem base64?_encode (hbytes : bytes ≠ []) : base64? (Base64.encode bytes) = some bytes := by
  have hne : ¬(Base64.encode bytes).isEmpty := fun hempty =>
    Base64.encode_ne_nil hbytes (List.isEmpty_iff.1 hempty)
  rw [base64?, if_neg hne, Base64.decode_encode]

/-- The strict reader gives the bytes of a block back. -/
theorem strict?_write (hbytes : bytes ≠ []) :
    strict? label (write lineEnd closing label bytes) = some bytes := by
  have hplain := isIgnored_of_mem_encode bytes
  -- the lines are no shorter than their text, so there are enough steps
  have hlength : (Base64.encode bytes).length ≤ (wrap lineEnd (Base64.encode bytes)).length := by
    calc (Base64.encode bytes).length
        = ((wrap lineEnd (Base64.encode bytes)).filter (!isIgnored ·)).length := by
          rw [wrap, filter_wrapFrom hplain]
      _ ≤ (wrap lineEnd (Base64.encode bytes)).length := List.length_filter_le _ _
  have hjoin : joinLines? [] ((wrap lineEnd (Base64.encode bytes)).length + 1)
      (wrap lineEnd (Base64.encode bytes)) = some (Base64.encode bytes) :=
    joinLines?_wrap hplain (Base64.encode_ne_nil hbytes) (Nat.lt_succ_of_le hlength) []
  simp only [strict?, Option.bind_eq_bind, Option.bind_some, body?_write hbytes, hjoin]
  exact base64?_encode hbytes

example : write .lf (some .lf) (Text.utf8 "PUBLIC KEY") [1, 2, 3] =
    Text.utf8 "-----BEGIN PUBLIC KEY-----\nAQID\n-----END PUBLIC KEY-----\n" := by
  decide +kernel

/-! ## The lenient reader -/

/-- A character that is neither base64 nor a line end does not stand between the two lines. -/
theorem not_mem_between (hlf : byte ≠ 0x0a) (hcr : byte ≠ 0x0d)
    (h : byte ∉ Base64.encode bytes) : byte ∉ between lineEnd bytes := by
  intro hmem
  rcases mem_between hmem with hmem | hmem
  · exact h hmem
  · rcases mem_lineEnd hmem with rfl | rfl
    · exact hlf rfl
    · exact hcr rfl

/-- A character that ends no line does not stand behind the last line. -/
theorem not_mem_closingBytes (hlf : byte ≠ 0x0a) (hcr : byte ≠ 0x0d) :
    byte ∉ closingBytes closing := by
  intro hmem
  cases closing with
  | none => cases hmem
  | some lineEnd =>
    rcases mem_lineEnd hmem with rfl | rfl
    · exact hlf rfl
    · exact hcr rfl

/-- The lenient reader gives the bytes of a block back, unless its last line also looks like the
beginning of another block. -/
theorem lenient?_write (hbytes : bytes ≠ []) (hlabel : Bytes.Apart 0x2d 0x42 (endLine label)) :
    lenient? label (write lineEnd closing label bytes) = some bytes := by
  have hplain := isIgnored_of_mem_encode bytes
  have hdash : 0x2d ∉ between lineEnd bytes :=
    not_mem_between (by decide) (by decide) fun hmem => ne_dash_of_mem_encode bytes _ hmem rfl
  have hfirst : Bytes.splitAtPattern? (beginMark ++ label ++ dashes)
      (write lineEnd closing label bytes) =
        some ([], between lineEnd bytes ++ (endLine label ++ closingBytes closing)) :=
    Bytes.splitAtPattern?_append rfl List.not_mem_nil _
  have hnext : Bytes.splitAtPattern? (beginMark ++ label ++ dashes)
      (between lineEnd bytes ++ (endLine label ++ closingBytes closing)) = none := by
    have hapart : Bytes.Apart 0x2d 0x42
        (between lineEnd bytes ++ (endLine label ++ closingBytes closing)) := by
      apply Bytes.Apart.append_of_not_mem hdash
      apply hlabel.append
      · exact Bytes.apart_of_not_mem (not_mem_closingBytes (by decide) (by decide))
      · refine .inr fun hhead => ?_
        have hmem := List.mem_of_head? hhead
        exact not_mem_closingBytes (by decide) (by decide) hmem
    -- A second block would begin with a dash followed by a B, and these meet nowhere.
    have hmark : [0x2d, 0x42] <:+: beginMark := by decide
    have hmeet : [0x2d, 0x42] <:+: beginMark ++ label ++ dashes :=
      hmark.trans ((List.prefix_append _ _).trans (List.prefix_append _ _)).isInfix
    rw [Bytes.splitAtPattern?, hapart.find?_eq_none hmeet]
  have hlast : Bytes.splitAtPattern? (endMark ++ label ++ dashes)
      (between lineEnd bytes ++ (endLine label ++ closingBytes closing)) =
        some (between lineEnd bytes, closingBytes closing) :=
    Bytes.splitAtPattern?_append rfl hdash _
  have hfilter : (between lineEnd bytes).filter (!isIgnored ·) = Base64.encode bytes := by
    rw [between, List.filter_append, List.filter_append, filter_lineEnd, wrap,
      filter_wrapFrom hplain, List.nil_append, List.append_nil]
  simp only [lenient?, Option.bind_eq_bind, Option.bind_some, hfirst, hnext, hlast, hfilter]
  exact base64?_encode hbytes

/-! ## Marks in a block -/

/-- The first line of a block is found at its start. -/
theorem find?_write_self :
    Bytes.find? (beginLine label) (write lineEnd closing label bytes) = some 0 := by
  apply Bytes.findFrom?_eq_some_iff.2
  refine ⟨[], write lineEnd closing label bytes, rfl, List.cons_ne_nil _ _,
    List.prefix_append _ _, rfl, ?_⟩
  intro before after hnil hafter
  exact absurd (List.append_eq_nil_iff.1 hnil).2 hafter

/-- What is no part of the two lines of a block does not stand in the block if it has a space in
it: base64 has none. -/
theorem find?_write_eq_none {pattern : Bytes} {next : UInt8} (hpattern : [0x20, next] <:+: pattern)
    (hbegin : Bytes.Apart 0x20 next (beginLine label))
    (hend : Bytes.Apart 0x20 next (endLine label)) :
    Bytes.find? pattern (write lineEnd closing label bytes) = none := by
  have hspace : 0x20 ∉ between lineEnd bytes := by
    refine not_mem_between (by decide) (by decide) fun hmem => ?_
    cases isIgnored_of_mem_encode bytes _ hmem
  have hbeginLast : (beginLine label).getLast? ≠ some 0x20 := by
    rw [getLast?_beginLine]
    decide
  have hendLast : (endLine label).getLast? ≠ some 0x20 := by
    rw [getLast?_endLine]
    decide
  have hclosing : Bytes.Apart 0x20 next (closingBytes closing) :=
    Bytes.apart_of_not_mem (not_mem_closingBytes (by decide) (by decide))
  have hrest := Bytes.Apart.append_of_not_mem hspace (hend.append hclosing (.inl hendLast))
  exact (hbegin.append hrest (.inl hbeginLast)).find?_eq_none hpattern

/-! ## Blocks as texts -/

/-- A block as a text. -/
def textOf (lineEnd : LineEnd) (closing : Option LineEnd) (label bytes : Bytes) : String :=
  Text.ofAscii (write lineEnd closing label bytes)

/-- The text of a block with an ASCII label has the block as its encoding. -/
theorem utf8_textOf (hlabel : ∀ byte ∈ label, byte < 0x80) :
    Text.utf8 (textOf lineEnd closing label bytes) = write lineEnd closing label bytes := by
  have hends : ∀ lineEnd : LineEnd, ∀ byte ∈ lineEnd.bytes, byte < 0x80 := by
    intro lineEnd byte hbyte
    rcases mem_lineEnd hbyte with rfl | rfl <;> decide
  have hbegin : ∀ byte ∈ beginMark, byte < 0x80 := by decide +kernel
  have hend : ∀ byte ∈ endMark, byte < 0x80 := by decide +kernel
  have hdashes : ∀ byte ∈ dashes, byte < 0x80 := by decide +kernel
  have hclosing : ∀ byte ∈ closingBytes closing, byte < 0x80 := by
    cases closing with
    | none => exact List.forall_mem_nil _
    | some lineEnd => exact hends lineEnd
  have hbetween : ∀ byte ∈ between lineEnd bytes, byte < 0x80 := by
    intro byte hbyte
    rcases mem_between hbyte with hbyte | hbyte
    · exact Base64.lt_of_mem_encode bytes byte hbyte
    · exact hends lineEnd byte hbyte
  apply Text.utf8_ofAscii
  simp only [write, beginLine, endLine, List.forall_mem_append]
  exact ⟨⟨⟨hbegin, hlabel⟩, hdashes⟩, hbetween, ⟨⟨hend, hlabel⟩, hdashes⟩, hclosing⟩

end Pem

end FirmwareTransparency
