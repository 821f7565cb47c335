import FirmwareTransparency.Proofs.Json.Number
import FirmwareTransparency.Proofs.Json.Spelling

/-!
# Skipping takes exactly one value

A value that nobody asks for is skipped by a loop over the arrays and objects that are open. What
the loop still has to find is determined by them: `Follows` says so for each thing that may be
expected next, and every step of the loop takes one step of it. Main statements: `IsValue.skips`,
and with it `skipValue?_append` for a value in front of other bytes; `IsValue.append_inj` says that
a value ends in one place.
-/

set_option autoImplicit false

namespace FirmwareTransparency.Json

variable {bytes rest written inside : Bytes} {frame : Frame} {frames : List Frame}

/-! ## What stands in a frame -/

/-- An element of an array, or a member of an object. -/
def Frame.IsItem : Frame → Bytes → Prop
  | .array, written => IsValue written
  | .object, written => ∃ member : Member, member.Writes written ∧ member.WellFormed

/-- An array or object from its first item on, or from behind another one. -/
def Frame.IsInside (frame : Frame) (isFirst : Bool) (inside : Bytes) : Prop :=
  ∃ list, Items Eq frame.close isFirst list inside ∧ ∀ item ∈ list, frame.IsItem item

/-- An array or object may end at once, from its first item on or behind another one. -/
theorem Frame.isInside_end {blank : Bytes} (hblank : IsBlank blank) (frame : Frame)
    (isFirst : Bool) : frame.IsInside isFirst (blank ++ [frame.close]) :=
  ⟨[], .done hblank, List.forall_mem_nil _⟩

/-- An item in front of what may stand inside may stand inside as well. -/
theorem Frame.isInside_item {isFirst : Bool} {separator : Bytes}
    (hseparator : Separator isFirst separator) (hitem : frame.IsItem written)
    (hinside : frame.IsInside false inside) :
    frame.IsInside isFirst (separator ++ written ++ inside) := by
  obtain ⟨list, hitems, hlist⟩ := hinside
  exact ⟨written :: list, .next hseparator rfl hitems, List.forall_mem_cons.2 ⟨hitem, hlist⟩⟩

/-- Items that are members each are the members of an object. -/
theorem exists_members {isFirst : Bool} {list : List Bytes}
    (hitems : Items Eq closeBrace isFirst list inside)
    (hlist : ∀ item ∈ list, Frame.object.IsItem item) :
    ∃ members, Items Member.Writes closeBrace isFirst members inside ∧
      ∀ member ∈ members, member.WellFormed := by
  induction hitems with
  | done hblank => exact ⟨[], .done hblank, List.forall_mem_nil _⟩
  | next hseparator hitem _ ih =>
    obtain ⟨⟨member, hwrites, hparts⟩, hlist⟩ := List.forall_mem_cons.1 hlist
    obtain ⟨members, hrest, hmembers⟩ := ih hlist
    exact ⟨member :: members, .next hseparator (hitem ▸ hwrites) hrest,
      List.forall_mem_cons.2 ⟨hparts, hmembers⟩⟩

/-- What stands inside of an array makes it a value. -/
theorem isValue_array (h : Frame.array.IsInside true inside) : IsValue (openBracket :: inside) := by
  obtain ⟨elements, hitems, helements⟩ := h
  exact .array ⟨inside, hitems, rfl⟩ helements

/-- What stands inside of an object makes it a value. -/
theorem isValue_object (h : Frame.object.IsInside true inside) :
    IsValue (openBrace :: inside) := by
  obtain ⟨list, hitems, hlist⟩ := h
  obtain ⟨members, hitems, hmembers⟩ := exists_members hitems hlist
  exact IsObject.isValue ⟨inside, hitems, rfl⟩ hmembers

/-! ## What the loop has to find -/

/-- The rest of one array or object, and what closes everything around it. -/
def Frame.Within (frame : Frame) (isFirst : Bool) (closes : Bytes → Prop) (bytes : Bytes) : Prop :=
  ∃ inside behind, frame.IsInside isFirst inside ∧ closes behind ∧ bytes = inside ++ behind

/-- The rest of everything that is open. -/
def Closes : List Frame → Bytes → Prop
  | [], bytes => bytes = []
  | frame :: frames, bytes => frame.Within false (Closes frames) bytes

/-- White space and an item, and the rest of everything that is open. -/
def Leads (item : Bytes → Prop) (frames : List Frame) (bytes : Bytes) : Prop :=
  ∃ blank written behind, IsBlank blank ∧ item written ∧ Closes frames behind ∧
    bytes = blank ++ written ++ behind

/-- What is expected, and the rest of everything that is open. -/
def Follows : Expected → List Frame → Bytes → Prop
  | .value, frames, bytes => Leads IsValue frames bytes
  | .member, frames, bytes => Leads Frame.object.IsItem frames bytes
  | .first, [], _ => False
  | .first, frame :: frames, bytes => frame.Within true (Closes frames) bytes
  | .more, frames, bytes => Closes frames bytes

/-- An item of the innermost frame leads on to the rest of everything that is open. -/
theorem follows_content (frame : Frame) (frames : List Frame) (bytes : Bytes) :
    Follows frame.content frames bytes ↔ Leads frame.IsItem frames bytes := by
  cases frame <;> rfl

/-- The closing byte leads out of a frame to what closes everything around it. -/
theorem Frame.within_end {blank : Bytes} (hblank : IsBlank blank) {closes : Bytes → Prop}
    (hbytes : closes bytes) (frame : Frame) (isFirst : Bool) :
    frame.Within isFirst closes (blank ++ frame.close :: bytes) :=
  ⟨blank ++ [frame.close], bytes, frame.isInside_end hblank isFirst, hbytes, by simp⟩

/-- What separates two items leads to the next item and so to the rest of the frame. -/
theorem Frame.within_item {isFirst : Bool} {front : Bytes}
    (hfront : ∀ blank, IsBlank blank → Separator isFirst (front ++ blank))
    (h : Follows frame.content (frame :: frames) bytes) :
    frame.Within isFirst (Closes frames) (front ++ bytes) := by
  obtain ⟨blank, written, _, hblank, hitem, ⟨inside, behind, hinside, hbehind, rfl⟩, rfl⟩ :=
    (follows_content frame (frame :: frames) bytes).1 h
  exact ⟨front ++ blank ++ written ++ inside, behind,
    Frame.isInside_item (hfront blank hblank) hitem hinside, hbehind, by simp⟩

/-- A value leads on to the rest of everything that is open. -/
theorem follows_value {blank value : Bytes} (hblank : IsBlank blank) (hvalue : IsValue value)
    (hbytes : Closes frames bytes) : Follows .value frames (blank ++ value ++ bytes) :=
  ⟨blank, value, bytes, hblank, hvalue, hbytes, rfl⟩

/-- Where a value is expected an opening bracket leads to the first element of an array. -/
theorem follows_array {blank : Bytes} (hblank : IsBlank blank)
    (h : Follows .first (.array :: frames) bytes) :
    Follows .value frames (blank ++ openBracket :: bytes) := by
  obtain ⟨inside, behind, hinside, hbehind, rfl⟩ := h
  have hvalue := follows_value hblank (isValue_array hinside) hbehind
  rwa [List.append_assoc] at hvalue

/-- Where a value is expected an opening brace leads to the first member of an object. -/
theorem follows_object {blank : Bytes} (hblank : IsBlank blank)
    (h : Follows .first (.object :: frames) bytes) :
    Follows .value frames (blank ++ openBrace :: bytes) := by
  obtain ⟨inside, behind, hinside, hbehind, rfl⟩ := h
  have hvalue := follows_value hblank (isValue_object hinside) hbehind
  rwa [List.append_assoc] at hvalue

/-- Where a member is expected its name and a colon lead to its value. -/
theorem follows_member {blank name front : Bytes} (hblank : IsBlank blank) (hname : IsBody name)
    (hfront : IsBlank front) (h : Follows .value frames bytes) :
    Follows .member frames (blank ++ (quote :: name ++ quote :: front ++ colon :: bytes)) := by
  obtain ⟨back, value, behind, hback, hvalue, hbehind, rfl⟩ := h
  have hitem : Frame.object.IsItem _ :=
    ⟨⟨name, value⟩, ⟨front, back, hfront, hback, rfl⟩, hname, hvalue⟩
  exact ⟨blank, _, behind, hblank, hitem, hbehind, by simp⟩

/-! ## Scalars and names -/

/-- What is skipped is the word. -/
theorem append_of_skipWord? {word : Bytes} (h : skipWord? word bytes = some rest) :
    bytes = word ++ rest := by
  unfold skipWord? at h
  split at h
  · next hprefix =>
    cases h
    exact (List.prefix_iff_eq_append.1 (List.isPrefixOf_iff_prefix.1 hprefix)).symm
  · cases h

/-- What is cut off is the body of a string and its closing quote. -/
theorem exists_isBody_of_pieces (h : (pieces bytes).map Prod.snd = some rest) :
    ∃ body, IsBody body ∧ bytes = body ++ quote :: rest := by
  obtain ⟨⟨list, rest⟩, hpieces, rfl⟩ := Option.map_eq_some_iff.1 h
  obtain ⟨body, hcut, rfl⟩ := pieces_eq_some_iff.1 hpieces
  exact ⟨body, ⟨list, hcut⟩, rfl⟩

/-- A scalar that is skipped is a value. -/
theorem exists_isValue_of_skipScalar? (h : skipScalar? bytes = some rest) :
    ∃ value, IsValue value ∧ bytes = value ++ rest := by
  cases bytes with
  | nil => cases h
  | cons byte bytes =>
    rw [skipScalar?] at h
    split_ifs at h with hquote hnull htrue hfalse
    · obtain ⟨body, hbody, rfl⟩ := exists_isBody_of_pieces h
      exact ⟨_, .string hbody, by rw [hquote]; simp⟩
    · exact ⟨nullWord, .word (by decide), append_of_skipWord? h⟩
    · exact ⟨trueWord, .word (by decide), append_of_skipWord? h⟩
    · exact ⟨falseWord, .word (by decide), append_of_skipWord? h⟩
    · obtain ⟨⟨number, rest⟩, hnumber, rfl⟩ := Option.map_eq_some_iff.1 h
      obtain ⟨written, hwritten, hbytes⟩ := exists_isNumber hnumber
      exact ⟨written, .number hwritten, hbytes⟩

/-- A name is skipped exactly with the colon behind it, and white space in front of both. -/
theorem skipName?_eq_some_iff :
    skipName? bytes = some rest ↔
      ∃ blank name front, IsBlank blank ∧ IsBody name ∧ IsBlank front ∧
        bytes = blank ++ (quote :: name ++ quote :: front ++ colon :: rest) := by
  constructor
  · intro h
    unfold skipName? at h
    split at h
    · cases h
    · next byte behind hskip =>
      split_ifs at h with hquote
      split at h
      · cases h
      · next list behind hpieces =>
        split at h
        · cases h
        · next mark rest hspace =>
          split_ifs at h with hcolon
          cases h
          subst hquote hcolon
          obtain ⟨blank, hblank, rfl⟩ := exists_blank_of_skipSpace hskip
          obtain ⟨name, hname, rfl⟩ := pieces_eq_some_iff.1 hpieces
          obtain ⟨front, hfront, rfl⟩ := exists_blank_of_skipSpace hspace
          exact ⟨blank, name, front, hblank, ⟨list, hname⟩, hfront, by simp⟩
  · rintro ⟨blank, name, front, hblank, ⟨list, hname⟩, hfront, rfl⟩
    have hpieces := pieces_eq_some_iff.2
      ⟨name, hname, Eq.refl (name ++ quote :: (front ++ colon :: rest))⟩
    simp only [List.cons_append, List.append_assoc] at hpieces ⊢
    rw [skipName?, skipSpace_token hblank (by decide)]
    simp only [if_true, hpieces, skipSpace_token hfront (by decide : isSpace colon = false)]

/-! ## Soundness -/

/-- What the loop passes is what it still had to find: the invariant of a whole run. -/
theorem exists_follows_of_skipFrom {steps : Nat} {expected : Expected}
    (h : skipFrom steps expected frames bytes = some rest) :
    ∃ taken, Follows expected frames taken ∧ bytes = taken ++ rest := by
  -- The cases are the branches of the loop. Those that go on are 3, 4 and 6 for a value, 8 for the
  -- name of a member, 11 and 12 where a frame begins, and 15 and 16 behind an item. In 13 nothing
  -- is open any more, so the loop ends.
  fun_induction skipFrom steps expected frames bytes with
  | case1 => cases h
  | case2 => cases h
  | case3 _ _ _ _ hskip ih =>
    obtain ⟨taken, hfollows, rfl⟩ := ih h
    obtain ⟨blank, hblank, rfl⟩ := exists_blank_of_skipSpace hskip
    exact ⟨_, follows_array hblank hfollows, by simp⟩
  | case4 _ _ _ _ hskip _ ih =>
    obtain ⟨taken, hfollows, rfl⟩ := ih h
    obtain ⟨blank, hblank, rfl⟩ := exists_blank_of_skipSpace hskip
    exact ⟨_, follows_object hblank hfollows, by simp⟩
  | case5 => cases h
  | case6 _ _ _ _ _ hskip _ _ _ hscalar ih =>
    obtain ⟨taken, hfollows, rfl⟩ := ih h
    obtain ⟨blank, hblank, rfl⟩ := exists_blank_of_skipSpace hskip
    obtain ⟨value, hvalue, hbytes⟩ := exists_isValue_of_skipScalar? hscalar
    exact ⟨_, follows_value hblank hvalue hfollows, by rw [hbytes]; simp⟩
  | case7 => cases h
  | case8 _ _ _ _ hskip ih =>
    obtain ⟨taken, hfollows, rfl⟩ := ih h
    obtain ⟨blank, name, front, hblank, hname, hfront, rfl⟩ := skipName?_eq_some_iff.1 hskip
    exact ⟨_, follows_member hblank hname hfront hfollows, by simp⟩
  | case9 => cases h
  | case10 => cases h
  | case11 _ frame _ _ _ hskip ih =>
    obtain ⟨taken, hfollows, rfl⟩ := ih h
    obtain ⟨blank, hblank, rfl⟩ := exists_blank_of_skipSpace hskip
    exact ⟨_, frame.within_end hblank hfollows true, by simp⟩
  | case12 _ frame _ _ _ _ hskip _ ih =>
    obtain ⟨taken, hfollows, hbytes⟩ := ih h
    obtain ⟨blank, hblank, rfl⟩ := exists_blank_of_skipSpace hskip
    exact ⟨_, frame.within_item (fun back hback => .first (hblank.append hback)) hfollows,
      by rw [hbytes]; simp⟩
  | case13 =>
    cases h
    exact ⟨[], rfl, rfl⟩
  | case14 => cases h
  | case15 _ frame _ _ _ hskip ih =>
    obtain ⟨taken, hfollows, rfl⟩ := ih h
    obtain ⟨blank, hblank, rfl⟩ := exists_blank_of_skipSpace hskip
    exact ⟨_, frame.within_end hblank hfollows false, by simp⟩
  | case16 _ frame _ _ _ hskip _ ih =>
    obtain ⟨taken, hfollows, rfl⟩ := ih h
    obtain ⟨blank, hblank, rfl⟩ := exists_blank_of_skipSpace hskip
    have hseparator : ∀ back, IsBlank back → Separator false (blank ++ [comma] ++ back) := by
      intro back hback
      rw [List.append_assoc]
      exact .comma hblank hback
    exact ⟨_, frame.within_item hseparator hfollows, by simp⟩
  | case17 => cases h

/-- What is skipped is a value. -/
theorem exists_isValue_of_skipValue? (h : skipValue? bytes = some rest) :
    ∃ blank value, IsBlank blank ∧ IsValue value ∧ bytes = blank ++ value ++ rest := by
  obtain ⟨_, ⟨blank, value, _, hblank, hvalue, rfl, rfl⟩, rfl⟩ := exists_follows_of_skipFrom h
  exact ⟨blank, value, hblank, hvalue, by simp⟩

/-! ## Completeness -/

/-- The bytes that a number can start with. -/
def StartsNumber (byte : UInt8) : Prop := byte = 0x2d ∨ isDigit byte = true

/-- The bytes that a value can start with. -/
def StartsValue (byte : UInt8) : Prop :=
  byte ∈ [quote, openBracket, openBrace, 0x6e, 0x74, 0x66] ∨ StartsNumber byte

instance : DecidablePred StartsNumber := fun byte =>
  inferInstanceAs (Decidable (byte = 0x2d ∨ isDigit byte = true))

instance : DecidablePred StartsValue := fun byte =>
  inferInstanceAs
    (Decidable (byte ∈ [quote, openBracket, openBrace, 0x6e, 0x74, 0x66] ∨ StartsNumber byte))

/-- A byte that starts a number is none of those that start no number. -/
theorem StartsNumber.ne {byte other : UInt8} (hbyte : StartsNumber byte)
    (hother : ¬StartsNumber other) : byte ≠ other := by
  rintro rfl
  exact hother hbyte

/-- A byte that starts a value is none of those that start no value. -/
theorem StartsValue.ne {byte other : UInt8} (hbyte : StartsValue byte)
    (hother : ¬StartsValue other) : byte ≠ other := by
  rintro rfl
  exact hother hbyte

/-- No value starts with white space. -/
theorem StartsValue.not_isSpace {byte : UInt8} (h : StartsValue byte) : isSpace byte = false := by
  simp only [isSpace, Bool.or_eq_false_iff, beq_eq_false_iff_ne]
  exact ⟨⟨⟨h.ne (by decide), h.ne (by decide)⟩, h.ne (by decide)⟩, h.ne (by decide)⟩

/-- A number starts with a minus sign or a digit. -/
theorem IsNumber.exists_start (h : IsNumber written) :
    ∃ byte more, written = byte :: more ∧ StartsNumber byte := by
  obtain ⟨sign, whole, fraction, exponent, hsign, hwhole, -, -, rfl⟩ := h
  obtain ⟨digit, more, rfl, hdigit⟩ := hwhole.exists_digit
  simp only [List.mem_cons, List.not_mem_nil, or_false] at hsign
  obtain rfl | rfl := hsign
  · exact ⟨digit, more ++ fraction ++ exponent, rfl, .inr hdigit⟩
  · exact ⟨0x2d, digit :: more ++ fraction ++ exponent, rfl, .inl rfl⟩

/-- A value starts with one of the bytes that a value can start with. -/
theorem IsValue.exists_start (h : IsValue written) :
    ∃ byte more, written = byte :: more ∧ StartsValue byte := by
  cases h with
  | word h =>
    simp only [List.mem_cons, List.not_mem_nil, or_false] at h
    obtain rfl | rfl | rfl := h <;> exact ⟨_, _, rfl, by decide⟩
  | number h =>
    obtain ⟨byte, more, rfl, hbyte⟩ := h.exists_start
    exact ⟨byte, more, rfl, .inr hbyte⟩
  | string => exact ⟨quote, _, rfl, by decide⟩
  | array harray =>
    obtain ⟨inside, -, rfl⟩ := harray
    exact ⟨openBracket, inside, rfl, by decide⟩
  | object hobject =>
    obtain ⟨inside, -, rfl⟩ := hobject
    exact ⟨openBrace, inside, rfl, by decide⟩

/-- What is written is skipped in at most two steps for each byte, whatever is open around it. -/
def Skips (expected : Expected) (written : Bytes) : Prop :=
  ∃ cost ≤ 2 * written.length, ∀ steps frames blank rest, IsBlank blank → EndsNumber rest →
    skipFrom (steps + cost) expected frames (blank ++ (written ++ rest)) =
      skipFrom steps .more frames rest

/-! ### Scalars -/

/-- A scalar is skipped in one step of the loop. -/
theorem skips_scalar {byte : UInt8} {more : Bytes} (hspace : isSpace byte = false)
    (hbracket : byte ≠ openBracket) (hbrace : byte ≠ openBrace)
    (hscalar : ∀ rest, EndsNumber rest → skipScalar? (byte :: (more ++ rest)) = some rest) :
    Skips .value (byte :: more) := by
  refine ⟨1, by rw [List.length_cons]; omega, ?_⟩
  intro steps frames blank rest hblank hrest
  rw [List.cons_append, skipFrom, skipSpace_token hblank hspace]
  simp only [if_neg hbracket, if_neg hbrace, hscalar rest hrest]

/-- A word is skipped where it stands. -/
theorem skipWord?_append (word rest : Bytes) : skipWord? word (word ++ rest) = some rest := by
  rw [skipWord?, if_pos (List.isPrefixOf_iff_prefix.2 (List.prefix_append word rest)),
    List.drop_left]

/-- Each of the three words is skipped. -/
theorem skips_word {word : Bytes} (h : word ∈ [nullWord, trueWord, falseWord]) :
    Skips .value word := by
  simp only [List.mem_cons, List.not_mem_nil, or_false] at h
  obtain rfl | rfl | rfl := h
  · exact skips_scalar rfl (by decide) (by decide) fun rest _ => skipWord?_append nullWord rest
  · exact skips_scalar rfl (by decide) (by decide) fun rest _ => skipWord?_append trueWord rest
  · exact skips_scalar rfl (by decide) (by decide) fun rest _ => skipWord?_append falseWord rest

/-- A string is skipped, whether or not it spells a text. -/
theorem skips_string {body : Bytes} (h : IsBody body) :
    Skips .value (quote :: body ++ [quote]) := by
  obtain ⟨list, hcut⟩ := h
  show Skips .value (quote :: (body ++ [quote]))
  refine skips_scalar rfl (by decide) (by decide) fun rest _ => ?_
  have hpieces := pieces_eq_some_iff.2 ⟨body, hcut, Eq.refl (body ++ quote :: rest)⟩
  rw [List.append_assoc, List.singleton_append, skipScalar?, if_pos rfl, hpieces]
  rfl

/-- A number is skipped. -/
theorem skips_number (h : IsNumber written) : Skips .value written := by
  obtain ⟨byte, more, rfl, hbyte⟩ := h.exists_start
  have hstart : StartsValue byte := .inr hbyte
  refine skips_scalar hstart.not_isSpace (hbyte.ne (by decide)) (hbyte.ne (by decide)) ?_
  intro rest hrest
  obtain ⟨number, hnumber⟩ := number?_append h hrest
  rw [List.cons_append] at hnumber
  rw [skipScalar?, if_neg (hbyte.ne (by decide)), if_neg (hbyte.ne (by decide)),
    if_neg (hbyte.ne (by decide)), if_neg (hbyte.ne (by decide)), hnumber]
  rfl

/-! ### Arrays and objects -/

section Items

variable {α : Type} {writes : α → Bytes → Prop} {list : List α} {isFirst : Bool}

/-- Behind an item stands white space and a comma or the closing byte. -/
theorem Items.endsNumber {close : UInt8} (h : Items writes close false list inside)
    (hclose : continuesNumber close = false) (rest : Bytes) : EndsNumber (inside ++ rest) := by
  cases h with
  | done hblank =>
    rw [List.append_assoc]
    exact (endsNumber_cons hclose _).of_blank hblank
  | next hseparator =>
    cases hseparator with
    | comma hfront =>
      simp only [List.append_assoc, List.cons_append]
      exact (endsNumber_cons (by decide) _).of_blank hfront

/-- No number goes on with a closing byte. -/
theorem Frame.continuesNumber_close (frame : Frame) : continuesNumber frame.close = false := by
  cases frame <;> rfl

/-- A closing byte is no white space. -/
theorem Frame.isSpace_close (frame : Frame) : isSpace frame.close = false := by
  cases frame <;> rfl

/-- A comma closes nothing. -/
theorem Frame.comma_ne_close (frame : Frame) : comma ≠ frame.close := by
  cases frame <;> decide

/-- What the loop expects inside of an array or object. -/
def expectedInside (isFirst : Bool) : Expected := if isFirst then .first else .more

/-- Everything up to the closing byte is skipped if every item is. -/
theorem skipFrom_items (hitems : Items writes frame.close isFirst list inside)
    (hlist : ∀ a ∈ list, ∀ written, writes a written → Skips frame.content written ∧
      ∃ byte more, written = byte :: more ∧ isSpace byte = false ∧ byte ≠ frame.close) :
    ∃ cost ≤ 2 * inside.length + isFirst.toNat, ∀ steps frames rest,
      skipFrom (steps + cost) (expectedInside isFirst) (frame :: frames) (inside ++ rest) =
        skipFrom steps .more frames rest := by
  -- Where an item stands first the loop takes a step without passing a byte, hence the step that
  -- the bound adds there.
  induction hitems with
  | @done isFirst blank hblank =>
    refine ⟨1, by rw [List.length_append, List.length_singleton]; omega, ?_⟩
    intro steps frames rest
    have htoken := skipSpace_token hblank frame.isSpace_close rest
    rw [List.append_assoc, List.singleton_append]
    cases isFirst with
    | false =>
      show skipFrom (steps + 1) .more (frame :: frames) _ = _
      rw [skipFrom, htoken]
      exact if_pos rfl
    | true =>
      show skipFrom (steps + 1) .first (frame :: frames) _ = _
      rw [skipFrom, htoken]
      exact if_pos rfl
  | @next isFirst separator written inside a list hseparator hitem hrest ih =>
    obtain ⟨hskips, hlist⟩ := List.forall_mem_cons.1 hlist
    obtain ⟨⟨itemCost, hitemCost, hskip⟩, byte, more, rfl, hspace, hclose⟩ := hskips _ hitem
    obtain ⟨restCost, hrestCost, hskipRest⟩ := ih hlist
    have hends : ∀ rest, EndsNumber (inside ++ rest) :=
      hrest.endsNumber frame.continuesNumber_close
    have hskipBoth : ∀ steps frames blank rest, IsBlank blank →
        skipFrom (steps + restCost + itemCost) frame.content (frame :: frames)
            (blank ++ (byte :: more ++ (inside ++ rest))) =
          skipFrom steps .more frames rest := by
      intro steps frames blank rest hblank
      rw [hskip _ _ _ _ hblank (hends rest)]
      exact hskipRest steps frames rest
    refine ⟨restCost + itemCost + 1, ?_, ?_⟩
    · cases hseparator with
      | first => simp only [List.length_append, Bool.toNat_false, Bool.toNat_true] at *; omega
      | comma =>
        simp only [List.length_append, List.length_cons, Bool.toNat_false] at *
        omega
    · intro steps frames rest
      rw [← Nat.add_assoc, ← Nat.add_assoc, List.append_assoc, List.append_assoc]
      cases hseparator with
      | first hblank =>
        show skipFrom (_ + 1) .first (frame :: frames) _ = _
        rw [List.cons_append, skipFrom, skipSpace_token hblank hspace]
        simp only [if_neg hclose]
        exact hskipBoth steps frames [] rest isBlank_nil
      | @comma front back hfront hback =>
        show skipFrom (_ + 1) .more (frame :: frames) _ = _
        rw [List.append_assoc, List.cons_append, skipFrom, skipSpace_token hfront rfl]
        simp only [if_neg frame.comma_ne_close, if_true]
        exact hskipBoth steps frames back rest hback

end Items

/-- An array is skipped if its elements are, in one step more than they take together. -/
theorem skips_array {elements : List Bytes} (harray : IsArray elements bytes)
    (hvalues : ∀ element ∈ elements, IsValue element)
    (hskips : ∀ element ∈ elements, Skips .value element) : Skips .value bytes := by
  obtain ⟨inside, hitems, rfl⟩ := harray
  obtain ⟨cost, hcost, hskip⟩ := @skipFrom_items _ .array _ _ _ _ hitems (by
    rintro element helement _ rfl
    obtain ⟨byte, more, rfl, hbyte⟩ := (hvalues element helement).exists_start
    exact ⟨hskips _ helement, byte, more, rfl, hbyte.not_isSpace, hbyte.ne (by decide)⟩)
  refine ⟨cost + 1, ?_, ?_⟩
  · simp only [List.length_cons, Bool.toNat_true] at *
    omega
  · intro steps frames blank rest hblank hrest
    rw [List.cons_append, ← Nat.add_assoc, skipFrom, skipSpace_token hblank rfl]
    exact hskip steps frames rest

/-- A member is skipped if its value is, in one step more than that takes. -/
theorem skips_member {member : Member} (hwrites : member.Writes written)
    (hname : IsBody member.name) (hvalue : Skips .value member.value) :
    Skips .member written := by
  obtain ⟨front, back, hfront, hback, rfl⟩ := hwrites
  obtain ⟨cost, hcost, hskip⟩ := hvalue
  refine ⟨cost + 1, ?_, ?_⟩
  · simp only [List.length_append, List.length_cons]
    omega
  · intro steps frames blank rest hblank hrest
    have hskipName : skipName? (blank ++ (quote :: member.name ++ quote :: front ++
        colon :: (back ++ (member.value ++ rest)))) = some (back ++ (member.value ++ rest)) :=
      skipName?_eq_some_iff.2 ⟨blank, member.name, front, hblank, hname, hfront, rfl⟩
    simp only [List.append_assoc, List.cons_append] at hskipName ⊢
    rw [← Nat.add_assoc, skipFrom, hskipName]
    exact hskip steps frames back rest hback hrest

/-- An object is skipped if the values of its members are. -/
theorem skips_object {members : List Member} (hobject : IsObject members bytes)
    (hnames : ∀ member ∈ members, IsBody member.name)
    (hskips : ∀ member ∈ members, Skips .value member.value) : Skips .value bytes := by
  obtain ⟨inside, hitems, rfl⟩ := hobject
  obtain ⟨cost, hcost, hskip⟩ := @skipFrom_items _ .object _ _ _ _ hitems (by
    intro member hmember written hwrites
    refine ⟨skips_member hwrites (hnames member hmember) (hskips member hmember), ?_⟩
    obtain ⟨front, back, -, -, rfl⟩ := hwrites
    exact ⟨quote, _, rfl, rfl, by decide⟩)
  refine ⟨cost + 1, ?_, ?_⟩
  · simp only [List.length_cons, Bool.toNat_true] at *
    omega
  · intro steps frames blank rest hblank hrest
    rw [List.cons_append, ← Nat.add_assoc, skipFrom, skipSpace_token hblank rfl]
    exact hskip steps frames rest

/-- Every value is skipped: one case for each way to write one. -/
theorem IsValue.skips (h : IsValue bytes) : Skips .value bytes := by
  induction h with
  | word h => exact skips_word h
  | number h => exact skips_number h
  | string h => exact skips_string h
  | array harray helements ih => exact skips_array harray helements ih
  | object hobject hnames _ ih => exact skips_object hobject hnames ih

/-- A value is skipped as a whole, behind white space and in front of anything that could not go on
with it. -/
theorem skipValue?_append {blank value : Bytes} (hblank : IsBlank blank) (hvalue : IsValue value)
    (hrest : EndsNumber rest) : skipValue? (blank ++ value ++ rest) = some rest := by
  obtain ⟨cost, hcost, hskip⟩ := hvalue.skips
  have hsteps : ∃ steps, 2 * (blank ++ value ++ rest).length + 2 = steps + 1 + cost := by
    refine ⟨2 * (blank ++ value ++ rest).length + 1 - cost, ?_⟩
    simp only [List.length_append]
    omega
  obtain ⟨steps, hsteps⟩ := hsteps
  rw [skipValue?, hsteps, List.append_assoc, hskip _ _ _ _ hblank hrest]
  rfl

/-! ## A value ends in one place -/

/-- Two values at the same place are the same. -/
theorem IsValue.append_inj {value other : Bytes} {behind : Bytes} (hvalue : IsValue value)
    (hother : IsValue other) (hrest : EndsNumber rest) (hbehind : EndsNumber behind)
    (h : value ++ rest = other ++ behind) : value = other ∧ rest = behind := by
  have hskip := skipValue?_append isBlank_nil hvalue hrest
  rw [List.nil_append, h, ← List.nil_append other,
    skipValue?_append isBlank_nil hother hbehind] at hskip
  obtain rfl := Option.some.inj hskip
  exact ⟨List.append_cancel_right h, rfl⟩

end FirmwareTransparency.Json
