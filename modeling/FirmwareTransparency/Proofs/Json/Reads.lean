import FirmwareTransparency.Json.Decode
import FirmwareTransparency.Proofs.Json.Unique

/-!
# What a decoder reads

A decoder reads a way of writing if it gives a value exactly where the value stands written, behind
white space and in front of whatever comes after it. `Reads` says so, which makes it both the
soundness and the completeness of the decoder. Main statements: `quoted_reads` and `optional_reads`
for texts, and `document_eq_ok_iff`, which takes a decoder to whole documents.
-/

set_option autoImplicit false

namespace FirmwareTransparency.Json

variable {α β : Type} {bytes rest written : Bytes}

/-- A decoder gives a value exactly where it is written. -/
structure Reads (decoder : Decoder α) (writes : α → Bytes → Prop) : Prop where
  eq_ok_iff (bytes : Bytes) (a : α) (rest : Bytes) :
    decoder bytes = .ok (a, rest) ↔
      ∃ blank written, IsBlank blank ∧ writes a written ∧ bytes = blank ++ (written ++ rest)
  isValue (a : α) (written : Bytes) : writes a written → IsValue written

/-- A computation in two steps succeeds exactly if the first does and the second does from there. -/
theorem bind_eq_ok_iff {ε : Type} {first : Except ε α} {next : α → Except ε β} {b : β} :
    first >>= next = .ok b ↔ ∃ a, first = .ok a ∧ next a = .ok b := by
  cases first with
  | error => simp [bind, Except.bind]
  | ok a => simp [bind, Except.bind]

/-- A scan succeeds as a decoder exactly if it does as a scan. -/
theorem wellFormed_eq_ok_iff {scan : Option α} {a : α} :
    wellFormed scan = .ok a ↔ scan = some a := by
  cases scan <;> simp [wellFormed]

/-- What a decoder gives may be put into something else. -/
theorem Reads.map {decoder : Decoder α} {writes : α → Bytes → Prop} (h : Reads decoder writes)
    (f : α → β) :
    Reads (fun bytes => do let (a, rest) ← decoder bytes; return (f a, rest))
      (fun b written => ∃ a, b = f a ∧ writes a written) where
  eq_ok_iff bytes b rest := by
    simp only [bind_eq_ok_iff, pure, Except.pure, Except.ok.injEq]
    constructor
    · rintro ⟨⟨a, rest⟩, hread, heq⟩
      cases heq
      obtain ⟨blank, written, hblank, hwrites, hbytes⟩ := (h.eq_ok_iff _ _ _).1 hread
      exact ⟨blank, written, hblank, ⟨a, rfl, hwrites⟩, hbytes⟩
    · rintro ⟨blank, written, hblank, ⟨a, rfl, hwrites⟩, hbytes⟩
      exact ⟨(a, rest), (h.eq_ok_iff _ _ _).2 ⟨blank, written, hblank, hwrites, hbytes⟩, rfl⟩
  isValue := by
    rintro b written ⟨a, -, hwrites⟩
    exact h.isValue a written hwrites

/-- Two ways of writing that are the same are read by the same decoder. -/
theorem Reads.congr {decoder : Decoder α} {writes forms : α → Bytes → Prop}
    (h : Reads decoder writes) (hforms : ∀ a written, writes a written ↔ forms a written) :
    Reads decoder forms := by
  have heq : writes = forms := funext fun a => funext fun written => propext (hforms a written)
  exact heq ▸ h

/-- A document is read exactly if it is a written value with white space around it. -/
theorem document_eq_ok_iff {decoder : Decoder α} {writes : α → Bytes → Prop}
    (h : Reads decoder writes) {a : α} :
    document decoder bytes = .ok a ↔ Padded (writes a) bytes := by
  have hblank : ∀ back, (skipSpace back).isEmpty = true ↔ IsBlank back := fun back => by
    rw [List.isEmpty_iff, skipSpace, List.dropWhile_eq_nil_iff, IsBlank]
  constructor
  · intro hread
    obtain ⟨⟨a, back⟩, hdecode, hend⟩ := bind_eq_ok_iff.1 hread
    simp only at hend
    split_ifs at hend with hempty
    cases hend
    obtain ⟨front, core, hfront, hcore, rfl⟩ := (h.eq_ok_iff _ _ _).1 hdecode
    exact ⟨front, core, back, hfront, hcore, (hblank back).1 hempty, by simp⟩
  · rintro ⟨front, core, back, hfront, hcore, hback, rfl⟩
    have hdecode := (h.eq_ok_iff (front ++ core ++ back) a back).2
      ⟨front, core, hfront, hcore, List.append_assoc _ _ _⟩
    rw [document, hdecode]
    exact if_pos ((hblank back).2 hback)

/-! ## Strings -/

/-- Reads a string, with the given error for a value of another kind. -/
def quoted (other : Bytes → Error) : Decoder String := fun bytes =>
  match skipSpace bytes with
  | [] => .error .malformed
  | byte :: rest =>
    if byte = quote then wellFormed (text? rest) else .error (other (byte :: rest))

/-- A written text is a value. -/
theorem isValue_of_writesText {text : String} (h : WritesText text written) : IsValue written := by
  obtain ⟨body, hspells, rfl⟩ := h
  exact .string hspells.isBody

/-- A string is read exactly where its text is written, whatever the error for other values is. -/
theorem quoted_reads (other : Bytes → Error) : Reads (quoted other) WritesText where
  eq_ok_iff bytes text rest := by
    constructor
    · intro h
      unfold quoted at h
      split at h
      · cases h
      · next byte behind hskip =>
        split_ifs at h with hquote
        subst hquote
        obtain ⟨blank, hblank, rfl⟩ := exists_blank_of_skipSpace hskip
        obtain ⟨body, hspells, rfl⟩ := text?_eq_some_iff.1 (wellFormed_eq_ok_iff.1 h)
        exact ⟨blank, _, hblank, ⟨body, hspells, rfl⟩, by simp⟩
    · rintro ⟨blank, _, hblank, ⟨body, hspells, rfl⟩, rfl⟩
      have htext := text?_eq_some_iff.2 ⟨body, hspells, Eq.refl (body ++ quote :: rest)⟩
      simp only [List.cons_append, List.append_assoc, List.nil_append]
      rw [quoted, skipSpace_token hblank (by decide)]
      simp only [if_true, htext, wellFormed]
  isValue _ _ := isValue_of_writesText

/-- A text is read exactly where it is written. -/
theorem text_reads : Reads text WritesText := quoted_reads wrongKind

/-- The name of a member is read exactly where it is written. -/
theorem memberName_reads : Reads memberName WritesText := quoted_reads fun _ => .malformed

/-- A value, or null. -/
def WritesOptional (writes : α → Bytes → Prop) : Option α → Bytes → Prop
  | none, written => written = nullWord
  | some a, written => writes a written

/-- A value or null is read exactly where one of them is written, if no value begins like null. -/
theorem optional_reads {value : Decoder α} {writes : α → Bytes → Prop} (h : Reads value writes)
    (hnull : ∀ a written, writes a written → written.head? ≠ some 0x6e) :
    Reads (optional value) (WritesOptional writes) where
  eq_ok_iff bytes a rest := by
    constructor
    · intro hread
      unfold optional at hread
      split at hread
      · cases hread
      · next byte behind hskip =>
        obtain ⟨blank, hblank, rfl⟩ := exists_blank_of_skipSpace hskip
        split_ifs at hread with hbyte
        · obtain ⟨rest, hword, heq⟩ := bind_eq_ok_iff.1 hread
          cases heq
          rw [append_of_skipWord? (wellFormed_eq_ok_iff.1 hword)]
          exact ⟨blank, nullWord, hblank, rfl, rfl⟩
        · obtain ⟨⟨a, rest⟩, hvalue, heq⟩ := bind_eq_ok_iff.1 hread
          cases heq
          obtain ⟨space, written, hspace, hwrites, hbytes⟩ := (h.eq_ok_iff _ _ _).1 hvalue
          rw [hbytes, ← List.append_assoc]
          exact ⟨blank ++ space, written, hblank.append hspace, hwrites, rfl⟩
    · rintro ⟨blank, written, hblank, hwrites, rfl⟩
      cases a with
      | none =>
        obtain rfl : written = nullWord := hwrites
        have htoken : skipSpace (blank ++ (nullWord ++ rest)) = nullWord ++ rest :=
          skipSpace_token hblank rfl _
        rw [optional, htoken]
        show (wellFormed (skipWord? nullWord (nullWord ++ rest)) >>= fun rest => _) = _
        rw [skipWord?_append]
        rfl
      | some a =>
        obtain ⟨byte, more, rfl, hbyte⟩ := (h.isValue a written hwrites).exists_start
        -- The first byte decides which of the two is read.
        have hne : byte ≠ 0x6e := fun heq => hnull a _ hwrites (congrArg some heq)
        have hvalue := (h.eq_ok_iff (byte :: more ++ rest) a rest).2
          ⟨[], byte :: more, isBlank_nil, hwrites, rfl⟩
        rw [List.cons_append] at hvalue ⊢
        rw [optional, skipSpace_token hblank hbyte.not_isSpace]
        simp only [if_neg hne, hvalue]
        rfl
  isValue a written hwrites := by
    cases a with
    | none =>
      obtain rfl : written = nullWord := hwrites
      exact .word (by decide)
    | some a => exact h.isValue a written hwrites

end FirmwareTransparency.Json
