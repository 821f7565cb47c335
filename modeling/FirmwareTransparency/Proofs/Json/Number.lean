import FirmwareTransparency.Proofs.Json.Grammar
import Mathlib.Data.List.TakeDrop

/-!
# Numbers are scanned to their end

A number is read part by part, each part as far as it goes, so what is read is the whole number only
if the bytes behind it could not go on with it. In a document they never can: a number is followed
by white space, a comma, a closing byte or nothing. Main statements: `exists_isNumber` and
`number?_append`.
-/

set_option autoImplicit false

namespace FirmwareTransparency.Json

variable {bytes found rest written : Bytes}

/-- The bytes that a number goes on with behind its first digit. -/
def continuesNumber (byte : UInt8) : Bool :=
  isDigit byte || byte == 0x2e || byte == 0x65 || byte == 0x45

/-- Bytes in front of which a number ends. -/
def EndsNumber (rest : Bytes) : Prop := ∀ byte ∈ rest.head?, continuesNumber byte = false

/-- A number ends where the bytes do. -/
theorem endsNumber_nil : EndsNumber [] := fun _ h => by cases h

/-- A number ends in front of a byte that it cannot go on with. -/
theorem endsNumber_cons {byte : UInt8} (h : continuesNumber byte = false) (rest : Bytes) :
    EndsNumber (byte :: rest) := by
  intro first hfirst
  cases hfirst
  exact h

/-- A number ends in front of white space, and in front of none if it ends at what follows. -/
theorem EndsNumber.of_blank {blank : Bytes} (hblank : IsBlank blank) (hrest : EndsNumber rest) :
    EndsNumber (blank ++ rest) := by
  cases blank with
  | nil => exact hrest
  | cons byte blank =>
    refine endsNumber_cons ?_ (blank ++ rest)
    have hbyte := hblank byte List.mem_cons_self
    simp only [isSpace, Bool.or_eq_true, beq_iff_eq] at hbyte
    obtain ((rfl | rfl) | rfl) | rfl := hbyte <;> rfl

/-- Where a number ends there is no further digit. -/
theorem EndsNumber.not_isDigit (h : EndsNumber rest) :
    ∀ byte ∈ rest.head?, isDigit byte = false := by
  intro byte hbyte
  have hends := h byte hbyte
  simp only [continuesNumber, Bool.or_eq_false_iff] at hends
  exact hends.1.1.1

/-! ## Digits -/

/-- Digits are read up to the first byte that is none. -/
theorem digits_append (hwritten : ∀ byte ∈ written, isDigit byte = true)
    (hrest : ∀ byte ∈ rest.head?, isDigit byte = false) :
    digits (written ++ rest) = (written, rest) := by
  have htake : rest.takeWhile isDigit = [] := by
    cases rest with
    | nil => rfl
    | cons byte rest => exact List.takeWhile_cons_of_neg (by simp [hrest byte rfl])
  have hdrop : rest.dropWhile isDigit = rest := by
    cases rest with
    | nil => rfl
    | cons byte rest => exact List.dropWhile_cons_of_neg (by simp [hrest byte rfl])
  rw [digits, List.span_eq_takeWhile_dropWhile, List.takeWhile_append_of_pos hwritten,
    List.dropWhile_append_of_pos hwritten, htake, hdrop, List.append_nil]

/-- What is read as digits are digits, and they stand at the front. -/
theorem append_of_digits (h : digits bytes = (found, rest)) :
    bytes = found ++ rest ∧ ∀ byte ∈ found, isDigit byte = true := by
  rw [digits, List.span_eq_takeWhile_dropWhile] at h
  cases h
  exact ⟨List.takeWhile_append_dropWhile.symm, List.all_eq_true.1 List.all_takeWhile⟩

/-- One digit or more are read up to the first byte that is none. -/
theorem someDigits?_append (hwritten : IsDigits written)
    (hrest : ∀ byte ∈ rest.head?, isDigit byte = false) :
    someDigits? (written ++ rest) = some (written, rest) := by
  obtain ⟨hne, hdigits⟩ := hwritten
  cases written with
  | nil => exact absurd rfl hne
  | cons byte written => rw [someDigits?, digits_append hdigits hrest]

/-- What is read is one digit or more, and they stand at the front. -/
theorem append_of_someDigits? (h : someDigits? bytes = some (found, rest)) :
    bytes = found ++ rest ∧ IsDigits found := by
  unfold someDigits? at h
  split at h
  · cases h
  · next hne =>
    have hdigits := Option.some.inj h
    obtain ⟨rfl, hfound⟩ := append_of_digits hdigits
    refine ⟨rfl, ?_, hfound⟩
    rintro rfl
    exact hne rest hdigits

/-! ## The parts of a number -/

/-- Unless it begins with a zero, the whole part consists of all digits at the front. -/
theorem whole?_cons {first : UInt8} (hfirst : first ≠ 0x30) (rest : Bytes) :
    whole? (first :: rest) =
      if isDigit first then some (digits (first :: rest)) else none := by
  rw [whole?.eq_def]
  exact if_neg hfirst

/-- A whole part is read up to the first byte that is no digit. -/
theorem whole?_append (hwritten : IsWhole written)
    (hrest : ∀ byte ∈ rest.head?, isDigit byte = false) :
    whole? (written ++ rest) = some (written, rest) := by
  obtain rfl | ⟨⟨hne, hdigits⟩, hzero⟩ := hwritten
  · cases rest with
    | nil => rfl
    | cons next rest =>
      show (if isDigit next then none else some ([0x30], next :: rest)) = _
      rw [hrest next rfl]
      rfl
  · cases written with
    | nil => exact absurd rfl hne
    | cons first written =>
      have hfirst : first ≠ 0x30 := fun h => hzero (congrArg some h)
      rw [List.cons_append, whole?_cons hfirst, if_pos (hdigits first List.mem_cons_self),
        ← List.cons_append, digits_append hdigits hrest]

/-- What is read is a whole part, and it stands at the front. -/
theorem append_of_whole? (h : whole? bytes = some (found, rest)) :
    bytes = found ++ rest ∧ IsWhole found := by
  cases bytes with
  | nil => cases h
  | cons first bytes =>
    by_cases hzero : first = 0x30
    · subst hzero
      cases bytes with
      | nil =>
        cases h
        exact ⟨rfl, .inl rfl⟩
      | cons next bytes =>
        change (if isDigit next then none else some ([0x30], next :: bytes)) = _ at h
        split at h
        · cases h
        · cases h
          exact ⟨rfl, .inl rfl⟩
    · rw [whole?_cons hzero] at h
      split at h
      · next hfirst =>
        obtain ⟨hbytes, hfound⟩ := append_of_digits (Option.some.inj h)
        cases found with
        | nil =>
          -- The first byte is a digit, so it cannot have been left.
          have hnone := congrArg Prod.fst (Option.some.inj h)
          rw [digits, List.span_eq_takeWhile_dropWhile, List.takeWhile_cons_of_pos hfirst] at hnone
          cases hnone
        | cons byte found =>
          cases hbytes
          exact ⟨rfl, .inr ⟨⟨List.cons_ne_nil _ _, hfound⟩, fun h => hzero (Option.some.inj h)⟩⟩
      · cases h

/-- A fraction, or none, is read where neither a digit nor a point follows. -/
theorem fraction?_append (hwritten : IsFraction written)
    (hrest : ∀ byte ∈ rest.head?, isDigit byte = false ∧ byte ≠ 0x2e) :
    ∃ digits, fraction? (written ++ rest) = some (digits, rest) := by
  obtain rfl | ⟨digits, hdigits, rfl⟩ := hwritten
  · refine ⟨[], ?_⟩
    rw [List.nil_append]
    unfold fraction?
    split
    · next rest => exact absurd rfl (hrest 0x2e rfl).2
    · rfl
  · exact ⟨digits, someDigits?_append hdigits fun byte hbyte => (hrest byte hbyte).1⟩

/-- What is read is a fraction, or none, and it stands at the front. -/
theorem append_of_fraction? (h : fraction? bytes = some (found, rest)) :
    ∃ written, bytes = written ++ rest ∧ IsFraction written := by
  unfold fraction? at h
  split at h
  · obtain ⟨rfl, hfound⟩ := append_of_someDigits? h
    exact ⟨0x2e :: found, rfl, .inr ⟨found, hfound, rfl⟩⟩
  · cases h
    exact ⟨[], rfl, .inl rfl⟩

/-- The sign in front, if there is one. -/
theorem exists_sign (bytes : Bytes) :
    ∃ sign unsigned, sign ∈ [[], [0x2b], [0x2d]] ∧ bytes = sign ++ unsigned ∧
      (sign = [] → ∀ byte ∈ unsigned.head?, byte ≠ 0x2b ∧ byte ≠ 0x2d) := by
  cases bytes with
  | nil => exact ⟨[], [], by decide, rfl, fun _ _ h => by cases h⟩
  | cons byte bytes =>
    by_cases hplus : byte = 0x2b
    · exact ⟨[0x2b], bytes, by decide, by rw [hplus]; rfl, fun h => by cases h⟩
    · by_cases hminus : byte = 0x2d
      · exact ⟨[0x2d], bytes, by decide, by rw [hminus]; rfl, fun h => by cases h⟩
      · refine ⟨[], byte :: bytes, by decide, rfl, fun _ first hfirst => ?_⟩
        cases hfirst
        exact ⟨hplus, hminus⟩

/-- Behind the letter and the sign an exponent is one digit or more. -/
theorem exponent?_cons {mark : UInt8} (hmark : mark = 0x65 ∨ mark = 0x45) {sign : Bytes}
    (hsign : sign ∈ [[], [0x2b], [0x2d]]) {unsigned : Bytes}
    (hunsigned : sign = [] → ∀ byte ∈ unsigned.head?, byte ≠ 0x2b ∧ byte ≠ 0x2d) :
    ∃ negative, exponent? (mark :: sign ++ unsigned) =
      (someDigits? unsigned).map fun found => (some ⟨negative, found.1⟩, found.2) := by
  simp only [List.mem_cons, List.not_mem_nil, or_false] at hsign
  rw [List.cons_append, exponent?.eq_def]
  obtain rfl | rfl | rfl := hsign
  · refine ⟨false, ?_⟩
    cases unsigned with
    | nil => exact if_pos hmark
    | cons byte rest =>
      obtain ⟨hplus, hminus⟩ := hunsigned rfl byte rfl
      simp only [if_pos hmark, List.nil_append, List.cons.injEq, hplus, hminus, false_and,
        imp_self, implies_true]
      cases someDigits? (byte :: rest) <;> rfl
  · refine ⟨false, ?_⟩
    simp only [if_pos hmark, List.cons_append, List.nil_append]
    cases someDigits? unsigned <;> rfl
  · refine ⟨true, ?_⟩
    simp only [if_pos hmark, List.cons_append, List.nil_append]
    cases someDigits? unsigned <;> rfl

/-- An exponent, or none, is read where a number ends behind it. -/
theorem exponent?_append (hwritten : IsExponent written) (hrest : EndsNumber rest) :
    ∃ exponent, exponent? (written ++ rest) = some (exponent, rest) := by
  obtain rfl | ⟨mark, sign, digits, hmark, hsign, hdigits, rfl⟩ := hwritten
  · refine ⟨none, ?_⟩
    cases rest with
    | nil => rfl
    | cons byte rest =>
      have hbyte := hrest byte rfl
      simp only [continuesNumber, Bool.or_eq_false_iff, beq_eq_false_iff_ne] at hbyte
      rw [List.nil_append, exponent?.eq_def]
      exact if_neg (not_or.2 ⟨hbyte.1.2, hbyte.2⟩)
  · have hunsigned : sign = [] → ∀ byte ∈ (digits ++ rest).head?, byte ≠ 0x2b ∧ byte ≠ 0x2d := by
      intro _ byte hbyte
      obtain ⟨hne, hdigits⟩ := hdigits
      cases digits with
      | nil => exact absurd rfl hne
      | cons digit digits =>
        cases hbyte
        have hdigit := hdigits byte List.mem_cons_self
        constructor <;> rintro rfl <;> exact absurd hdigit (by decide)
    obtain ⟨negative, hexponent⟩ := exponent?_cons hmark hsign hunsigned
    rw [someDigits?_append hdigits hrest.not_isDigit] at hexponent
    exact ⟨_, by rw [List.append_assoc, hexponent]; rfl⟩

/-- What is read is an exponent, or none, and it stands at the front. -/
theorem append_of_exponent? {exponent : Option Exponent}
    (h : exponent? bytes = some (exponent, rest)) :
    ∃ written, bytes = written ++ rest ∧ IsExponent written := by
  cases bytes with
  | nil =>
    cases h
    exact ⟨[], rfl, .inl rfl⟩
  | cons mark bytes =>
    by_cases hmark : mark = 0x65 ∨ mark = 0x45
    · obtain ⟨sign, unsigned, hsign, rfl, hunsigned⟩ := exists_sign bytes
      obtain ⟨negative, hexponent⟩ := exponent?_cons hmark hsign hunsigned
      rw [← List.cons_append, hexponent, Option.map_eq_some_iff] at h
      obtain ⟨⟨digits, rest⟩, hfound, heq⟩ := h
      cases heq
      obtain ⟨rfl, hdigits⟩ := append_of_someDigits? hfound
      exact ⟨mark :: sign ++ digits, by simp, .inr ⟨mark, sign, digits, hmark, hsign, hdigits, rfl⟩⟩
    · rw [exponent?.eq_def] at h
      simp only [if_neg hmark] at h
      cases h
      exact ⟨[], rfl, .inl rfl⟩

/-! ## Numbers -/

/-- A whole part begins with a digit. -/
theorem IsWhole.exists_digit (h : IsWhole written) :
    ∃ digit more, written = digit :: more ∧ isDigit digit = true := by
  obtain rfl | ⟨⟨hne, hdigits⟩, -⟩ := h
  · exact ⟨0x30, [], rfl, rfl⟩
  · cases written with
    | nil => exact absurd rfl hne
    | cons digit more => exact ⟨digit, more, rfl, hdigits digit List.mem_cons_self⟩

/-- Behind a fraction stands a letter or the end of the number. -/
theorem head_exponent (hwritten : IsExponent written) (hrest : EndsNumber rest) :
    ∀ byte ∈ (written ++ rest).head?, isDigit byte = false ∧ byte ≠ 0x2e := by
  intro byte hbyte
  obtain rfl | ⟨mark, sign, digits, hmark, -, -, rfl⟩ := hwritten
  · have hends := hrest byte hbyte
    simp only [continuesNumber, Bool.or_eq_false_iff, beq_eq_false_iff_ne] at hends
    exact ⟨hends.1.1.1, hends.1.1.2⟩
  · cases hbyte
    obtain rfl | rfl := hmark <;> decide

/-- A fraction, or what follows if there is none, does not begin with a digit. -/
theorem head_fraction (hwritten : IsFraction written)
    (hrest : ∀ byte ∈ rest.head?, isDigit byte = false) :
    ∀ byte ∈ (written ++ rest).head?, isDigit byte = false := by
  obtain rfl | ⟨digits, -, rfl⟩ := hwritten
  · exact hrest
  · intro byte hbyte
    cases hbyte
    decide

/-- A number without its sign. -/
def unsigned? (bytes : Bytes) : Option (Number × Bytes) := do
  let (whole, rest) ← whole? bytes
  let (fraction, rest) ← fraction? rest
  let (exponent, rest) ← exponent? rest
  return (⟨whole, fraction, exponent⟩, rest)

/-- Behind a minus sign a number is read as one without. -/
theorem number?_minus (rest : Bytes) : number? (0x2d :: rest) = unsigned? rest := rfl

/-- Without a minus sign in front nothing is dropped. -/
theorem number?_of_head?_ne (h : bytes.head? ≠ some 0x2d) : number? bytes = unsigned? bytes := by
  cases bytes with
  | nil => rfl
  | cons byte bytes =>
    have hbyte : byte ≠ 0x2d := fun hbyte => h (congrArg some hbyte)
    simp [number?, unsigned?, hbyte]

/-- A number is read exactly if its three parts are, one after the other. -/
theorem unsigned?_eq_some_iff {number : Number} :
    unsigned? bytes = some (number, rest) ↔
      ∃ behindWhole behindFraction, whole? bytes = some (number.whole, behindWhole) ∧
        fraction? behindWhole = some (number.fraction, behindFraction) ∧
        exponent? behindFraction = some (number.exponent, rest) := by
  simp only [unsigned?, Option.bind_eq_bind, Option.bind_eq_some_iff]
  constructor
  · rintro ⟨⟨whole, behindWhole⟩, hwhole, ⟨fraction, behindFraction⟩, hfraction,
      ⟨exponent, rest⟩, hexponent, heq⟩
    cases heq
    exact ⟨_, _, hwhole, hfraction, hexponent⟩
  · rintro ⟨behindWhole, behindFraction, hwhole, hfraction, hexponent⟩
    exact ⟨_, hwhole, _, hfraction, _, hexponent, rfl⟩

/-- What is read as a number is one. -/
theorem exists_isNumber {number : Number} (h : number? bytes = some (number, rest)) :
    ∃ written, IsNumber written ∧ bytes = written ++ rest := by
  have hsign : ∃ sign unsigned, sign ∈ [[], [0x2d]] ∧ bytes = sign ++ unsigned ∧
      unsigned? unsigned = some (number, rest) := by
    by_cases hminus : bytes.head? = some 0x2d
    · obtain ⟨unsigned, rfl⟩ := List.head?_eq_some_iff.1 hminus
      rw [number?_minus] at h
      exact ⟨[0x2d], unsigned, by decide, rfl, h⟩
    · rw [number?_of_head?_ne hminus] at h
      exact ⟨[], bytes, by decide, rfl, h⟩
  obtain ⟨sign, unsigned, hsign, rfl, hunsigned⟩ := hsign
  obtain ⟨_, _, hwhole, hfraction, hexponent⟩ := unsigned?_eq_some_iff.1 hunsigned
  obtain ⟨rfl, isWhole⟩ := append_of_whole? hwhole
  obtain ⟨fraction, rfl, isFraction⟩ := append_of_fraction? hfraction
  obtain ⟨exponent, rfl, isExponent⟩ := append_of_exponent? hexponent
  exact ⟨_, ⟨sign, number.whole, fraction, exponent, hsign, isWhole, isFraction, isExponent, rfl⟩,
    by simp only [List.append_assoc]⟩

/-- A number is read as a whole in front of anything that it could not go on with. -/
theorem number?_append (hwritten : IsNumber written) (hrest : EndsNumber rest) :
    ∃ number, number? (written ++ rest) = some (number, rest) := by
  obtain ⟨sign, whole, fraction, exponent, hsign, hwhole, hfraction, hexponent, rfl⟩ := hwritten
  have hbehindFraction := head_exponent hexponent hrest
  have hbehindWhole := head_fraction hfraction fun byte hbyte => (hbehindFraction byte hbyte).1
  obtain ⟨power, hpower⟩ := exponent?_append hexponent hrest
  obtain ⟨digits, hdigits⟩ := fraction?_append hfraction hbehindFraction
  have hunsigned : unsigned? (whole ++ (fraction ++ (exponent ++ rest))) =
      some (⟨whole, digits, power⟩, rest) :=
    unsigned?_eq_some_iff.2 ⟨_, _, whole?_append hwhole hbehindWhole, hdigits, hpower⟩
  refine ⟨⟨whole, digits, power⟩, ?_⟩
  simp only [List.append_assoc]
  simp only [List.mem_cons, List.not_mem_nil, or_false] at hsign
  obtain rfl | rfl := hsign
  · rw [List.nil_append, number?_of_head?_ne, hunsigned]
    obtain ⟨digit, more, rfl, hdigit⟩ := hwhole.exists_digit
    intro hminus
    cases hminus
    exact absurd hdigit (by decide)
  · exact (number?_minus _).trans hunsigned

end FirmwareTransparency.Json
