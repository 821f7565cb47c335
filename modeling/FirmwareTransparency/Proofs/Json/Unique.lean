import FirmwareTransparency.Proofs.Json.Skip

/-!
# An object has its members in one way only

A name ends at the first quote that is no escape, a value where skipping stops, and between them
stand only white space and the structural bytes. Main statements: `IsObject.members_eq`, and
`spells_inj` for the text of a string.
-/

set_option autoImplicit false

namespace FirmwareTransparency.Json

variable {rest behind written other inside outside : Bytes} {member twin : Member}

/-- A body spells one text. -/
theorem spells_inj {body : Bytes} {a b : String} (ha : Spells a.toList body)
    (hb : Spells b.toList body) : a = b := by
  have hread := text?_eq_some_iff.2 ⟨body, ha, Eq.refl (body ++ quote :: [])⟩
  rw [text?_eq_some_iff.2 ⟨body, hb, rfl⟩] at hread
  cases hread
  rfl

/-- A body ends at its closing quote. -/
theorem IsBody.append_inj {body other : Bytes} (hbody : IsBody body) (hother : IsBody other)
    (h : body ++ quote :: rest = other ++ quote :: behind) : body = other ∧ rest = behind := by
  obtain ⟨list, hlist⟩ := hbody
  obtain ⟨otherList, hotherList⟩ := hother
  have hpieces := pieces_eq_some_iff.2 ⟨body, hlist, Eq.refl (body ++ quote :: rest)⟩
  rw [h, pieces_eq_some_iff.2 ⟨other, hotherList, rfl⟩] at hpieces
  cases hpieces
  exact ⟨List.append_cancel_right h, rfl⟩

/-- White space ends at the first token. -/
theorem IsBlank.append_inj {blank space : Bytes} {byte first : UInt8} (hblank : IsBlank blank)
    (hspace : IsBlank space) (hbyte : isSpace byte = false) (hfirst : isSpace first = false)
    (h : blank ++ byte :: rest = space ++ first :: behind) :
    byte :: rest = first :: behind := by
  rw [← skipSpace_token hblank hbyte, h, skipSpace_token hspace hfirst]

/-- What stands behind a separator is the same wherever the bytes are. -/
theorem Separator.append_inj {isFirst : Bool} {separator divider : Bytes} {byte first : UInt8}
    (hseparator : Separator isFirst separator) (hdivider : Separator isFirst divider)
    (hbyte : isSpace byte = false) (hfirst : isSpace first = false)
    (h : separator ++ byte :: rest = divider ++ first :: behind) :
    byte :: rest = first :: behind := by
  cases hseparator with
  | first hblank =>
    cases hdivider with
    | first hspace => exact hblank.append_inj hspace hbyte hfirst h
  | comma hfront hback =>
    cases hdivider with
    | comma hleft hright =>
      simp only [List.append_assoc, List.cons_append] at h
      have hinner := hfront.append_inj hleft (by decide) (by decide) h
      exact hback.append_inj hright hbyte hfirst (List.cons.inj hinner).2

/-! ## Members -/

/-- A written member begins with a quote. -/
theorem Member.Writes.exists_start (h : member.Writes written) :
    ∃ more, written = quote :: more := by
  obtain ⟨front, back, -, -, rfl⟩ := h
  exact ⟨_, rfl⟩

/-- Two members that the same bytes begin with are one, if numbers end behind both. -/
theorem Member.Writes.append_inj (hmember : member.Writes written) (htwin : twin.Writes other)
    (hwellFormed : member.WellFormed) (htwinWellFormed : twin.WellFormed)
    (hrest : EndsNumber rest) (hbehind : EndsNumber behind)
    (h : written ++ rest = other ++ behind) : member = twin ∧ rest = behind := by
  obtain ⟨front, back, hfront, hback, rfl⟩ := hmember
  obtain ⟨left, right, hleft, hright, rfl⟩ := htwin
  obtain ⟨name, value⟩ := member
  obtain ⟨twinName, twinValue⟩ := twin
  obtain ⟨hname, hvalue⟩ := hwellFormed
  obtain ⟨htwinName, htwinValue⟩ := htwinWellFormed
  simp only [List.append_assoc, List.cons_append, List.cons.injEq, true_and] at h
  obtain ⟨hnames, h⟩ := hname.append_inj htwinName h
  obtain ⟨-, h⟩ := List.cons.inj (hfront.append_inj hleft (by decide) (by decide) h)
  obtain ⟨byte, more, hbyte, hstart⟩ := hvalue.exists_start
  obtain ⟨first, following, hfirst, htwinStart⟩ := htwinValue.exists_start
  have hvalues : value ++ rest = twinValue ++ behind := by
    simp only at hbyte hfirst
    rw [hbyte, hfirst] at h ⊢
    exact hback.append_inj hright hstart.not_isSpace htwinStart.not_isSpace h
  obtain ⟨hvalues, h⟩ := hvalue.append_inj htwinValue hrest hbehind hvalues
  simp only at hnames hvalues
  rw [hnames, hvalues]
  exact ⟨rfl, h⟩

/-- Where a member stands the object does not end. -/
theorem Separator.ne_end {isFirst : Bool} {separator blank : Bytes}
    (hseparator : Separator isFirst separator) (hblank : IsBlank blank) :
    separator ++ quote :: rest ≠ blank ++ closeBrace :: behind := by
  intro h
  cases hseparator with
  | first hfront => cases hfront.append_inj hblank (by decide) (by decide) h
  | comma hfront =>
    simp only [List.append_assoc, List.cons_append] at h
    cases hfront.append_inj hblank (by decide) (by decide) h

/-- The same bytes hold the same members. -/
theorem Items.members_eq {isFirst : Bool} {members twins : List Member}
    (hmembers : Items Member.Writes closeBrace isFirst members inside)
    (htwins : Items Member.Writes closeBrace isFirst twins outside)
    (hwellFormed : ∀ member ∈ members, member.WellFormed)
    (htwinsWellFormed : ∀ twin ∈ twins, twin.WellFormed)
    (h : inside ++ rest = outside ++ behind) : members = twins := by
  -- A list that ends and one that goes on differ in the first byte behind the white space.
  induction hmembers generalizing twins outside with
  | done hblank =>
    cases htwins with
    | done => rfl
    | next hseparator hitem =>
      obtain ⟨more, rfl⟩ := hitem.exists_start
      simp only [List.append_assoc, List.cons_append] at h
      exact absurd h.symm (hseparator.ne_end hblank)
  | @next isFirst separator written inside member members hseparator hitem hrest ih =>
    obtain ⟨more, hstart⟩ := hitem.exists_start
    cases htwins with
    | done hblank =>
      rw [hstart] at h
      simp only [List.append_assoc, List.cons_append] at h
      exact absurd h (hseparator.ne_end hblank)
    | @next _ divider other outside twin twins hdivider htwin htwinRest =>
      obtain ⟨hmember, hmembers⟩ := List.forall_mem_cons.1 hwellFormed
      obtain ⟨htwinMember, htwins⟩ := List.forall_mem_cons.1 htwinsWellFormed
      obtain ⟨following, htwinStart⟩ := htwin.exists_start
      have hitems : written ++ (inside ++ rest) = other ++ (outside ++ behind) := by
        rw [hstart, htwinStart] at h ⊢
        simp only [List.append_assoc, List.cons_append] at h
        exact hseparator.append_inj hdivider rfl rfl h
      obtain ⟨rfl, hrests⟩ := hitem.append_inj htwin hmember htwinMember
        (hrest.endsNumber rfl rest) (htwinRest.endsNumber rfl behind) hitems
      rw [ih htwinRest hmembers htwins hrests]

/-- An object has one list of members. -/
theorem IsObject.members_eq {bytes : Bytes} {members twins : List Member}
    (hmembers : IsObject members bytes) (htwins : IsObject twins bytes)
    (hwellFormed : ∀ member ∈ members, member.WellFormed)
    (htwinsWellFormed : ∀ twin ∈ twins, twin.WellFormed) : members = twins := by
  obtain ⟨inside, hmembers, rfl⟩ := hmembers
  obtain ⟨outside, htwins, h⟩ := htwins
  obtain rfl := (List.cons.inj h).2
  exact hmembers.members_eq htwins hwellFormed htwinsWellFormed (Eq.refl (inside ++ []))

/-- Two ways to see a document see the same value. -/
theorem Padded.exists_core {bytes : Bytes} {p q : Bytes → Prop} (hp : Padded p bytes)
    (hq : Padded q bytes) (hpValue : ∀ core, p core → IsValue core)
    (hqValue : ∀ core, q core → IsValue core) :
    ∃ core, p core ∧ q core := by
  obtain ⟨front, core, back, hfront, hcore, hback, rfl⟩ := hp
  obtain ⟨left, other, right, hleft, hother, hright, heq⟩ := hq
  obtain ⟨byte, more, hbyte, hstart⟩ := (hpValue core hcore).exists_start
  obtain ⟨first, following, hfirst, hotherStart⟩ := (hqValue other hother).exists_start
  have hends : ∀ back, IsBlank back → EndsNumber back := by
    intro back hback
    rw [← List.append_nil back]
    exact endsNumber_nil.of_blank hback
  have hcores : core ++ back = other ++ right := by
    rw [hbyte, hfirst] at heq ⊢
    rw [List.append_assoc, List.append_assoc] at heq
    exact hfront.append_inj hleft hstart.not_isSpace hotherStart.not_isSpace heq
  obtain ⟨rfl, -⟩ := (hpValue core hcore).append_inj (hqValue other hother) (hends back hback)
    (hends right hright) hcores
  exact ⟨core, hcore, hother⟩

end FirmwareTransparency.Json
