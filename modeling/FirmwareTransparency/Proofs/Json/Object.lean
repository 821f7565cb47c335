import FirmwareTransparency.Json.Write
import FirmwareTransparency.Proofs.Json.Text

/-!
# Objects are read back

Written members enter a draft one after the other, each through the field of its name. `Fills` is
that run of a draft through a list of members, and one step of `members` takes one step of it. Main
statements: `record_decodes` says that an object is read back if its members fill a draft that is
complete, and `single_decodes` is the case of one required member.
-/

set_option autoImplicit false

namespace FirmwareTransparency.Json

variable {δ α : Type} {shape : Shape δ α}

/-- Members enter a draft in their order and leave another one behind. -/
inductive Fills (shape : Shape δ α) : δ → List (String × Bytes) → δ → Prop where
  | nil (draft : δ) : Fills shape draft [] draft
  | cons {draft next last : δ} {name : String} {value : Bytes} {members : List (String × Bytes)}
      {field : Field δ} (hfield : shape.fields.find? (fun field => field.name == name) = some field)
      (hunset : field.isSet draft = false) (hread : Decodes (field.read draft) value next)
      (hrest : Fills shape next members last) : Fills shape draft ((name, value) :: members) last

/-- Members fill a draft in two runs, the second from where the first ended. -/
theorem Fills.append {draft next last : δ} {front back : List (String × Bytes)}
    (hfront : Fills shape draft front next) (hback : Fills shape next back last) :
    Fills shape draft (front ++ back) last := by
  induction hfront with
  | nil draft => exact hback
  | cons hfield hunset hread _ ih => exact .cons hfield hunset hread (ih hback)

/-! ## The written form -/

/-- The first member is written without a comma, and every other one behind a comma. -/
theorem writeMembers_cons (member : String × Bytes) (members : List (String × Bytes)) :
    writeMembers (member :: members) =
      writeMember member ++ members.flatMap fun member => comma :: writeMember member := by
  induction members generalizing member with
  | nil => simp [writeMembers]
  | cons next members ih => simp [writeMembers, ih]

/-- Members are no more than the bytes that they are written in. -/
theorem length_le_length_flatMap (members : List (String × Bytes)) :
    members.length ≤ (members.flatMap fun member => comma :: writeMember member).length := by
  induction members with
  | nil => exact Nat.le_refl _
  | cons member members ih =>
    simp only [List.flatMap_cons, List.length_append, List.length_cons]
    omega

/-! ## One member -/

/-- Where a member stands it enters the draft, and the members behind it are read next. -/
theorem members_step {steps : Nat} {isFirst : Bool} {draft next : δ} {bytes value rest : Bytes}
    {name : String} {field : Field δ}
    (hnext : nextMember isFirst bytes = .ok (some (writeMember (name, value) ++ rest)))
    (hfield : shape.fields.find? (fun field => field.name == name) = some field)
    (hunset : field.isSet draft = false) (hread : Decodes (field.read draft) value next) :
    members shape (steps + 1) isFirst draft bytes = members shape steps false next rest := by
  have hname : memberName (writeMember (name, value) ++ rest) =
      .ok (name, colon :: (value ++ rest)) := by
    rw [writeMember, List.append_assoc, List.cons_append]
    exact memberName_decodes name _
  have hcolon : expect colon (colon :: (value ++ rest)) = .ok (value ++ rest) := rfl
  rw [members, hnext]
  simp only [bind, Except.bind, hname, hfield, hunset, hcolon, hread rest]
  rfl

/-- The end of the object ends the run. -/
theorem members_end (steps : Nat) (isFirst : Bool) (draft : δ) (rest : Bytes) :
    members shape (steps + 1) isFirst draft (closeBrace :: rest) = .ok (draft, rest) :=
  rfl

/-! ## All members -/

/-- Members that fill a draft are read up to the closing brace, given a step for each and one for
the brace. -/
theorem members_of_fills {steps : Nat} {draft last : δ} {list : List (String × Bytes)}
    (hfills : Fills shape draft list last) (hsteps : list.length < steps) (rest : Bytes) :
    members shape steps false draft
        ((list.flatMap fun member => comma :: writeMember member) ++ closeBrace :: rest) =
      .ok (last, rest) := by
  induction hfills generalizing steps with
  | nil draft =>
    obtain ⟨steps, rfl⟩ := Nat.exists_eq_add_of_lt hsteps
    exact members_end _ false draft rest
  | @cons draft next last name value list field hfield hunset hread _ ih =>
    cases steps with
    | zero => exact absurd hsteps (Nat.not_lt_zero _)
    | succ steps =>
      rw [List.flatMap_cons, List.append_assoc]
      exact (members_step rfl hfield hunset hread).trans (ih (Nat.lt_of_succ_lt_succ hsteps))

/-- An object is read back if its members fill a draft that is complete. -/
theorem record_decodes {draft : δ} {list : List (String × Bytes)} {a : α}
    (hfills : Fills shape shape.blank list draft) (hfinish : shape.finish draft = .ok a) :
    Decodes (record shape) (writeObject list) a := by
  intro rest
  have hmembers : ∀ steps, list.length < steps →
      members shape steps true shape.blank (writeMembers list ++ closeBrace :: rest) =
        .ok (draft, rest) := by
    intro steps hsteps
    obtain ⟨steps, rfl⟩ := Nat.exists_eq_add_of_lt hsteps
    cases hfills with
    | nil => exact members_end _ true _ rest
    | @cons _ next _ name value list field hfield hunset hread hrest =>
      rw [writeMembers_cons, List.append_assoc]
      refine (members_step rfl hfield hunset hread).trans ?_
      apply members_of_fills hrest
      simp only [List.length_cons]
      omega
  -- A written member takes a byte or more, so the bound on the steps is never reached.
  have hlength : list.length < (writeMembers list ++ closeBrace :: rest).length + 1 := by
    cases list with
    | nil => exact Nat.succ_pos _
    | cons member list =>
      have hle := length_le_length_flatMap list
      simp only [writeMembers_cons, List.length_append, List.length_cons]
      omega
  have hrun := hmembers _ hlength
  rw [writeObject]
  simp only [List.cons_append, List.append_assoc, List.nil_append]
  show (members shape _ true shape.blank _ >>= fun result => _) = _
  rw [hrun]
  simp only [bind, Except.bind, hfinish]
  rfl

/-- An object of one required member is read back if the member's value is. -/
theorem single_decodes {name : String} {strict : Bool} {value : Decoder α} {bytes : Bytes} {a : α}
    (hvalue : Decodes value bytes a) :
    Decodes (record (single name strict value)) (writeObject [(name, bytes)]) a := by
  obtain ⟨field, hfields, hname, hset, hread⟩ : ∃ field,
      (single name strict value).fields = [field] ∧ field.name = name ∧
        field.isSet = Option.isSome ∧ Decodes (field.read none) bytes (some a) := by
    refine ⟨_, rfl, rfl, rfl, fun rest => ?_⟩
    show (value (bytes ++ rest) >>= fun result => .ok (some result.1, result.2)) = _
    rw [hvalue rest]
    rfl
  have hfield : (single name strict value).fields.find? (fun field => field.name == name) =
      some field := by
    simp [hfields, hname]
  have hunset : field.isSet none = false := by
    rw [hset]
    rfl
  exact record_decodes (.cons hfield hunset hread (.nil _)) rfl

/-- A value that is read back is read back as a whole document. -/
theorem document_of_decodes {value : Decoder α} {bytes : Bytes} {a : α}
    (hvalue : Decodes value bytes a) : document value bytes = .ok a := by
  have hbytes := hvalue []
  rw [List.append_nil] at hbytes
  unfold document
  rw [hbytes]
  rfl

end FirmwareTransparency.Json
