import FirmwareTransparency.Proofs.Json.Choice
import FirmwareTransparency.Proofs.Json.Elements
import FirmwareTransparency.TrustStore

/-!
# Documents that list logs

A log stands in a document as an object of three members, in any order and with any white space, and
its texts may spell each character in any of its ways. Main statement: `document_of_writes` says
that such a document is read as the list of the logs' texts.
-/

set_option autoImplicit false

namespace FirmwareTransparency.TrustStore

open Json

/-- One of the three parts of a log, as a member of its object gives it. -/
inductive LogPart where
  | identity (text : String)
  | algorithm (known : Algorithm)
  | key (text : String)

namespace LogPart

/-- The name of the member that gives the part. -/
def name : LogPart → String
  | .identity _ => "identity"
  | .algorithm _ => "algorithm"
  | .key _ => "public_key"

/-- How the value of the member is written. -/
def Writes : LogPart → Bytes → Prop
  | .identity text => WritesText text
  | .algorithm known => WritesChoice Algorithm.names known
  | .key text => WritesText text

end LogPart

variable {part other : LogPart} {given : List LogPart} {draft : LogDraft} {members : List Member}
  {texts : List LogText} {written : Bytes}

/-! ## Drafts by part -/

namespace LogDraft

/-- The draft with a part put into it. -/
def put (draft : LogDraft) : LogPart → LogDraft
  | .identity text => { draft with identity := some text }
  | .algorithm known => { draft with algorithm := some known }
  | .key text => { draft with key := some text }

/-- Whether the draft has a part of the same name. -/
def holds (draft : LogDraft) : LogPart → Bool
  | .identity _ => draft.identity.isSome
  | .algorithm _ => draft.algorithm.isSome
  | .key _ => draft.key.isSome

/-- A part leaves those of other names as they are. -/
theorem holds_put (hname : other.name ≠ part.name) :
    (draft.put part).holds other = draft.holds other := by
  cases part <;> cases other <;> first | rfl | exact absurd rfl hname

/-- Two parts of different names can be put in either order. -/
theorem put_comm (hname : other.name ≠ part.name) :
    (draft.put part).put other = (draft.put other).put part := by
  cases part <;> cases other <;> first | rfl | exact absurd rfl hname

/-- Parts of different names may be put in any order. -/
theorem foldl_put_of_perm {others : List LogPart} (hperm : given.Perm others)
    (hnodup : (given.map LogPart.name).Nodup) (draft : LogDraft) :
    given.foldl put draft = others.foldl put draft := by
  apply hperm.foldl_eq'
  intro first hfirst second hsecond draft
  by_cases hname : first.name = second.name
  · rw [List.inj_on_of_nodup_map hnodup hfirst hsecond hname]
  · exact put_comm (Ne.symm hname)

end LogDraft

/-- The parts of a log. -/
def LogText.parts (log : LogText) : List LogPart :=
  [.identity log.identity, .algorithm log.algorithm, .key log.key]

/-- No two parts of a log have one name. -/
theorem LogText.nodup_parts (log : LogText) : (log.parts.map LogPart.name).Nodup := by
  change ["identity", "algorithm", "public_key"].Nodup
  decide

/-- A draft into which all parts of a log were put is that log. -/
theorem LogText.finish_parts (log : LogText) :
    logShape.finish (log.parts.foldl LogDraft.put logShape.blank) = .ok log :=
  rfl

/-! ## One log -/

/-- How the value of a field's member enters a draft. -/
def writesPart (field : Json.Field LogDraft) (draft next : LogDraft) (written : Bytes) : Prop :=
  ∃ part : LogPart, part.name = field.name ∧ next = draft.put part ∧ part.Writes written

/-- A part is read where its value is, if the parts of the field's name are those of one kind. -/
theorem part_reads {α : Type} {value : Decoder α} {writes : α → Bytes → Prop}
    (h : Reads value writes) (kind : α → LogPart) {field : Json.Field LogDraft} (draft : LogDraft)
    (hwrites : ∀ a, (kind a).Writes = writes a) (hname : ∀ a, (kind a).name = field.name)
    (hkind : ∀ part : LogPart, part.name = field.name → ∃ a, part = kind a) :
    Reads (fun bytes => do let (a, rest) ← value bytes; return (draft.put (kind a), rest))
      (writesPart field draft) := by
  refine (h.map fun a => draft.put (kind a)).congr fun next written => ⟨?_, ?_⟩
  · rintro ⟨a, rfl, hvalue⟩
    refine ⟨kind a, hname a, rfl, ?_⟩
    rwa [hwrites]
  · rintro ⟨part, hpart, rfl, hvalue⟩
    obtain ⟨a, rfl⟩ := hkind part hpart
    rw [hwrites] at hvalue
    exact ⟨a, rfl, hvalue⟩

/-- Each field of a log's object reads the part of its name. -/
theorem logShape_reads : ∀ field ∈ logShape.fields, ∀ draft,
    Reads (field.read draft) (writesPart field draft) := by
  refine List.forall_mem_cons.2 ⟨?_, List.forall_mem_cons.2 ⟨?_, List.forall_mem_cons.2 ⟨?_,
    List.forall_mem_nil _⟩⟩⟩
  · intro draft
    apply part_reads text_reads LogPart.identity draft (fun _ => rfl) fun _ => rfl
    intro part hname
    cases part <;> simp [LogPart.name] at hname ⊢
  · intro draft
    apply part_reads (choice_reads _) LogPart.algorithm draft (fun _ => rfl) fun _ => rfl
    intro part hname
    cases part <;> simp [LogPart.name] at hname ⊢
  · intro draft
    apply part_reads text_reads LogPart.key draft (fun _ => rfl) fun _ => rfl
    intro part hname
    cases part <;> simp [LogPart.name] at hname ⊢

/-- The field of a part's name. -/
theorem exists_field (part : LogPart) :
    ∃ field, logShape.fields.find? (fun field => field.name == part.name) = some field ∧
      field.name = part.name ∧ ∀ draft, field.isSet draft = draft.holds part := by
  cases part with
  | identity text => exact ⟨_, rfl, rfl, fun _ => rfl⟩
  | algorithm known => exact ⟨_, rfl, rfl, fun _ => rfl⟩
  | key text => exact ⟨_, rfl, rfl, fun _ => rfl⟩

/-- A member that gives a part under its name. -/
def Gives (member : Member) (part : LogPart) : Prop :=
  Spells part.name.toList member.name ∧ part.Writes member.value

/-- Members that give parts of different names enter a draft which has none of them. -/
theorem enters_of_gives (hgives : List.Forall₂ Gives members given)
    (hnodup : (given.map LogPart.name).Nodup) (hunset : ∀ part ∈ given, draft.holds part = false) :
    Enters logShape writesPart draft members (given.foldl LogDraft.put draft) := by
  induction hgives generalizing draft with
  | nil => exact .nil
  | @cons member part members given hmember _ ih =>
    obtain ⟨habsent, hnodup⟩ := List.nodup_cons.1 hnodup
    obtain ⟨hpart, hparts⟩ := List.forall_mem_cons.1 hunset
    obtain ⟨field, hfield, hname, hisSet⟩ := exists_field part
    obtain ⟨hspells, hvalue⟩ := hmember
    have hadmits : Admits logShape writesPart draft member (draft.put part) :=
      .known hspells hfield ((hisSet draft).trans hpart) ⟨part, hname.symm, rfl, hvalue⟩
    refine .cons hadmits (ih hnodup ?_)
    intro later hlater
    have hlaterName : later.name ≠ part.name := by
      intro heq
      exact habsent (heq ▸ List.mem_map_of_mem hlater)
    rw [LogDraft.holds_put hlaterName]
    exact hparts later hlater

/-- A log as an object of its three members, in any order. -/
def WritesLog (log : LogText) (written : Bytes) : Prop :=
  ∃ members given, IsObject members written ∧ List.Forall₂ Gives members given ∧
    given.Perm log.parts

/-- A log in any order of its members is one that is read. -/
theorem WritesLog.writesRecord {log : LogText} (h : WritesLog log written) :
    WritesRecord logShape writesPart log written := by
  obtain ⟨members, given, hobject, hgives, hperm⟩ := h
  have hnodup : (given.map LogPart.name).Nodup := by
    apply (hperm.map LogPart.name).nodup_iff.2
    exact log.nodup_parts
  refine ⟨given.foldl LogDraft.put logShape.blank, ?_, .inl ⟨members, hobject, ?_⟩⟩
  · rw [LogDraft.foldl_put_of_perm hperm hnodup]
    exact log.finish_parts
  · apply enters_of_gives hgives hnodup
    intro part _
    cases part <;> rfl

/-! ## The document -/

/-- An object whose only member has the list of logs. -/
def WritesLogs (texts : List LogText) (written : Bytes) : Prop :=
  ∃ member, IsObject [member] written ∧ Spells "logs".toList member.name ∧
    WritesList WritesLog texts member.value

/-- A document is read exactly where the list of logs stands in an object that has no other member.
-/
theorem documentDecoder_reads :
    Reads documentDecoder (WritesRecord
      (single "logs" true (Json.list (record logShape)))
      (writesSingle (WritesList (WritesRecord logShape writesPart)))) := by
  apply record_reads
  intro field hfield draft
  obtain rfl := List.mem_singleton.1 hfield
  exact (list_reads (record_reads logShape_reads)).map some

/-- A list of logs in any order of their members is one that is read. -/
theorem WritesLogs.writesRecord (h : WritesLogs texts written) :
    WritesRecord (single "logs" true (Json.list (record logShape)))
      (writesSingle (WritesList (WritesRecord logShape writesPart))) texts written := by
  obtain ⟨member, hobject, hname, inside, hitems, hvalue⟩ := h
  have hlist : WritesList (WritesRecord logShape writesPart) texts member.value :=
    ⟨inside, hitems.mono fun _ _ => WritesLog.writesRecord, hvalue⟩
  have hadmits : Admits (single "logs" true (Json.list (record logShape)))
      (writesSingle (WritesList (WritesRecord logShape writesPart))) none member (some texts) :=
    .known hname (List.find?_cons_of_pos (beq_self_eq_true "logs")) rfl ⟨texts, rfl, hlist⟩
  exact ⟨some texts, rfl, .inl ⟨[member], hobject, .cons hadmits .nil⟩⟩

/-- A document that lists logs is read as their list. -/
theorem document_of_writes {bytes : Bytes} (h : Padded (WritesLogs texts) bytes) :
    Json.document documentDecoder bytes = .ok texts := by
  apply (document_eq_ok_iff documentDecoder_reads).2
  obtain ⟨front, core, back, hfront, hcore, hback, rfl⟩ := h
  exact ⟨front, core, back, hfront, hcore.writesRecord, hback, rfl⟩

end FirmwareTransparency.TrustStore
