import FirmwareTransparency.Bytes.Lemmas
import FirmwareTransparency.Descriptor.Cursor

/-!
# What a read takes from its cursor

A read that succeeds moves the cursor over some bytes, and which bytes these are is fixed by the
value that it gives. `Cursor.Passes` is that movement, and a read is `Exact` for a written form if
it gives a value exactly where the cursor stands in front of the value's written form. The lemmas
`..._eq_ok_iff` say this of every primitive read and of every way to join reads, so an exact read
is both complete (it accepts what was written) and canonical (it accepts nothing else). Main
statements: `Exact.times` and `Exact.part_eq_ok_iff` for values in a row and in a part.
-/

set_option autoImplicit false

namespace FirmwareTransparency

/-- Moving from one cursor to another passes exactly the given bytes. -/
structure Cursor.Passes (cursor : Cursor) (bytes : Bytes) (after : Cursor) : Prop where
  rest : cursor.rest = bytes ++ after.rest
  offset : after.offset = cursor.offset + bytes.length

namespace Cursor.Passes

variable {cursor middle after : Cursor} {front back : Bytes}

/-- No bytes are passed exactly if the cursor does not move. -/
@[simp] theorem nil_iff : cursor.Passes [] after ↔ cursor = after := by
  constructor
  · rintro ⟨hrest, hoffset⟩
    cases cursor
    cases after
    simp only [List.nil_append, List.length_nil, Nat.add_zero] at hrest hoffset
    rw [hrest, hoffset]
  · rintro rfl
    exact ⟨rfl, rfl⟩

/-- Two strings in a row are passed exactly if there is a cursor between them. -/
theorem append_iff :
    cursor.Passes (front ++ back) after ↔
      ∃ middle, cursor.Passes front middle ∧ Passes middle back after := by
  constructor
  · rintro ⟨hrest, hoffset⟩
    refine ⟨⟨cursor.offset + front.length, back ++ after.rest⟩, ⟨?_, rfl⟩, ⟨rfl, ?_⟩⟩
    · rw [hrest, List.append_assoc]
    · rw [hoffset, List.length_append, Nat.add_assoc]
  · rintro ⟨middle, hfront, hback⟩
    constructor
    · rw [hfront.rest, hback.rest, List.append_assoc]
    · rw [hback.offset, hfront.offset, List.length_append, Nat.add_assoc]

/-- One string is passed after the other. -/
theorem append (hfront : cursor.Passes front middle) (hback : middle.Passes back after) :
    cursor.Passes (front ++ back) after :=
  append_iff.2 ⟨middle, hfront, hback⟩

/-- The bytes that stand at a cursor, and the cursor behind them. -/
theorem of_append (offset : Nat) (front back : Bytes) :
    Passes ⟨offset, front ++ back⟩ front ⟨offset + front.length, back⟩ :=
  ⟨rfl, rfl⟩

end Cursor.Passes

/-! ## Checks -/

section Checks

variable {α : Type} {check : Except FormatError Unit} {result : Except FormatError α} {a : α}

/-- A result behind a check is given exactly if the check holds. -/
theorem check_bind_eq_ok_iff :
    (check >>= fun _ => result) = .ok a ↔ check = .ok () ∧ result = .ok a := by
  cases check with
  | ok u => exact ⟨fun h => ⟨rfl, h⟩, fun h => h.2⟩
  | error e =>
    constructor
    · intro h
      cases h
    · rintro ⟨h, -⟩
      cases h

/-- A result is given exactly if it is not refused in front. -/
theorem check_guard_eq_ok_iff {c : Prop} [Decidable c] {e : FormatError}
    {next : PUnit → Except FormatError α} :
    (if c then throw e >>= next else result) = .ok a ↔ ¬c ∧ result = .ok a := by
  by_cases h : c
  · rw [if_pos h]
    constructor
    · intro hthrow
      cases hthrow
    · rintro ⟨hc, -⟩
      exact absurd h hc
  · rw [if_neg h]
    exact ⟨fun hok => ⟨h, hok⟩, fun hok => hok.2⟩

end Checks

namespace Read

variable {α β : Type} {cursor middle after : Cursor}

/-! ## Joining reads -/

/-- A value that is given without a read leaves the cursor where it is. -/
@[simp] theorem pure_eq_ok_iff {a b : α} :
    (pure a : Read α) cursor = .ok b after ↔ a = b ∧ cursor = after := by
  change EStateM.Result.ok a cursor = .ok b after ↔ _
  simp

/-- An error is no value. -/
@[simp] theorem throw_ne_ok {e : FormatError} {a : α} :
    (throw e : Read α) cursor ≠ .ok a after := by
  change EStateM.Result.error e cursor ≠ .ok a after
  simp

/-- Two reads in a row succeed exactly if the first does and the second does from where that ended.
-/
theorem bind_eq_ok_iff {read : Read α} {next : α → Read β} {b : β} :
    (read >>= next) cursor = .ok b after ↔
      ∃ a middle, read cursor = .ok a middle ∧ next a middle = .ok b after := by
  change EStateM.bind read next cursor = _ ↔ _
  unfold EStateM.bind
  cases read cursor <;> simp

/-- Behind a read that succeeds the next one goes on. -/
theorem bind_of_ok {read : Read α} {next : α → Read β} {a : α}
    (h : read cursor = .ok a middle) : (read >>= next) cursor = next a middle := by
  change EStateM.bind read next cursor = _
  unfold EStateM.bind
  rw [h]

/-- A read that fails is the last one. -/
theorem bind_of_error {read : Read α} {next : α → Read β} {e : FormatError}
    (h : read cursor = .error e middle) : (read >>= next) cursor = .error e middle := by
  change EStateM.bind read next cursor = _
  unfold EStateM.bind
  rw [h]

/-- A check in the middle of a read has to hold. -/
theorem guard_eq_ok_iff {c : Prop} [Decidable c] {e : FormatError} {next : PUnit → Read α}
    {read : Read α} {a : α} :
    (if c then throw e >>= next else read) cursor = .ok a after ↔
      ¬c ∧ read cursor = .ok a after := by
  by_cases h : c
  · rw [if_pos h]
    constructor
    · intro hok
      obtain ⟨u, middle, hthrow, -⟩ := bind_eq_ok_iff.1 hok
      exact absurd hthrow throw_ne_ok
    · rintro ⟨hc, -⟩
      exact absurd h hc
  · rw [if_neg h]
    exact ⟨fun hok => ⟨h, hok⟩, fun hok => hok.2⟩

/-- A result from outside succeeds as a read exactly if it does, and takes no bytes. -/
theorem ofExcept_eq_ok_iff {result : Except FormatError α} {a : α} :
    ofExcept result cursor = .ok a after ↔ result = .ok a ∧ cursor = after := by
  cases result with
  | ok b => simp [ofExcept]
  | error e => simp [ofExcept]

/-! ## Primitive reads -/

/-- So many bytes are read exactly where they stand. -/
theorem fixed_eq_ok_iff {count : Nat} {found : FixedBytes count} :
    fixed count cursor = .ok found after ↔ cursor.Passes found.toBytes after := by
  constructor
  · intro h
    unfold fixed at h
    split at h
    · next hlength =>
      cases h
      refine ⟨(List.take_append_drop _ _).symm, ?_⟩
      rw [hlength]
    · cases h
  · rintro ⟨hrest, hoffset⟩
    have htake : cursor.rest.take count = found.toBytes := by
      rw [hrest, List.take_left' found.length_eq]
    have hdrop : cursor.rest.drop count = after.rest := by
      rw [hrest, List.drop_left' found.length_eq]
    unfold fixed
    rw [dif_pos (by rw [htake, found.length_eq])]
    cases after
    simp only [found.length_eq] at hoffset hdrop
    simp only [EStateM.Result.ok.injEq, hdrop, hoffset, and_true]
    exact FixedBytes.ext htake

/-- A digest is read exactly where its bytes stand. -/
theorem digest_eq_ok_iff {found : Digest} :
    digest cursor = .ok found after ↔ cursor.Passes found.toBytes after :=
  fixed_eq_ok_iff

/-- A byte string is read exactly where it stands, if it is as long as asked for. -/
theorem bytes_eq_ok_iff {count : Nat} {found : Bytes} :
    bytes count cursor = .ok found after ↔ found.length = count ∧ cursor.Passes found after := by
  unfold bytes
  simp only [bind_eq_ok_iff, fixed_eq_ok_iff, pure_eq_ok_iff]
  constructor
  · rintro ⟨fixed, middle, hpasses, rfl, rfl⟩
    exact ⟨fixed.length_eq, hpasses⟩
  · rintro ⟨hlength, hpasses⟩
    exact ⟨⟨found, hlength⟩, after, hpasses, rfl, rfl⟩

/-- A number is read exactly where it is written in the width that is asked for. -/
theorem number_eq_ok_iff {width value : Nat} :
    number width cursor = .ok value after ↔
      value < 256 ^ width ∧ cursor.Passes (Bytes.bigEndian width value) after := by
  unfold number
  simp only [bind_eq_ok_iff, fixed_eq_ok_iff, pure_eq_ok_iff]
  constructor
  · rintro ⟨found, middle, hpasses, rfl, rfl⟩
    have hlt := Bytes.toNat_lt found.toBytes
    have hdigits := Bytes.bigEndian_toNat found.toBytes
    rw [found.length_eq] at hlt hdigits
    rw [hdigits]
    exact ⟨hlt, hpasses⟩
  · rintro ⟨hlt, hpasses⟩
    refine ⟨⟨Bytes.bigEndian width value, Bytes.length_bigEndian _ _⟩, after, hpasses, ?_, rfl⟩
    rw [Bytes.toNat_bigEndian, Nat.mod_eq_of_lt hlt]

/-- A word that is read as a number of its width stands in the bytes as that number. -/
theorem word_eq_ok_iff {width : Nat} {ofNat : Nat → α} {toNat : α → Nat} {value : α}
    (hlt : toNat value < 256 ^ width) (hleft : ∀ a, ofNat (toNat a) = a)
    (hright : ∀ n < 256 ^ width, toNat (ofNat n) = n) :
    (do return ofNat (← number width) : Read α) cursor = .ok value after ↔
      cursor.Passes (Bytes.bigEndian width (toNat value)) after := by
  simp only [bind_eq_ok_iff, number_eq_ok_iff, pure_eq_ok_iff]
  constructor
  · rintro ⟨number, middle, ⟨hnumber, hpasses⟩, rfl, rfl⟩
    rw [hright number hnumber]
    exact hpasses
  · intro hpasses
    exact ⟨toNat value, after, ⟨hlt, hpasses⟩, hleft value, rfl⟩

/-- A byte is read exactly where it stands. -/
theorem uint8_eq_ok_iff {value : UInt8} :
    uint8 cursor = .ok value after ↔ cursor.Passes [value] after := by
  have hbytes : [value] = Bytes.bigEndian 1 value.toNat := by
    simp [Bytes.bigEndian]
  rw [hbytes]
  exact word_eq_ok_iff value.toNat_lt (fun _ => UInt8.ofNat_toNat)
    fun _ h => UInt8.toNat_ofNat_of_lt' h

/-- A word of two bytes is read exactly where it is written. -/
theorem uint16_eq_ok_iff {value : UInt16} :
    uint16 cursor = .ok value after ↔ cursor.Passes (Bytes.ofUInt16 value) after :=
  word_eq_ok_iff value.toNat_lt (fun _ => UInt16.ofNat_toNat)
    fun _ h => UInt16.toNat_ofNat_of_lt' h

/-- A word of four bytes is read exactly where it is written. -/
theorem uint32_eq_ok_iff {value : UInt32} :
    uint32 cursor = .ok value after ↔ cursor.Passes (Bytes.ofUInt32 value) after :=
  word_eq_ok_iff value.toNat_lt (fun _ => UInt32.ofNat_toNat)
    fun _ h => UInt32.toNat_ofNat_of_lt' h

/-- A word of eight bytes is read exactly where it is written. -/
theorem uint64_eq_ok_iff {value : UInt64} :
    uint64 cursor = .ok value after ↔ cursor.Passes (Bytes.ofUInt64 value) after :=
  word_eq_ok_iff value.toNat_lt (fun _ => UInt64.ofNat_toNat)
    fun _ h => UInt64.toNat_ofNat_of_lt' h

/-! ## Parts of a buffer -/

/-- A part is split off exactly where its bytes stand, and has a cursor of its own at its start. -/
theorem part_eq_ok_iff {count : Nat} {inner : Cursor} :
    part count cursor = .ok inner after ↔
      inner.offset = 0 ∧ inner.rest.length = count ∧ cursor.Passes inner.rest after := by
  unfold part
  simp only [bind_eq_ok_iff, bytes_eq_ok_iff, pure_eq_ok_iff]
  constructor
  · rintro ⟨found, middle, ⟨hlength, hpasses⟩, rfl, rfl⟩
    exact ⟨rfl, hlength, hpasses⟩
  · rintro ⟨hoffset, hlength, hpasses⟩
    refine ⟨inner.rest, after, ⟨hlength, hpasses⟩, ?_, rfl⟩
    cases inner
    simp only at hoffset
    rw [hoffset, Cursor.start]

/-- A read on another cursor succeeds exactly if it does there, and does not move this one. -/
theorem within_eq_ok_iff {inner last : Cursor} {read : Read α} {a : α} :
    within inner read cursor = .ok (a, last) after ↔ read inner = .ok a last ∧ cursor = after := by
  unfold within EStateM.run
  cases read inner with
  | ok b rest => simp
  | error e rest => simp

/-- A read of a byte string succeeds exactly if it does from the start, wherever it ends. -/
theorem onBytes_eq_ok_iff {read : Read α} {buffer : Bytes} {a : α} :
    onBytes read buffer = .ok a ↔ ∃ last, read (.start buffer) = .ok a last := by
  unfold onBytes EStateM.run
  cases read (.start buffer) with
  | ok b rest => simp
  | error e rest => simp

/-! ## Exact reads -/

/-- A read that gives exactly the values of one kind, each where its written form stands. -/
def Exact (read : Read α) (Kind : α → Prop) (write : α → Bytes) : Prop :=
  ∀ cursor a after, read cursor = .ok a after ↔ Kind a ∧ cursor.Passes (write a) after

section Exact

variable {read : Read α} {Kind : α → Prop} {write : α → Bytes}

/-- An exact read of a byte string gives the values whose written form stands at the front. -/
theorem Exact.onBytes_eq_ok_iff (hread : Exact read Kind write) {buffer : Bytes} {a : α} :
    onBytes read buffer = .ok a ↔ Kind a ∧ ∃ rest, buffer = write a ++ rest := by
  rw [Read.onBytes_eq_ok_iff]
  constructor
  · rintro ⟨last, h⟩
    obtain ⟨hkind, hpasses⟩ := (hread _ _ _).1 h
    exact ⟨hkind, last.rest, hpasses.rest⟩
  · rintro ⟨hkind, rest, rfl⟩
    exact ⟨_, (hread _ _ _).2 ⟨hkind, .of_append 0 (write a) rest⟩⟩

/-- An exact read that is repeated gives so many values of its kind, one behind the other, and puts
them behind those so far. -/
theorem Exact.timesFrom_eq_ok_iff (hread : Exact read Kind write) {count : Nat}
    {done list : List α} :
    timesFrom read count done cursor = .ok list after ↔
      ∃ more, list = done.reverse ++ more ∧ more.length = count ∧ (∀ a ∈ more, Kind a) ∧
        cursor.Passes (more.flatMap write) after := by
  induction count generalizing done cursor with
  | zero =>
    rw [timesFrom, pure_eq_ok_iff]
    constructor
    · rintro ⟨rfl, rfl⟩
      exact ⟨[], by simp⟩
    · rintro ⟨more, rfl, hlength, -, hpasses⟩
      obtain rfl := List.length_eq_zero_iff.1 hlength
      simpa using hpasses
  | succ count ih =>
    rw [timesFrom, bind_eq_ok_iff]
    constructor
    · rintro ⟨a, middle, ha, hrest⟩
      obtain ⟨hkind, hpasses⟩ := (hread _ _ _).1 ha
      obtain ⟨more, rfl, rfl, hmore, hlast⟩ := ih.1 hrest
      refine ⟨a :: more, by simp, rfl, ?_, hpasses.append hlast⟩
      exact List.forall_mem_cons.2 ⟨hkind, hmore⟩
    · rintro ⟨more, rfl, hlength, hmore, hpasses⟩
      obtain ⟨a, more, rfl⟩ := List.exists_cons_of_length_eq_add_one hlength
      rw [List.flatMap_cons] at hpasses
      obtain ⟨middle, hfirst, hlast⟩ := Cursor.Passes.append_iff.1 hpasses
      obtain ⟨hkind, hmore⟩ := List.forall_mem_cons.1 hmore
      refine ⟨a, middle, (hread _ _ _).2 ⟨hkind, hfirst⟩, ih.2 ⟨more, by simp, ?_, hmore, hlast⟩⟩
      simpa using hlength

/-- Reading a value of one kind so many times gives lists of so many such values. -/
theorem Exact.times (hread : Exact read Kind write) (count : Nat) :
    Exact (Read.times count read) (fun list => list.length = count ∧ ∀ a ∈ list, Kind a)
      (fun list => list.flatMap write) := by
  intro cursor list after
  rw [Read.times, hread.timesFrom_eq_ok_iff]
  simp only [List.reverse_nil, List.nil_append, exists_eq_left', and_assoc]

/-- Values whose written forms start the same are the same, and so is what follows. -/
theorem Exact.append_inj (hread : Exact read Kind write) {a b : α} (ha : Kind a) (hb : Kind b)
    {rest other : Bytes} (h : write a ++ rest = write b ++ other) : a = b ∧ rest = other := by
  have hfirst := (hread _ _ _).2 ⟨ha, .of_append 0 (write a) rest⟩
  have hsecond := (hread _ _ _).2 ⟨hb, .of_append 0 (write b) other⟩
  rw [h, hsecond] at hfirst
  cases hfirst
  exact ⟨rfl, rfl⟩

/-- Lists that are written the same, one value behind the other, are the same. -/
theorem Exact.flatMap_inj (hread : Exact read Kind write) (hne : ∀ a, Kind a → write a ≠ [])
    {list other : List α} (hlist : ∀ a ∈ list, Kind a) (hother : ∀ a ∈ other, Kind a)
    (h : list.flatMap write = other.flatMap write) : list = other := by
  induction list generalizing other with
  | nil =>
    cases other with
    | nil => rfl
    | cons b other =>
      have hnil := (List.append_eq_nil_iff.1 h.symm).1
      exact absurd hnil (hne b (hother b List.mem_cons_self))
  | cons a list ih =>
    cases other with
    | nil => exact absurd (List.append_eq_nil_iff.1 h).1 (hne a (hlist a List.mem_cons_self))
    | cons b other =>
      obtain ⟨ha, hleft⟩ := List.forall_mem_cons.1 hlist
      obtain ⟨hb, hright⟩ := List.forall_mem_cons.1 hother
      rw [List.flatMap_cons, List.flatMap_cons] at h
      obtain ⟨rfl, hrest⟩ := hread.append_inj ha hb h
      rw [ih hleft hright hrest]

/-- A part is read to its end exactly if it is the written form of a value. -/
theorem Exact.part_eq_ok_iff (hread : Exact read Kind write) {size : Nat} {a : α} :
    (∃ inner middle last, part size cursor = .ok inner middle ∧
      within inner read middle = .ok (a, last) after ∧ last.isEmpty = true) ↔
      Kind a ∧ (write a).length = size ∧ cursor.Passes (write a) after := by
  constructor
  · rintro ⟨inner, middle, last, hpart, hwithin, hempty⟩
    obtain ⟨-, hlength, hpasses⟩ := Read.part_eq_ok_iff.1 hpart
    obtain ⟨hrun, rfl⟩ := within_eq_ok_iff.1 hwithin
    obtain ⟨hkind, hinner⟩ := (hread _ _ _).1 hrun
    have hlast : last.rest = [] := by
      simpa [Cursor.isEmpty] using hempty
    have hrest : inner.rest = write a := by
      rw [hinner.rest, hlast, List.append_nil]
    rw [hrest] at hlength hpasses
    exact ⟨hkind, hlength, hpasses⟩
  · rintro ⟨hkind, hlength, hpasses⟩
    have hinner : Cursor.Passes (.start (write a)) (write a) ⟨(write a).length, []⟩ :=
      ⟨(List.append_nil _).symm, (Nat.zero_add _).symm⟩
    exact ⟨.start (write a), after, ⟨(write a).length, []⟩,
      Read.part_eq_ok_iff.2 ⟨rfl, hlength, hpasses⟩,
      within_eq_ok_iff.2 ⟨(hread _ _ _).2 ⟨hkind, hinner⟩, rfl⟩, rfl⟩

end Exact

/-- The read of a digest is exact for its bytes. -/
theorem digest_exact : Exact digest (fun _ => True) FixedBytes.toBytes := by
  intro cursor found after
  rw [digest_eq_ok_iff, true_and]

/-! ## Reads that fail -/

/-- A read ends with an error wherever some bytes stand. -/
def Fails (read : Read α) (bytes : Bytes) (e : FormatError) : Prop :=
  ∀ cursor after, cursor.Passes bytes after → ∃ last, read cursor = .error e last

section Fails

variable {read : Read α} {next : α → Read β} {front back : Bytes} {e : FormatError}

/-- An error that is thrown is met whatever stands at the cursor. -/
theorem fails_throw (bytes : Bytes) : Fails (throw e : Read α) bytes e :=
  fun cursor _ _ => ⟨cursor, rfl⟩

/-- A result from outside that is an error is met whatever stands at the cursor. -/
theorem fails_ofExcept (bytes : Bytes) : Fails (ofExcept (.error e) : Read α) bytes e :=
  fails_throw bytes

/-- More bytes do not save a read that fails. -/
theorem Fails.of_front (h : Fails read front e) : Fails read (front ++ back) e := by
  intro cursor after hpasses
  obtain ⟨middle, hfront, -⟩ := Cursor.Passes.append_iff.1 hpasses
  exact h cursor middle hfront

/-- What fails at its first read fails. -/
theorem Fails.bind_left (h : Fails read front e) : Fails (read >>= next) front e := by
  intro cursor after hpasses
  obtain ⟨last, hlast⟩ := h cursor after hpasses
  exact ⟨last, bind_of_error hlast⟩

/-- A read that fails behind one that succeeds. -/
theorem Fails.bind_right {a : α}
    (hread : ∀ cursor middle, cursor.Passes front middle → read cursor = .ok a middle)
    (hnext : Fails (next a) back e) : Fails (read >>= next) (front ++ back) e := by
  intro cursor after hpasses
  obtain ⟨middle, hfront, hback⟩ := Cursor.Passes.append_iff.1 hpasses
  obtain ⟨last, hlast⟩ := hnext middle after hback
  exact ⟨last, (bind_of_ok (hread cursor middle hfront)).trans hlast⟩

/-- A check that lets pass leaves the error of the read behind it. -/
theorem Fails.guard {c : Prop} [Decidable c] {other : FormatError} {next : PUnit → Read α}
    (hc : ¬c) (h : Fails read front e) :
    Fails (if c then throw other >>= next else read) front e := by
  rw [if_neg hc]
  exact h

/-- A check that refuses fails whatever stands at the cursor. -/
theorem fails_of_guard {c : Prop} [Decidable c] {next : PUnit → Read α} (hc : c) :
    Fails (if c then throw e >>= next else read) front e := by
  rw [if_pos hc]
  exact (fails_throw front).bind_left

/-- Reading so many times fails at the first value that fails. -/
theorem fails_timesFrom {Kind : α → Prop} {write : α → Bytes} (hread : Exact read Kind write)
    {done good : List α} {more : Nat} (hgood : ∀ a ∈ good, Kind a) (hbad : Fails read back e) :
    Fails (Read.timesFrom read (good.length + (more + 1)) done) (good.flatMap write ++ back) e := by
  induction good generalizing done with
  | nil =>
    rw [List.length_nil, Nat.zero_add, timesFrom]
    exact hbad.bind_left
  | cons a good ih =>
    obtain ⟨ha, hgood⟩ := List.forall_mem_cons.1 hgood
    rw [List.length_cons, Nat.add_right_comm, timesFrom, List.flatMap_cons, List.append_assoc]
    exact Fails.bind_right (fun cursor middle h => (hread _ _ _).2 ⟨ha, h⟩) (ih hgood)

/-- A part that is bad from its start on fails wherever it is read. -/
theorem Fails.within (h : Fails read front e) (bytes : Bytes) :
    Fails (Read.within (.start front) read) bytes e := by
  intro cursor after _
  obtain ⟨last, hlast⟩ := h (.start front) ⟨front.length, []⟩ ⟨by simp [Cursor.start], by
    simp [Cursor.start]⟩
  unfold Read.within EStateM.run
  rw [hlast]
  exact ⟨cursor, rfl⟩

/-- A byte string is refused if the read fails at its front. -/
theorem Fails.onBytes (h : Fails read front e) (rest : Bytes) :
    onBytes read (front ++ rest) = .error e := by
  obtain ⟨last, hlast⟩ := h _ _ (.of_append 0 front rest)
  unfold Read.onBytes EStateM.run Cursor.start
  rw [hlast]

end Fails

end Read

end FirmwareTransparency
