import FirmwareTransparency.Proofs.Descriptor.Reads

/-!
# Any number of readers over one buffer

A cursor holds what is left of its buffer and not the buffer itself. `Reader` puts the two together,
for as long as a cursor lives, so that what it reads can be told by where it stands. Readers are
opened on a part of another one or as a copy, and from then on are read in any order; `step` is one
operation on one of them. Every operation reads a fixed number of bytes (`Operation.read_eq`), and
one step leaves all readers standing in their buffers, so every run does. Main statement:
`run_characterized`.
-/

set_option autoImplicit false

namespace FirmwareTransparency

/-- A cursor and the buffer that it was opened over. No read looks at the buffer. -/
structure Reader where
  buffer : Bytes
  cursor : Cursor

namespace Reader

/-- A reader at the start of a buffer. -/
def start (buffer : Bytes) : Reader := ⟨buffer, .start buffer⟩

/-- The next so many bytes of a reader's buffer. -/
def ahead (reader : Reader) (count : Nat) : Bytes :=
  (reader.buffer.drop reader.cursor.offset).take count

/-- The reader so many bytes further in its buffer. -/
def advance (reader : Reader) (count : Nat) : Reader where
  buffer := reader.buffer
  cursor := ⟨reader.cursor.offset + count, reader.buffer.drop (reader.cursor.offset + count)⟩

/-- A reader stands inside its buffer, with what is behind it left to read. -/
structure Stands (reader : Reader) : Prop where
  offset_le : reader.cursor.offset ≤ reader.buffer.length
  rest_eq : reader.cursor.rest = reader.buffer.drop reader.cursor.offset

/-- Where a read of so many bytes ends, in words of 64 bits: nothing if the sum leaves the word or
lies behind the buffer. -/
def stop? (reader : Reader) (count : UInt64) : Option UInt64 :=
  let position := UInt64.ofNat reader.cursor.offset
  let sum := position + count
  if sum < position then none
  else if sum ≤ UInt64.ofNat reader.buffer.length then some sum
  else none

/-! ## Operations -/

/-- What can be done with a reader. -/
inductive Operation where
  | uint8
  | uint16
  | uint32
  | uint64
  /-- Reads so many bytes, their number being known only at that moment. -/
  | bytes (count : Nat)
  /-- Reads so many bytes, their number being fixed. -/
  | array (count : Nat)
  /-- Opens a reader over the next so many bytes. -/
  | part (count : Nat)
  /-- Opens a second reader that stands where the first one does. -/
  | copy

/-- What an operation tells. -/
inductive Answer where
  | number (value : Nat)
  | bytes (found : Bytes)
  | opened
  | failed (e : FormatError)
  /-- There is no reader at the place that was named. -/
  | absent

/-- An operation on a reader: what it tells and the readers that it opens. -/
def Operation.read (reader : Reader) : Operation → Read (Answer × List Reader)
  | uint8 => do return (.number (← Read.uint8).toNat, [])
  | uint16 => do return (.number (← Read.uint16).toNat, [])
  | uint32 => do return (.number (← Read.uint32).toNat, [])
  | uint64 => do return (.number (← Read.uint64).toNat, [])
  | bytes count => do return (.bytes (← Read.bytes count), [])
  | array count => do return (.bytes (← Read.fixed count).toBytes, [])
  | part count => do
    let inner ← Read.part count
    return (.opened, [⟨inner.rest, inner⟩])
  | copy => return (.opened, [reader])

/-- One operation on the reader at a place. Readers that it opens take the next places. -/
def step (readers : List Reader) (place : Nat) (operation : Operation) : Answer × List Reader :=
  match readers[place]? with
  | none => (.absent, readers)
  | some reader =>
    match (operation.read reader).run reader.cursor with
    | .ok (answer, opened) cursor => (answer, readers.set place ⟨reader.buffer, cursor⟩ ++ opened)
    | .error e cursor => (.failed e, readers.set place ⟨reader.buffer, cursor⟩)

/-- The readers behind any number of operations, each on the reader at its place. -/
def run (readers : List Reader) (operations : List (Nat × Operation)) : List Reader :=
  operations.foldl (fun readers operation => (step readers operation.1 operation.2).2) readers

/-- How many bytes an operation takes. -/
def Operation.count : Operation → Nat
  | uint8 => 1
  | uint16 => 2
  | uint32 => 4
  | uint64 => 8
  | bytes count => count
  | array count => count
  | part count => count
  | copy => 0

/-- What an operation tells of the bytes that it takes. -/
def Operation.answer (found : Bytes) : Operation → Answer
  | uint8 | uint16 | uint32 | uint64 => .number found.toNat
  | bytes _ | array _ => .bytes found
  | part _ | copy => .opened

/-- The readers that an operation opens, given the bytes that it takes. -/
def Operation.opened (reader : Reader) (found : Bytes) : Operation → List Reader
  | part _ => [start found]
  | copy => [reader]
  | _ => []

variable {readers : List Reader} {reader : Reader} {operation : Operation} {place : Nat}

/-! ## One reader -/

/-- A reader at the start of a buffer stands inside it. -/
theorem stands_start (buffer : Bytes) : (start buffer).Stands :=
  ⟨Nat.zero_le _, rfl⟩

/-- What remains to a reader is its buffer from where it stands. -/
theorem Stands.remaining_eq (h : reader.Stands) :
    reader.cursor.remaining = reader.buffer.length - reader.cursor.offset := by
  rw [Cursor.remaining, h.rest_eq, List.length_drop]

/-- A reader that moves over bytes which are left stands inside its buffer. -/
theorem Stands.advance (h : reader.Stands) {count : Nat} (hle : count ≤ reader.cursor.remaining) :
    (reader.advance count).Stands := by
  refine ⟨?_, rfl⟩
  have hremaining := h.remaining_eq
  have hoffset := h.offset_le
  show reader.cursor.offset + count ≤ reader.buffer.length
  omega

/-- The next bytes are as many as asked for, if so many are left. -/
theorem length_ahead (h : reader.Stands) {count : Nat} (hle : count ≤ reader.cursor.remaining) :
    (reader.ahead count).length = count := by
  rw [ahead, ← h.rest_eq]
  exact List.length_take_of_le hle

/-- The next bytes of a reader are a part of its buffer. -/
theorem ahead_isInfix (reader : Reader) (count : Nat) : reader.ahead count <:+: reader.buffer :=
  (List.take_prefix _ _).isInfix.trans (List.drop_suffix _ _).isInfix

/-- In words the sum of a position and a count may wrap around, and then it is less than both; so
the end is found for every count exactly if so many bytes are left. -/
theorem Stands.stop?_eq (h : reader.Stands) (hword : reader.buffer.length < 2 ^ 64)
    (count : UInt64) :
    reader.stop? count =
      if count.toNat ≤ reader.cursor.remaining then
        some (UInt64.ofNat (reader.cursor.offset + count.toNat))
      else none := by
  have hremaining := h.remaining_eq
  have hoffset := h.offset_le
  have hcount := count.toNat_lt
  have hposition : (UInt64.ofNat reader.cursor.offset).toNat = reader.cursor.offset :=
    UInt64.toNat_ofNat_of_lt' (Nat.lt_of_le_of_lt hoffset hword)
  have hlength : (UInt64.ofNat reader.buffer.length).toNat = reader.buffer.length :=
    UInt64.toNat_ofNat_of_lt' hword
  have hsum : UInt64.ofNat reader.cursor.offset + count =
      UInt64.ofNat (reader.cursor.offset + count.toNat) := by
    rw [UInt64.ofNat_add, UInt64.ofNat_toNat]
  have hvalue : (UInt64.ofNat (reader.cursor.offset + count.toNat)).toNat =
      (reader.cursor.offset + count.toNat) % 2 ^ 64 := UInt64.toNat_ofNat'
  unfold stop?
  simp only [hsum, UInt64.lt_iff_toNat_lt, UInt64.le_iff_toNat_le, hvalue, hposition, hlength]
  by_cases hwraps : reader.cursor.offset + count.toNat < 2 ^ 64
  · rw [Nat.mod_eq_of_lt hwraps, if_neg (by omega)]
    by_cases hle : count.toNat ≤ reader.cursor.remaining
    · rw [if_pos (by omega), if_pos hle]
    · rw [if_neg (by omega), if_neg hle]
  · rw [if_pos (by omega), if_neg (by omega)]

/-! ## One operation -/

/-- A word of some width tells the number that stands in so many bytes. -/
theorem word_read_eq {α : Type} {width : Nat} {ofNat : Nat → α} {toNat : α → Nat}
    (hright : ∀ n < 256 ^ width, toNat (ofNat n) = n) :
    (do
      let value ← (do return ofNat (← Read.number width) : Read α)
      return (.number (toNat value), []) : Read (Answer × List Reader)) = do
    let found ← Read.fixed width
    return (.number found.toBytes.toNat, []) := by
  have hvalue : ∀ found : FixedBytes width,
      toNat (ofNat found.toBytes.toNat) = found.toBytes.toNat := by
    intro found
    have hlt := Bytes.toNat_lt found.toBytes
    rw [found.length_eq] at hlt
    exact hright _ hlt
  simp only [Read.number, bind_assoc, pure_bind, hvalue]

/-- Every operation reads a number of bytes that is known before, and what it tells and opens
follows from these bytes. -/
theorem Operation.read_eq (operation : Operation) (reader : Reader) :
    operation.read reader = do
      let found ← Read.fixed operation.count
      return (operation.answer found.toBytes, operation.opened reader found.toBytes) := by
  cases operation with
  | uint8 => exact word_read_eq fun _ h => UInt8.toNat_ofNat_of_lt' h
  | uint16 => exact word_read_eq fun _ h => UInt16.toNat_ofNat_of_lt' h
  | uint32 => exact word_read_eq fun _ h => UInt32.toNat_ofNat_of_lt' h
  | uint64 => exact word_read_eq fun _ h => UInt64.toNat_ofNat_of_lt' h
  | bytes count =>
    simp only [read, Read.bytes, bind_assoc, pure_bind]
    rfl
  | array count => rfl
  | part count =>
    simp only [read, Read.part, Read.bytes, bind_assoc, pure_bind]
    rfl
  | copy => rfl

/-- Where enough bytes are left the next ones are taken. -/
theorem step_of_le (hplace : readers[place]? = some reader) (hstands : reader.Stands)
    (hle : operation.count ≤ reader.cursor.remaining) :
    step readers place operation =
      (operation.answer (reader.ahead operation.count),
        readers.set place (reader.advance operation.count) ++
          operation.opened reader (reader.ahead operation.count)) := by
  have hread := Read.fixed_eq_ok_of_le hle
  have htake : reader.cursor.rest.take operation.count = reader.ahead operation.count := by
    rw [ahead, hstands.rest_eq]
  have hdrop : reader.cursor.rest.drop operation.count =
      reader.buffer.drop (reader.cursor.offset + operation.count) := by
    rw [hstands.rest_eq, List.drop_drop]
  unfold step
  simp only [hplace, Operation.read_eq, EStateM.run, Read.bind_of_ok hread, htake, hdrop]
  rfl

/-- Where too few are left nothing moves. -/
theorem step_of_lt (hplace : readers[place]? = some reader)
    (hlt : reader.cursor.remaining < operation.count) :
    step readers place operation =
      (.failed (.outOfBounds reader.cursor.offset operation.count reader.cursor.remaining),
        readers) := by
  have hread := Read.fixed_eq_error_of_lt hlt
  have hset : readers.set place reader = readers := by
    obtain ⟨hindex, rfl⟩ := List.getElem?_eq_some_iff.1 hplace
    exact List.set_getElem_self hindex
  unfold step
  simp only [hplace, Operation.read_eq, EStateM.run, Read.bind_of_error hread]
  exact congrArg _ hset

/-! ## Any number of operations -/

/-- Whatever is done with a reader, the one at any place keeps its buffer, and with another reader
it is not moved either. -/
theorem step_getElem? (hplace : readers[place]? = some reader) (other : Nat)
    (operation : Operation) :
    (∃ later, (step readers other operation).2[place]? = some later ∧
      later.buffer = reader.buffer) ∧
    (other ≠ place → (step readers other operation).2[place]? = some reader) := by
  obtain ⟨hindex, hreader⟩ := List.getElem?_eq_some_iff.1 hplace
  -- Success and failure alike put back the reader that was used, with another cursor.
  have hset : ∀ (found : Reader) (cursor : Cursor) (opened : List Reader),
      readers[other]? = some found →
      (∃ later, (readers.set other ⟨found.buffer, cursor⟩ ++ opened)[place]? = some later ∧
        later.buffer = reader.buffer) ∧
      (other ≠ place →
        (readers.set other ⟨found.buffer, cursor⟩ ++ opened)[place]? = some reader) := by
    intro found cursor opened hfound
    have hlength : place < (readers.set other ⟨found.buffer, cursor⟩).length := by
      rwa [List.length_set]
    rw [List.getElem?_append_left hlength]
    by_cases heq : other = place
    · subst heq
      obtain rfl : reader = found := Option.some.inj (hplace.symm.trans hfound)
      exact ⟨⟨_, List.getElem?_set_self hindex, rfl⟩, fun hne => absurd rfl hne⟩
    · rw [List.getElem?_set_ne heq, hplace]
      exact ⟨⟨reader, rfl, rfl⟩, fun _ => rfl⟩
  cases hfound : readers[other]? with
  | none =>
    simp only [step, hfound]
    exact ⟨⟨reader, hplace, rfl⟩, fun _ => hplace⟩
  | some found =>
    cases hresult : (operation.read found).run found.cursor with
    | ok value cursor =>
      simp only [step, hfound, hresult]
      exact hset found cursor value.2 hfound
    | error e cursor =>
      simp only [step, hfound, hresult]
      have hnone := hset found cursor [] hfound
      rwa [List.append_nil] at hnone

/-- Behind a run a reader is still at its place and over its buffer, and unmoved if no operation was
on it. -/
theorem run_getElem? (hplace : readers[place]? = some reader)
    (operations : List (Nat × Operation)) :
    (∃ later, (run readers operations)[place]? = some later ∧ later.buffer = reader.buffer) ∧
    ((∀ operation ∈ operations, operation.1 ≠ place) →
      (run readers operations)[place]? = some reader) := by
  induction operations generalizing readers reader with
  | nil => exact ⟨⟨reader, hplace, rfl⟩, fun _ => hplace⟩
  | cons operation operations ih =>
    obtain ⟨⟨next, hnext, hbuffer⟩, hunmoved⟩ := step_getElem? hplace operation.1 operation.2
    obtain ⟨⟨later, hlater, hkept⟩, -⟩ := ih hnext
    refine ⟨⟨later, hlater, hkept.trans hbuffer⟩, ?_⟩
    intro hothers
    obtain ⟨hother, hothers⟩ := List.forall_mem_cons.1 hothers
    exact (ih (hunmoved hother)).2 hothers

/-- All readers stand in a buffer that is part of one buffer. -/
def AllStand (buffer : Bytes) (readers : List Reader) : Prop :=
  ∀ reader ∈ readers, reader.Stands ∧ reader.buffer <:+: buffer

variable {buffer : Bytes}

/-- A reader that is opened on another one stands in a part of the same buffer. -/
theorem AllStand.opened (h : reader.Stands ∧ reader.buffer <:+: buffer) (count : Nat)
    (operation : Operation) : AllStand buffer (operation.opened reader (reader.ahead count)) := by
  intro opened hopened
  cases operation with
  | part size =>
    obtain rfl := List.mem_singleton.1 hopened
    exact ⟨stands_start _, (ahead_isInfix reader count).trans h.2⟩
  | copy =>
    obtain rfl := List.mem_singleton.1 hopened
    exact h
  | uint8 | uint16 | uint32 | uint64 | bytes | array => cases hopened

/-- The invariant of one operation: all readers still stand in parts of one buffer. -/
theorem AllStand.step (h : AllStand buffer readers) (place : Nat) (operation : Operation) :
    AllStand buffer (step readers place operation).2 := by
  cases hplace : readers[place]? with
  | none =>
    have habsent : Reader.step readers place operation = (.absent, readers) := by
      simp only [Reader.step, hplace]
    rw [habsent]
    exact h
  | some reader =>
    have hreader := h reader (List.mem_of_getElem? hplace)
    rcases Nat.lt_or_ge reader.cursor.remaining operation.count with hlt | hle
    · rw [step_of_lt hplace hlt]
      exact h
    · rw [step_of_le hplace hreader.1 hle]
      intro other hother
      rcases List.mem_append.1 hother with hset | hopened
      · rcases List.mem_or_eq_of_mem_set hset with hmem | rfl
        · exact h other hmem
        · exact ⟨hreader.1.advance hle, hreader.2⟩
      · exact AllStand.opened hreader operation.count operation other hopened

/-- The invariant of a run: all readers still stand in parts of one buffer. -/
theorem AllStand.run (h : AllStand buffer readers) (operations : List (Nat × Operation)) :
    AllStand buffer (run readers operations) := by
  induction operations generalizing readers with
  | nil => exact h
  | cons operation operations ih => exact ih (h.step operation.1 operation.2)

/-- What a reader among others does, and what the others do to it. -/
structure Behaves (readers : List Reader) (place : Nat) (reader : Reader) : Prop where
  stands : reader.Stands
  remaining_eq : reader.cursor.remaining = reader.buffer.length - reader.cursor.offset
  /-- An operation succeeds where enough bytes are left: it takes the next ones and moves the reader
  over them. -/
  taken : ∀ operation : Operation, operation.count ≤ reader.cursor.remaining →
    (reader.ahead operation.count).length = operation.count ∧
      step readers place operation =
        (operation.answer (reader.ahead operation.count),
          readers.set place (reader.advance operation.count) ++
            operation.opened reader (reader.ahead operation.count))
  /-- It fails where too few are left, and moves nothing. -/
  refused : ∀ operation : Operation, reader.cursor.remaining < operation.count →
    step readers place operation =
      (.failed (.outOfBounds reader.cursor.offset operation.count reader.cursor.remaining), readers)
  /-- Operations on other readers do not move it. -/
  unmoved : ∀ more : List (Nat × Operation), (∀ operation ∈ more, operation.1 ≠ place) →
    (run readers more)[place]? = some reader
  /-- No operation gives it another buffer. -/
  confined : ∀ more : List (Nat × Operation),
    ∃ later, (run readers more)[place]? = some later ∧ later.buffer = reader.buffer

/-- A reader among readers that stand does what is expected of it, and leaves the others alone. -/
theorem AllStand.behaves (h : AllStand buffer readers) (hplace : readers[place]? = some reader) :
    Behaves readers place reader := by
  obtain ⟨hstands, -⟩ := h reader (List.mem_of_getElem? hplace)
  constructor
  · exact hstands
  · exact hstands.remaining_eq
  · intro operation hle
    exact ⟨length_ahead hstands hle, step_of_le hplace hstands hle⟩
  · intro operation hlt
    exact step_of_lt hplace hlt
  · intro more hothers
    exact (run_getElem? hplace more).2 hothers
  · intro more
    exact (run_getElem? hplace more).1

/-- Any number of operations, on readers at any places, leaves every reader standing in its buffer,
which is part of the first one; so its operations take the next bytes of its own buffer or fail with
what is left of them, no other reader moves it, and a buffer that a word can count has an end that
words do not miss. -/
theorem run_characterized (buffer : Bytes) (operations : List (Nat × Operation)) :
    ∀ place reader, (run [start buffer] operations)[place]? = some reader →
      Behaves (run [start buffer] operations) place reader ∧ reader.buffer <:+: buffer ∧
        (buffer.length < 2 ^ 64 → ∀ count : UInt64, reader.stop? count =
          if count.toNat ≤ reader.cursor.remaining then
            some (UInt64.ofNat (reader.cursor.offset + count.toNat))
          else none) := by
  have hfirst : AllStand buffer [start buffer] := by
    intro reader hreader
    obtain rfl := List.mem_singleton.1 hreader
    exact ⟨stands_start buffer, List.infix_rfl⟩
  have hall := hfirst.run operations
  intro place reader hplace
  obtain ⟨hstands, hpart⟩ := hall reader (List.mem_of_getElem? hplace)
  refine ⟨hall.behaves hplace, hpart, ?_⟩
  intro hword count
  exact hstands.stop?_eq (Nat.lt_of_le_of_lt hpart.length_le hword) count

/-- A reader over the first three of five bytes has read one of them; four more are refused to it,
and the first reader goes on behind the three. -/
theorem run_characterized_part :
    let readers := run [start [1, 2, 3, 4, 5]] [(0, .part 3), (1, .uint8)]
    readers[0]? = some ⟨[1, 2, 3, 4, 5], ⟨3, [4, 5]⟩⟩ ∧
      readers[1]? = some ⟨[1, 2, 3], ⟨1, [2, 3]⟩⟩ ∧
      step readers 1 .uint32 = (.failed (.outOfBounds 1 4 2), readers) ∧
      (step readers 0 .uint16).1 = .number 0x0405 ∧
      (run readers [(1, .uint32)])[0]? = some ⟨[1, 2, 3, 4, 5], ⟨3, [4, 5]⟩⟩ ∧
      ([1, 2, 3, 4, 5] : Bytes).length < 2 ^ 64 ∧
      stop? ⟨[1, 2, 3], ⟨1, [2, 3]⟩⟩ 0xffffffffffffffff = none := by
  intro readers
  have hfirst : readers[0]? = some ⟨[1, 2, 3, 4, 5], ⟨3, [4, 5]⟩⟩ := rfl
  have hpart : readers[1]? = some ⟨[1, 2, 3], ⟨1, [2, 3]⟩⟩ := rfl
  have hword : ([1, 2, 3, 4, 5] : Bytes).length < 2 ^ 64 := by decide
  obtain ⟨hfirstBehaves, -⟩ := run_characterized [1, 2, 3, 4, 5] _ 0 _ hfirst
  obtain ⟨hpartBehaves, -, hend⟩ := run_characterized [1, 2, 3, 4, 5] _ 1 _ hpart
  obtain ⟨-, htaken⟩ := hfirstBehaves.taken .uint16 (by decide)
  have hothers : ∀ operation ∈ [((1 : Nat), Operation.uint32)], operation.1 ≠ 0 := by simp
  exact ⟨hfirst, hpart, hpartBehaves.refused .uint32 (by decide), congrArg Prod.fst htaken,
    hfirstBehaves.unmoved _ hothers, hword, hend hword 0xffffffffffffffff⟩

end Reader

end FirmwareTransparency
