import FirmwareTransparency.Json.Error
import FirmwareTransparency.Json.Skip

/-!
# Reading JSON into a shape

A decoder takes the bytes where its value stands and gives the value and the bytes behind it, or the
first error. Objects are read into drafts: every field says how its value enters the draft, and at
the end of the object the draft must be complete. An object may also be given as the array of its
fields' values in their order.
-/

set_option autoImplicit false

namespace FirmwareTransparency.Json

/-- Reads a value from the front of the bytes and gives what follows it. -/
abbrev Decoder (α : Type) := Bytes → Except Error (α × Bytes)

/-- Turns a failed scan into the error that stands for all departures from the grammar. -/
def wellFormed {α : Type} : Option α → Except Error α
  | some a => .ok a
  | none => .error .malformed

/-- Whether the value at the front could be kept: every array and object counts, a scalar must be
well formed, its text valid and its number in range. -/
def isValueStart (bytes : Bytes) : Bool :=
  match bytes with
  | [] => false
  | byte :: rest =>
    if byte = openBracket ∨ byte = openBrace then true
    else if byte = quote then (text? rest).isSome
    else if byte = 0x6e then nullWord.isPrefixOf bytes
    else if byte = 0x74 then trueWord.isPrefixOf bytes
    else if byte = 0x66 then falseWord.isPrefixOf bytes
    else
      match number? bytes with
      | some (number, _) => number.inRange
      | none => false

/-- The error for a value of another kind than was asked for. -/
def wrongKind (bytes : Bytes) : Error :=
  if isValueStart bytes then .invalidType else .malformed

/-- Reads a string. -/
def text : Decoder String := fun bytes =>
  match skipSpace bytes with
  | [] => .error .malformed
  | byte :: rest =>
    if byte = quote then wellFormed (text? rest) else .error (wrongKind (byte :: rest))

/-- Reads a value that may be given as null. -/
def optional {α : Type} (value : Decoder α) : Decoder (Option α) := fun bytes =>
  match skipSpace bytes with
  | [] => .error .malformed
  | byte :: rest =>
    if byte = 0x6e then do
      let rest ← wellFormed (skipWord? nullWord (byte :: rest))
      return (none, rest)
    else do
      let (a, rest) ← value (byte :: rest)
      return (some a, rest)

/-- Reads a null. -/
def null : Decoder Unit := fun bytes =>
  match skipSpace bytes with
  | [] => .error .malformed
  | byte :: rest =>
    if byte = 0x6e then do
      let rest ← wellFormed (skipWord? nullWord (byte :: rest))
      return ((), rest)
    else .error (wrongKind (byte :: rest))

/-- Reads the name of an object's member: anything but a string there departs from the grammar. -/
def memberName : Decoder String := fun bytes =>
  match skipSpace bytes with
  | [] => .error .malformed
  | byte :: rest => if byte = quote then wellFormed (text? rest) else .error .malformed

/-- Takes one structural byte. -/
def expect (wanted : UInt8) (bytes : Bytes) : Except Error Bytes :=
  match skipSpace bytes with
  | [] => .error .malformed
  | byte :: rest => if byte = wanted then .ok rest else .error .malformed

/-- The meaning of a name among the known ones. -/
def meaning {α : Type} (names : List (String × α)) (name : String) : Except Error α :=
  match names.find? (fun known => known.1 == name) with
  | some known => .ok known.2
  | none => .error .unknownVariant

/-- Reads one of some names, given as a string or as an object with the name as its only member and
null as the value. -/
def choice {α : Type} (names : List (String × α)) : Decoder α := fun bytes =>
  match skipSpace bytes with
  | [] => .error .malformed
  | byte :: rest =>
    if byte = quote then do
      let (name, rest) ← wellFormed (text? rest)
      let a ← meaning names name
      return (a, rest)
    else if byte = openBrace then do
      let (name, rest) ← memberName rest
      let a ← meaning names name
      let rest ← expect colon rest
      let (_, rest) ← null rest
      let rest ← expect closeBrace rest
      return (a, rest)
    else .error .malformed

/-- Moves to the next element of an array, or finds its end. -/
def nextElement (isFirst : Bool) (bytes : Bytes) : Except Error (Option Bytes) :=
  match skipSpace bytes with
  | [] => .error .malformed
  | byte :: rest =>
    if byte = closeBracket then .ok none
    else if isFirst then .ok (some (byte :: rest))
    else if byte = comma then
      match skipSpace rest with
      | [] => .error .malformed
      | next :: rest =>
        if next = closeBracket then .error .malformed else .ok (some (next :: rest))
    else .error .malformed

/-- Reads the elements of an array up to its end; `done` holds those so far, latest first. Every
element takes a byte or more, which bounds their number. -/
def elements {α : Type} (value : Decoder α) :
    (steps : Nat) → (isFirst : Bool) → (done : List α) → Decoder (List α)
  | 0, _, _, _ => .error .malformed
  | steps + 1, isFirst, done, bytes => do
    match ← nextElement isFirst bytes with
    | none =>
      let rest ← expect closeBracket bytes
      return (done.reverse, rest)
    | some bytes =>
      let (a, rest) ← value bytes
      elements value steps false (a :: done) rest

/-- Reads an array of any length. -/
def list {α : Type} (value : Decoder α) : Decoder (List α) := fun bytes =>
  match skipSpace bytes with
  | [] => .error .malformed
  | byte :: rest =>
    if byte = openBracket then elements value (rest.length + 1) true [] rest
    else .error (wrongKind (byte :: rest))

/-- A field of an object that is read into a draft. -/
structure Field (δ : Type) where
  name : String
  /-- Whether the draft has the field already. -/
  isSet : δ → Bool
  /-- Reads the member's value into the draft. -/
  read : δ → Decoder δ

/-- How an object is read. -/
structure Shape (δ α : Type) where
  fields : List (Field δ)
  /-- The draft before any field. -/
  blank : δ
  /-- Whether other members are refused. -/
  strict : Bool
  /-- The value of a draft, or the name of the first field that it lacks. -/
  finish : δ → Except String α

/-- Finds where the next member of an object starts, or the end of the object. -/
def nextMember (isFirst : Bool) (bytes : Bytes) : Except Error (Option Bytes) :=
  match skipSpace bytes with
  | [] => .error .malformed
  | byte :: rest =>
    if byte = closeBrace then .ok none
    else if isFirst then .ok (some (byte :: rest))
    else if byte = comma then .ok (some rest)
    else .error .malformed

/-- Reads the members of an object up to its end. Every member takes a byte or more, which bounds
their number. -/
def members {δ α : Type} (shape : Shape δ α) :
    (steps : Nat) → (isFirst : Bool) → (draft : δ) → Decoder δ
  | 0, _, _, _ => .error .malformed
  | steps + 1, isFirst, draft, bytes => do
    match ← nextMember isFirst bytes with
    | none =>
      let rest ← expect closeBrace bytes
      return (draft, rest)
    | some bytes =>
      let (name, rest) ← memberName bytes
      match shape.fields.find? (fun field => field.name == name) with
      | some field =>
        if field.isSet draft then
          throw (.duplicateField field.name)
        let rest ← expect colon rest
        let (draft, rest) ← field.read draft rest
        members shape steps false draft rest
      | none =>
        if shape.strict then
          throw .unknownField
        let rest ← expect colon rest
        let rest ← wellFormed (skipValue? rest)
        members shape steps false draft rest

/-- Reads the values of fields in their order from an array, as many as there are. -/
def positions {δ : Type} : (fields : List (Field δ)) → (isFirst : Bool) → (draft : δ) → Decoder δ
  | [], _, draft, bytes => .ok (draft, bytes)
  | field :: fields, isFirst, draft, bytes => do
    match ← nextElement isFirst bytes with
    | none => return (draft, bytes)
    | some bytes =>
      let (draft, rest) ← field.read draft bytes
      positions fields false draft rest

/-- Reads an object of the given shape, or the array of its fields' values. -/
def record {δ α : Type} (shape : Shape δ α) : Decoder α := fun bytes =>
  match skipSpace bytes with
  | [] => .error .malformed
  | byte :: rest =>
    if byte = openBrace then do
      let (draft, rest) ← members shape (rest.length + 1) true shape.blank rest
      match shape.finish draft with
      | .ok a => return (a, rest)
      | .error name => throw (.missingField name)
    else if byte = openBracket then do
      let (draft, rest) ← positions shape.fields true shape.blank rest
      match shape.finish draft with
      | .ok a =>
        let rest ← expect closeBracket rest
        return (a, rest)
      | .error _ => throw .invalidLength
    else .error (wrongKind (byte :: rest))

/-- The shape of an object with one required field. -/
def single {α : Type} (name : String) (strict : Bool) (value : Decoder α) :
    Shape (Option α) α where
  fields := [{
    name := name
    isSet := Option.isSome
    read := fun _ bytes => do
      let (a, rest) ← value bytes
      return (some a, rest) }]
  blank := none
  strict := strict
  finish := fun draft =>
    match draft with
    | some a => .ok a
    | none => .error name

/-- Reads a whole document: one value with nothing but white space around it. -/
def document {α : Type} (value : Decoder α) (bytes : Bytes) : Except Error α := do
  let (a, rest) ← value bytes
  if (skipSpace rest).isEmpty then return a else throw .malformed

end FirmwareTransparency.Json
