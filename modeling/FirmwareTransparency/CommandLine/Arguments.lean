import FirmwareTransparency.Policy

/-!
# Command-line arguments

There are two commands: one shows the descriptor of an image, the other verifies images against a
trust store. Options have a long name and some a short one; a value may be attached to its option or
follow it, and may not look like an option itself.
-/

set_option autoImplicit false

namespace FirmwareTransparency.CommandLine

/-- What the arguments ask for. -/
inductive Command where
  /-- Show the descriptor of an image. -/
  | info (image : String)
  /-- Verify images against the trust store in a file. -/
  | verify (images : List String) (trustStore : String) (policy : Policy)
  deriving DecidableEq

/-- What arguments come to. -/
inductive Request where
  | perform (command : Command)
  | nothing
  /-- They are not understood. -/
  | refused
  deriving DecidableEq

/-- The options of the commands. -/
inductive Switch where
  | image
  /-- Names the file with the trust store. -/
  | trustStore
  /-- Accepts images without a descriptor. -/
  | optional
  /-- Lets one entry suffice. -/
  | any
  /-- Checks every entry. -/
  | accumulate
  deriving DecidableEq

/-- The long name of an option. -/
def Switch.long : Switch → String
  | .image => "input-file"
  | .trustStore => "trust-store"
  | .optional => "optional"
  | .any => "any"
  | .accumulate => "accumulate"

/-- The short name of an option, if it has one. -/
def Switch.short? : Switch → Option Char
  | .image => some 'i'
  | .trustStore => some 't'
  | _ => none

/-- Whether an option takes a value. -/
def Switch.takesValue : Switch → Bool
  | .image => true
  | .trustStore => true
  | _ => false

/-- An option that was given, with its value if it takes one. -/
structure Setting where
  switch : Switch
  /-- Its value, empty for an option that takes none. -/
  value : String
  deriving DecidableEq

/-- Whether an argument looks like an option: a hyphen and more. -/
def looksLikeOption (argument : String) : Bool :=
  match argument.toList with
  | '-' :: _ :: _ => true
  | _ => false

/-- The option that an argument names, and the value attached to it. -/
def named? (known : List Switch) (argument : String) : Option (Switch × Option String) :=
  match argument.toList with
  | '-' :: '-' :: rest =>
    let name := rest.takeWhile (· != '=')
    let value := match rest.dropWhile (· != '=') with
      | [] => none
      | _ :: value => some (String.ofList value)
    (known.find? (fun switch => switch.long.toList == name)).map fun switch => (switch, value)
  | '-' :: letter :: rest =>
    let value := match rest with
      | [] => none
      | '=' :: value => some (String.ofList value)
      | value => some (String.ofList value)
    (known.find? (fun switch => switch.short? == some letter)).map fun switch => (switch, value)
  | _ => none

/-- The options that arguments give, or nothing if an argument is not understood. Two hyphens may
stand at the end. -/
def settings? (known : List Switch) : List String → Option (List Setting)
  | [] => some []
  | argument :: rest =>
    match named? known argument with
    | none => if argument = "--" ∧ rest = [] then some [] else none
    | some (switch, some value) =>
      if switch.takesValue then (settings? known rest).map (⟨switch, value⟩ :: ·) else none
    | some (switch, none) =>
      if switch.takesValue then
        match rest with
        | [] => none
        | value :: rest =>
          if looksLikeOption value then none
          else (settings? known rest).map (⟨switch, value⟩ :: ·)
      else (settings? known rest).map (⟨switch, ""⟩ :: ·)

/-- The values that were given for an option. -/
def valuesOf (switch : Switch) (settings : List Setting) : List String :=
  (settings.filter (fun setting => setting.switch == switch)).map Setting.value

/-- Whether an option without a value was given, if it was not given twice. -/
def isGiven? (switch : Switch) (settings : List Setting) : Option Bool :=
  match valuesOf switch settings with
  | [] => some false
  | [_] => some true
  | _ => none

/-- The command that shows a descriptor: exactly one image. -/
def info? (arguments : List String) : Option Command := do
  let settings ← settings? [.image] arguments
  match valuesOf .image settings with
  | [image] => return .info image
  | _ => none

/-- The policy that options ask for. -/
def policyOf (optional any accumulate : Bool) : Policy where
  entryRule := if any then .any else .all
  failureMode := if accumulate then .accumulate else .shortCircuit
  missingRule := if optional then .optional else .mandatory
  limits := .standard

/-- The command that verifies: one image or more, exactly one trust store, and no other option
twice. -/
def verify? (arguments : List String) : Option Command := do
  let settings ← settings? [.image, .trustStore, .optional, .any, .accumulate] arguments
  let optional ← isGiven? .optional settings
  let any ← isGiven? .any settings
  let accumulate ← isGiven? .accumulate settings
  match valuesOf .image settings, valuesOf .trustStore settings with
  | image :: images, [trustStore] =>
    return .verify (image :: images) trustStore (policyOf optional any accumulate)
  | _, _ => none

/-- A command, if its arguments were understood. -/
def Request.ofCommand : Option Command → Request
  | some command => .perform command
  | none => .refused

/-- Reads arguments. An option that asks for debugging output may stand once in front of the
command; it changes nothing else. -/
def parse (isDebug : Bool) : List String → Request
  | [] => .nothing
  | argument :: rest =>
    if argument = "info" then .ofCommand (info? rest)
    else if argument = "verify" then .ofCommand (verify? rest)
    else if argument = "-d" ∧ !isDebug then parse true rest
    else if argument = "--" ∧ rest = [] then .nothing
    else .refused

/-- The files that a command reads. -/
def Command.paths : Command → List String
  | .info image => [image]
  | .verify images trustStore _ => trustStore :: images

/-- The files that arguments ask to read. -/
def Request.paths : Request → List String
  | .perform command => command.paths
  | .nothing => []
  | .refused => []

end FirmwareTransparency.CommandLine
