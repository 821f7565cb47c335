import FirmwareTransparency.CommandLine.Arguments
import FirmwareTransparency.Verify.Verifier

/-!
# Running a command

A command is a function of the files that it reads: it gives lines to print, and an error if it
fails. Lines that precede a failure are kept. The whole program is such a function as well
(`program`): from its arguments and the files it gives both streams and the exit status.
-/

set_option autoImplicit false

namespace FirmwareTransparency.CommandLine

/-- What a run prints and how it ends. -/
structure Result where
  output : List String
  /-- The error that ended the run, if one did. -/
  error : Option Error
  deriving DecidableEq

/-- The contents of files by their path, nothing for a file that cannot be read. -/
abbrev Files := String → Option Bytes

/-- The lines that show a report. -/
def reportLines (path : String) (report : Report) : List String :=
  report.outcomes.map (fun outcome =>
    s!"  entry {outcome.index} ({outcome.identity}): {outcome.message}") ++
  [s!"{path}: {report.verdict.message}"]

/-- Shows the descriptor of an image. -/
def runInfo (files : Files) (path : String) : Result :=
  match files path with
  | none => ⟨[], some .io⟩
  | some image =>
    match findDescriptor image with
    | none => ⟨[], some .noDescriptor⟩
    | some location =>
      match Descriptor.parse .standard (location.descriptor image) with
      | .ok descriptor => ⟨descriptor.lines, none⟩
      | .error cause => ⟨[], some (.format cause)⟩

/-- Verifies images one after the other up to the first that is refused. -/
def runVerifier (verifier : Verifier) (files : Files) : List String → Result
  | [] => ⟨["Verification succeeded"], none⟩
  | path :: paths =>
    match files path with
    | none => ⟨[], some .io⟩
    | some image =>
      let report := verifier.report image
      match verifier.policy.accept report.verdict with
      | .error error => ⟨reportLines path report, some error⟩
      | .ok () =>
        let rest := runVerifier verifier files paths
        ⟨reportLines path report ++ rest.output, rest.error⟩

/-- Runs a command. The trust store is read before any image. -/
def run (files : Files) : Command → Result
  | .info image => runInfo files image
  | .verify images trustStore policy =>
    match TrustStore.ofFile (files trustStore) with
    | .ok store => runVerifier ⟨store, policy⟩ files images
    | .error error => ⟨[], some error⟩

/-- Runs what arguments ask for, if they are understood. -/
def Request.run? (files : Files) : Request → Option Result
  | .perform command => some (CommandLine.run files command)
  | .nothing => some ⟨[], some .noCommand⟩
  | .refused => none

/-- The exit status of a run: zero for success, one for an error, two for arguments that are not
understood. -/
def status : Option Result → Nat
  | none => 2
  | some result => if result.error.isSome then 1 else 0

/-- What the program leaves behind. -/
structure Ending where
  /-- The text on standard output. -/
  output : String
  /-- The text on standard error. -/
  errors : String
  /-- The exit status. -/
  status : Nat
  deriving DecidableEq

/-- What a run leaves behind: its lines, the message of the error that ended it, and its status.
Arguments that are not understood leave a note. -/
def endingOf (result : Option Result) : Ending where
  output := Text.unlines ((result.map Result.output).getD [])
  errors := match result with
    | none => Text.unlines ["error: the arguments are not understood"]
    | some result => Text.unlines (result.error.toList.map Error.message)
  status := status result

/-- The program. -/
def program (files : Files) (arguments : List String) : Ending :=
  endingOf ((parse false arguments).run? files)

end FirmwareTransparency.CommandLine
