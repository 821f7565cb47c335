import FirmwareTransparency.CommandLine.Run

/-!
# The program

The outer layer reads files and writes streams; what is written is decided by `program`.
-/

set_option autoImplicit false

namespace FirmwareTransparency.CommandLine

/-- The bytes of a file, nothing if it cannot be read. -/
def readContents (path : String) : IO (Option Bytes) := do
  try
    let contents ← IO.FS.readBinFile path
    return some contents.data.toList
  catch _ =>
    return none

/-- Runs the program: reads the files that the arguments name, writes out both streams and gives the
exit status. -/
def runProgram (arguments : List String) : IO UInt32 := do
  let paths := (parse false arguments).paths
  let contents ← paths.mapM fun path => do return (path, ← readContents path)
  let ending := program (fun path => (contents.lookup path).join) arguments
  IO.print ending.output
  IO.eprint ending.errors
  return UInt32.ofNat ending.status

end FirmwareTransparency.CommandLine

/-- Runs the program and gives its exit status. -/
def main (arguments : List String) : IO UInt32 :=
  FirmwareTransparency.CommandLine.runProgram arguments
