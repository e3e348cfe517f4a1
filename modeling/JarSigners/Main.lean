import JarSigners.CommandLine.Response

/-!
# The program

Reads the files that a command line names, answers it and prints the answer. Warnings and
errors go to the error channel.
-/

set_option autoImplicit false

open JarSigners

/-- The code with which the system refuses to read a directory as a file. -/
def directoryRefusal : UInt32 := 21

/-- What a path leads to on disk. -/
def readState (path : String) : IO FileState := do
  match ← (IO.FS.readBinFile path).toBaseIO with
  | .ok content => return .octets content.toList
  | .error (.inappropriateType _ code _) =>
    return if code = directoryRefusal then .directory else .missing
  | .error _ => return .missing

def main (arguments : List String) : IO UInt32 := do
  let paths := ((Invocation.ofArguments? arguments).map Invocation.paths).getD []
  let states ← paths.mapM fun path => do return (path, ← readState path)
  let response := respond (fun path => (states.lookup path).getD .missing) arguments
  for warning in response.warnings do
    IO.eprintln warning.message
  IO.print response.output
  for line in response.complaints do
    IO.eprintln line
  return response.status.toUInt32
