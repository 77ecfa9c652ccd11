import PositionAutomaton.CommandLine.Answer

/-!
# The program

Reads the arguments, compiles, and writes the answer.
-/

namespace PositionAutomaton

namespace CommandLine

def usage : String :=
  "usage: dot|tree|encode PATTERN [--name NAME] [--output FILE]\n"

/-- The system's own words for a failure and its number, where it has them. -/
def describeFailure : IO.Error → String
  | .noFileOrDirectory _ code details | .inappropriateType (some _) code details
  | .permissionDenied (some _) code details => s!"i/o error: {details} (os error {code})"
  | e => "i/o error: " ++ toString e

def writeAnswer (answer : Answer) : IO Unit := do
  let bytes : ByteArray := ⟨answer.payload.bytes.toArray⟩
  match answer.path with
  | none =>
    let output ← IO.getStdout
    output.write bytes
    output.flush
  | some path => IO.FS.writeBinFile path bytes

end CommandLine

end PositionAutomaton

open PositionAutomaton.CommandLine

def main (arguments : List String) : IO UInt32 := do
  match Request.ofArguments? arguments with
  | none =>
    IO.eprint usage
    return 2
  | some request =>
    match request.answer none with
    | .error e =>
      IO.eprint (failureLine e.message)
      return 1
    | .ok answer =>
      try
        writeAnswer answer
        return 0
      catch e =>
        IO.eprint (failureLine (describeFailure e))
        return 1
