import DeductionBoard.CommandLine.Run
import DeductionBoard.Data.Json

/-! The program. It reads the file that the arguments name, prints what the report says, and ends
with its exit code. -/

namespace DeductionBoard

/-- The file as a value, where there is one. -/
def readLevelFile (path : String) : IO (Option Value) := do
  try
    return Json.parse? (← IO.FS.readFile path)
  catch _ => return none

def levelFile (words : List String) : IO (Option Value) :=
  match CommandLine.Arguments.ofWords words with
  | .ok a => match a.puzzle with
    | some path => readLevelFile path
    | none => return none
  | .error _ => return none

end DeductionBoard

def main (words : List String) : IO UInt32 := do
  let file ← DeductionBoard.levelFile words
  match DeductionBoard.CommandLine.run (fun _ => file) words with
  | .ok outcome =>
    IO.print outcome.stdout
    IO.eprint outcome.stderr
    return outcome.exit.toUInt32
  | .error _ =>
    IO.eprintln "fatal: the level cannot be processed"
    return 1
