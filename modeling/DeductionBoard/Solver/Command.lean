import DeductionBoard.Solver.Dialogue

/-! Commands of solver programs. The time limit is passed on the command line where the program is
known to take one. -/

namespace DeductionBoard.Solver

/-- The part after the last slash. -/
def baseName (path : String) : String :=
  String.ofList ((path.toList.reverse.takeWhile fun c => c != '/').reverse)

/-- A command that has a program. -/
structure Command where
  program : String
  options : List String
  deriving DecidableEq, Repr

namespace Command

def words (c : Command) : List String := c.program :: c.options

def name (c : Command) : String := baseName c.program

/-- The words of the command with a time limit. -/
def limited (c : Command) (timeout : Value) : List String :=
  if "cvc".isPrefixOf c.name then c.words ++ ["--tlimit-per=" ++ timeout.display]
  else if c.name = "z3" then
    (if "-in" ∈ c.words then c.words else c.words ++ ["-in"]) ++ ["-t:" ++ timeout.display]
  else c.words

/-- Why a command cannot be used. -/
inductive Unavailable where
  | empty
  | notFound (program : String) (words : List String)
  deriving DecidableEq, Repr

def Unavailable.message : Unavailable → String
  | .empty => "Empty solver command"
  | .notFound p _ => "Solver binary '" ++ p ++ "' not found on PATH"

/-- The command of a list of words, if its program can be found. -/
def ofWords (found : String → Bool) : List String → Except Unavailable Command
  | [] => .error .empty
  | p :: options => if found p then .ok ⟨p, options⟩ else .error (.notFound p (p :: options))

end Command

end DeductionBoard.Solver
