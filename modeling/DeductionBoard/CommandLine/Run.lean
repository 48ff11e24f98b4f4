import DeductionBoard.CommandLine.Arguments
import DeductionBoard.CommandLine.Report
import DeductionBoard.Level.Tutorial
import DeductionBoard.Solver.Command
import DeductionBoard.Solver.Ground

/-! The command line: it reports on a level from a file, on a built-in level, or on all of them. -/

namespace DeductionBoard.CommandLine

open Solver

structure Outcome where
  exit : Nat
  stdout : String
  stderr : String
  deriving DecidableEq, Repr

/-- Why no level can be read from a path. -/
inductive PathFault where
  | missing
  | directory
  /-- The path holds a character that no path may hold. -/
  | nullCharacter
  deriving DecidableEq, Repr

/-- What stands in the way of reading a path that no file is known for. Steps that name nothing lead
to a directory. -/
def PathFault.ofPath (path : String) : PathFault :=
  if path.toList.contains (Char.ofNat 0) then .nullCharacter
  else if (path.splitOn "/").all fun step => step ∈ ["", ".", ".."] then .directory
  else .missing

/-- Why the program breaks off without an outcome. -/
inductive Crash where
  | path (f : PathFault)
  | level (f : LevelFault)
  | solver (f : Fault)

def programName : String := "check_puzzle.py"

def usage : String :=
  let indent := String.ofList (List.replicate ("usage: ".length + programName.length + 1) ' ')
  "usage: " ++ programName ++ " [-h] [--tutorial TUTORIAL] [--all-tutorials]\n" ++
  indent ++ "[--mode \x7bplayer,editor,interactive\x7d]\n" ++
  indent ++ "[--backend \x7bz3,process\x7d]\n" ++
  indent ++ "[--command COMMAND [COMMAND ...]] [--timeout TIMEOUT]\n" ++
  indent ++ "[-v]\n" ++
  indent ++ "[puzzle]\n"

def help : String :=
  usage ++ "\nproofwork puzzle solvability checker\n\n" ++
  "positional arguments:\n" ++
  "  puzzle                Path to a puzzle JSON file\n\n" ++
  "options:\n" ++
  "  -h, --help            show this help message and exit\n" ++
  "  --tutorial TUTORIAL   Id of a built-in tutorial level, e.g. tutorial-1\n" ++
  "  --all-tutorials\n" ++
  "  --mode \x7bplayer,editor,interactive\x7d\n" ++
  "  --backend \x7bz3,process\x7d\n" ++
  "  --command COMMAND [COMMAND ...]\n" ++
  "                        Solver command for --backend process, e.g. cvc5\n" ++
  "                        --lang=smt2\n" ++
  "  --timeout TIMEOUT     Solvability timeout in ms\n" ++
  "  -v, --verbose\n"

/-- What the program reads from a file: nothing where there is no such file or no value in it. -/
abbrev Files := String → Option Value

inductive LoadFault where
  | nothingGiven
  | path (f : PathFault)
  | level (f : LevelFault)

/-- The levels that the arguments name. -/
def load (files : Files) (a : Arguments) : Except LoadFault (List Draft) :=
  let levels (r : Except LevelFault (List Draft)) : Except LoadFault (List Draft) :=
    match r with
    | .ok ls => .ok ls
    | .error f => .error (.level f)
  let tutorial := a.tutorial.getD ""
  let path := a.puzzle.getD ""
  if a.allTutorials then levels Tutorial.all
  else if tutorial ≠ "" then levels ((Tutorial.find tutorial).map fun l => [l])
  else if path ≠ "" then
    match files path with
    | none => .error (.path (.ofPath path))
    | some v => levels ((Level.read v).map fun l => [l])
  else .error .nothingGiven

/-- The settings that the arguments ask for; a time limit of zero counts as none. -/
def settings (a : Arguments) : Settings :=
  match Settings.forMode a.mode with
  | .error _ => Settings.standard
  | .ok s =>
    { s with solver := { s.solver with
        backend := .text a.backend
        command := (a.command.map commandValue).getD s.solver.command
        solvabilityTimeout := match a.timeout with
          | some n => if n = 0 then s.solver.solvabilityTimeout else .int n
          | none => s.solver.solvabilityTimeout } }

/-- The program ends with a message about its input. -/
def refusal (stdout message : String) : Outcome := ⟨1, stdout, "error: " ++ message ++ "\n"⟩

/-- Faults with a wording are about the input, and the others break the program off. -/
def levelOutcome (stdout : String) (f : LevelFault) : Except Crash Outcome :=
  match f.message? with
  | some t => .ok (refusal stdout t)
  | none => .error (.level f)

/-- A query that cannot be made is about the input, and other faults break the program off. -/
def reportOutcome (stdout : String) : ReportFault → Except Crash Outcome
  | .level f => levelOutcome stdout f
  | .solver (.query f) => match (Fault.query f : Fault).message? with
    | some t => .ok (refusal stdout t)
    | none => .error (.solver (.query f))
  | .solver f => .error (.solver f)

/-- The reports on levels, one after the other, after what was printed before. -/
def reports {σ : Type} (solve : Query → Value → σ → Answer × σ) (s : Settings) :
    (stdout : String) → (exit : Nat) → List Draft → σ → Except Crash Outcome
  | stdout, exit, [], _ => .ok ⟨exit, stdout, ""⟩
  | stdout, exit, l :: ls, st =>
    let r := PuzzleReport.make l s solve st
    match r.1.ending with
    | .ok code => reports solve s (stdout ++ r.1.text) (max exit code) ls r.2
    | .error f => reportOutcome (stdout ++ r.1.text) f

/-- The solver that the arguments name can be used. No program can be found from here. -/
def solverFault (a : Arguments) (s : Settings) : Option Command.Unavailable :=
  if a.backend = "process" then
    let words := ((s.solver.command.elements?).getD []).map Value.display
    match Command.ofWords (fun _ => false) words with
    | .error e => some e
    | .ok _ => none
  else none

/-- The whole program, with any solver. -/
def runWith {σ : Type} (solve : Query → Value → σ → Answer × σ) (st : σ) (files : Files)
    (words : List String) : Except Crash Outcome :=
  match Arguments.ofWords words with
  | .error .help => .ok ⟨0, help, ""⟩
  | .error .usage => .ok ⟨2, "", usage⟩
  | .ok a => match load files a with
    | .error .nothingGiven => .ok ⟨2, "", usage⟩
    | .error (.path f) => .error (.path f)
    | .error (.level f) => levelOutcome "" f
    | .ok ls => match solverFault a (settings a) with
      | some e => .ok (refusal "" e.message)
      | none => reports solve (settings a) "" 0 ls st

/-- The whole program with the built-in procedure in the place of an engine. -/
def run (files : Files) (words : List String) : Except Crash Outcome :=
  runWith Ground.solve () files words

end DeductionBoard.CommandLine
