import DeductionBoard.Derivation.Steps
import DeductionBoard.Level.Publication
import DeductionBoard.Verify.Solvability

/-! The report on a level: what is to be derived, what keeps it from being published, whether it can
be solved, and the lines of an example. -/

namespace DeductionBoard

open Solver

/-- Why a report breaks off. -/
inductive ReportFault where
  | level (f : LevelFault)
  | solver (f : Fault)

/-- The lines of a report and the exit code of the program, or what broke it off: 0 for a level that
can be solved, 1 for one that cannot be solved or published, 2 where nothing is known. -/
structure PuzzleReport where
  lines : List String
  ending : Except ReportFault Nat

namespace PuzzleReport

def text (r : PuzzleReport) : String := String.join (r.lines.map (· ++ "\n"))

/-- The lines that say what is to be derived; the second needs all premises. -/
def heading (l : Draft) : PuzzleReport :=
  let first := "== " ++ l.id ++ ": " ++ l.name.display
  let target := match l.target with
    | some f => f.pretty
    | none => Value.null.display
  match l.premises.mapM fun f => f with
  | none => ⟨[first], .error (.level .noFormula)⟩
  | some fs =>
    let premises :=
      if fs.isEmpty then "(no premises)" else String.intercalate ", " (fs.map Formula.pretty)
    ⟨[first, "   " ++ premises ++ " ⊢ " ++ target], .ok 0⟩

def append (r : PuzzleReport) (lines : List String) (ending : Except ReportFault Nat) :
    PuzzleReport :=
  ⟨r.lines ++ lines, ending⟩

def exitCode : Solvability → Nat
  | .solvable _ => 0
  | .unsolvable _ => 1
  | .unknown _ => 2

/-- What was found out about the puzzle. -/
def resultLine (r : Solvability) : String :=
  "   " ++ r.name.toUpper ++ (if r.reason = "" then "" else ": " ++ r.reason)

/-- The lines of an example. -/
def exampleLines (c : CheckerSettings) (r : Solvability) : Except Defect (List String) :=
  match r.solution? with
  | none => .ok []
  | some b => (b.review c).1.map fun report => (b.steps report).map ("     " ++ ·)

def ofSolvability (head : PuzzleReport) (c : CheckerSettings) :
    Except Fault Solvability → PuzzleReport
  | .error f => head.append [] (.error (.solver f))
  | .ok r => match exampleLines c r with
    | .error d => head.append [resultLine r] (.error (.solver (.defect d)))
    | .ok ls => head.append (resultLine r :: ls) (.ok (exitCode r))

/-- The report on a level, with a solver that has a state. -/
def make {σ : Type} (l : Draft) (s : Settings) (solve : Query → Value → σ → Answer × σ) (st : σ) :
    PuzzleReport × σ :=
  let head := heading l
  match head.ending with
  | .error _ => (head, st)
  | .ok _ => match l.publicationErrors with
    | .error f => (head.append [] (.error (.level f)), st)
    | .ok (e :: es) => (head.append ((e :: es).map ("   ✗ " ++ ·)) (.ok 1), st)
    | .ok [] =>
      let r := (l.solvability s).run solve st
      (head.ofSolvability s.checker r.1, r.2)

end PuzzleReport

end DeductionBoard
