import DeductionBoard.Search.Example
import DeductionBoard.Solver.Dialogue

/-! Whether a puzzle can be published: the premises have to entail the target, and the search has to
find an example solution. -/

namespace DeductionBoard

open Solver

inductive Solvability where
  | solvable (solution : Board)
  | unsolvable (countermodel : Model)
  | unknown (reason : String)
  deriving DecidableEq, Repr

namespace Solvability

def name : Solvability → String
  | .solvable _ => "solvable"
  | .unsolvable _ => "unsolvable"
  | .unknown _ => "unknown"

def reason : Solvability → String
  | .solvable _ => ""
  | .unsolvable m => "Premises do not entail the target: " ++ m.text
  | .unknown r => r

def countermodel : Solvability → Model
  | .unsolvable m => m
  | _ => []

def solution? : Solvability → Option Board
  | .solvable b => some b
  | _ => none

def nothingFound : String :=
  "Target is entailed, but no construction was found with the available rules and pre-placed " ++
    "pieces that fits the grid and piece budget within the search limits"

end Solvability

namespace Level

/-- Whether the premises entail the target. -/
def sketch (l : Draft) : Query.Sketch := ⟨l.premises, l.target⟩

def entailmentQuery (l : Draft) (o : Query.Options) : Except Query.Fault Query :=
  l.sketch.query o (fun n => "premise_" ++ toString n) ("solvability " ++ l.id)

/-- What an answer about the entailment says about the level. -/
def judge (l : Draft) (s : SearchSettings) (a : Answer) : Except Defect Solvability :=
  match a.status with
  | .sat => .ok (.unsolvable a.model)
  | .unsat => (l.solution s).map fun found => match found with
    | some b => .solvable b
    | none => .unknown Solvability.nothingFound
  | _ => .ok (.unknown a.explanation)

def solvability (l : Draft) (s : Settings) : Dialogue Solvability := do
  let o ← Dialogue.ofExcept s.encoder.options
  let q ← Dialogue.ofExcept (l.entailmentQuery o)
  let a ← Dialogue.submit q s.solver.solvabilityTimeout
  Dialogue.ofDefect (l.judge s.search a)

end Level

end DeductionBoard
