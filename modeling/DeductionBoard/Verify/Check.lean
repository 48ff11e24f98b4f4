import DeductionBoard.Derivation.Goal
import DeductionBoard.Solver.Dialogue
import DeductionBoard.Verify.Verdict

/-! The check of a board: the rules first, and the solver only where they find nothing. An
unsatisfiable query makes the board valid; every other answer leaves it open. -/

namespace DeductionBoard

open Solver

/-- A check that waits for the solver: the revision of the board, the query, and the name of the
proof. -/
structure CheckJob where
  revision : Nat
  query : Query
  name : String
  deriving DecidableEq, Repr

/-- What the rules alone say: a verdict, or a job for the solver. -/
inductive Prepared where
  | early (v : Verdict)
  | job (j : CheckJob)
  deriving DecidableEq, Repr

namespace Board

/-- The name of a proof on the board. -/
def proofName (b : Board) : String :=
  match b.puzzleId with
  | some id => if id = "" then "proof" else id
  | none => "proof"

/-- What follows from the report of a rule check: the query where there are no violations. -/
def prepareFrom (b : Board) (s : Settings) (r : Report) : Except Query.Fault Prepared :=
  if r.violations.isEmpty then
    match r.queryUnder s.encoder (some (b.proofName ++ " rev " ++ toString r.revision)) with
    | .error f => .error f
    | .ok q => .ok (.job ⟨r.revision, q, b.proofName⟩)
  else .ok (.early ⟨.invalid r.violations, r.revision⟩)

/-- The rule check, and the query where it finds nothing. -/
def prepareCheck (b : Board) (s : Settings) : Except Fault Prepared :=
  match (b.review s.checker).1 with
  | .error d => .error (.defect d)
  | .ok r => match b.prepareFrom s r with
    | .error f => .error (.query f)
    | .ok p => .ok p

end Board

namespace CheckJob

def certificate (j : CheckJob) (s : EncoderSettings) (a : Answer) : Certificate :=
  { status := a.status
    solver := a.solver
    text := j.query.text
    digest := j.query.digest
    theory := if s.exportTheory.holds then some (j.query.theory j.name) else none
    elapsed := a.elapsed }

/-- What the answer of the solver says about the board. -/
def judgement (j : CheckJob) (s : EncoderSettings) (a : Answer) : Judgement :=
  match a.status with
  | .unsat => .valid (j.certificate s a)
  | .sat =>
    .unknown ("encoder/solver defect: countermodel for a rule-valid derivation (" ++ a.model.text ++
      ")")
  | k => .unknown (if a.reason = "" then k.name else k.name ++ ": " ++ a.reason)

def verdict (j : CheckJob) (s : EncoderSettings) (a : Answer) : Verdict :=
  ⟨j.judgement s a, j.revision⟩

end CheckJob

namespace Prepared

def verify (s : Settings) : Prepared → Dialogue Verdict
  | .early v => .done v
  | .job j =>
    (Dialogue.submit j.query s.solver.checkTimeout).bind fun a => .done (j.verdict s.encoder a)

end Prepared

namespace Board

/-- The whole check of a board. -/
def verify (b : Board) (s : Settings) : Dialogue Verdict :=
  match b.prepareCheck s with
  | .error f => .fail f
  | .ok p => p.verify s

end Board

end DeductionBoard
