import DeductionBoard.Data.Json
import DeductionBoard.Derivation.Steps
import DeductionBoard.Level.Basic
import DeductionBoard.Verify.Verdict

/-! Records of an attempt to be submitted. Only a valid verdict brings texts of a proof with it; all
other attempts are recorded without. -/

namespace DeductionBoard

structure Submission where
  level : String
  player : String
  script : String
  theory : Option String
  steps : List String
  seconds : Int
  success : Bool
  deriving DecidableEq, Repr

/-- The verdict is about another revision than the one of the board. -/
structure RevisionMismatch where
  verdict : Nat
  board : Nat
  deriving DecidableEq, Repr

def RevisionMismatch.message (m : RevisionMismatch) : String :=
  "Verdict is for revision " ++ toString m.verdict ++ ", graph is at " ++ toString m.board

/-- Why an attempt has no record. -/
inductive SubmissionFault where
  | mismatch (m : RevisionMismatch)
  | defect (d : Defect)
  | seconds (f : Value.IntegerFault)
  deriving DecidableEq, Repr

namespace Submission

/-- The digest of the texts of the proof. -/
def checksum (s : Submission) : String := Digest.ofText (s.script ++ s.theory.getD "")

def stored (s : Submission) : Value :=
  .object [("level_id", .text s.level), ("player_id", .text s.player),
    ("proof_smt2", .text s.script), ("proof_isabelle", match s.theory with
      | some t => .text t
      | none => .null),
    ("solution_steps", .list (s.steps.map .text)), ("time_taken_secs", .int s.seconds),
    ("success", .bool s.success), ("checksum", .text s.checksum)]

/-- The record as the text of a file. -/
def file (s : Submission) : String := Json.renderBlock 0 s.stored

end Submission

namespace Verdict

/-- The record of an attempt with a report on the board. -/
def submissionFrom (v : Verdict) (b : Board) (r : Report) (level player : String) (seconds : Int) :
    Submission :=
  let certificate := v.judgement.certificate?
  { level := level
    player := player
    script := match certificate with
      | some c => c.text
      | none => ""
    theory := certificate.bind (·.theory)
    steps := b.steps r
    seconds := seconds
    success := v.isValid }

/-- The record of an attempt at a level; the verdict has to be about the board as it is. -/
def submission (v : Verdict) (b : Board) (c : CheckerSettings) (level player : String)
    (seconds : Value) : Except SubmissionFault Submission :=
  if v.revision ≠ b.revision then .error (.mismatch ⟨v.revision, b.revision⟩)
  else match (b.review c).1, seconds.toInteger with
    | .error d, _ => .error (.defect d)
    | _, .error f => .error (.seconds f)
    | .ok r, .ok n => .ok (v.submissionFrom b r level player n)

end Verdict

end DeductionBoard
