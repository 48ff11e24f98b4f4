import DeductionBoard.Derivation.Status
import DeductionBoard.Solver.Answer

/-! Verdicts on a board. A valid one carries what certifies it, an invalid one the violations, and an
unknown one the reason why nothing is known. -/

namespace DeductionBoard

structure Certificate where
  status : Solver.Status
  solver : String
  text : String
  digest : String
  theory : Option String
  elapsed : Number.Binary64
  deriving DecidableEq, Repr

inductive Judgement where
  | valid (c : Certificate)
  | invalid (vs : List Violation)
  | unknown (reason : String)
  deriving DecidableEq, Repr

/-- A judgement on the board of a revision. -/
structure Verdict where
  judgement : Judgement
  revision : Nat
  deriving DecidableEq, Repr

inductive VerdictKind where
  | valid
  | invalid
  | unknown
  deriving DecidableEq, Repr

def VerdictKind.name : VerdictKind → String
  | .valid => "valid"
  | .invalid => "invalid"
  | .unknown => "unknown"

namespace Judgement

def kind : Judgement → VerdictKind
  | .valid _ => .valid
  | .invalid _ => .invalid
  | .unknown _ => .unknown

def certificate? : Judgement → Option Certificate
  | .valid c => some c
  | _ => none

def violations : Judgement → List Violation
  | .invalid vs => vs
  | _ => []

def reason : Judgement → String
  | .unknown r => r
  | _ => ""

def summary : Judgement → String
  | .valid c => "VALID (" ++ c.solver ++ ", " ++ c.elapsed.oneDecimal ++ " ms)"
  | .invalid vs =>
    "INVALID (" ++ toString vs.length ++ " violation" ++ (if vs.length = 1 then "" else "s") ++ ")"
  | .unknown r => "UNKNOWN (" ++ r ++ ")"

end Judgement

namespace Verdict

def kind (v : Verdict) : VerdictKind := v.judgement.kind

def isValid (v : Verdict) : Bool := v.kind = .valid

def violationsFor (v : Verdict) (i : PieceId) : List Violation :=
  v.judgement.violations.filter fun w => w.piece = some i

end Verdict

end DeductionBoard
