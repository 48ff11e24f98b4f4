import DeductionBoard.Board.Params

/-! What the rule checker says about a piece: it derives a formula from open assumptions, it lacks a
premise, or it breaks its rule. -/

namespace DeductionBoard

/-- The number of a piece. -/
abbrev PieceId := Int

/-- What is wrong with a piece or with the goal of a board. -/
inductive Flaw where
  | missingParameter (rule : RuleKind) (name : String)
  | unknownSide (rule : RuleKind) (side : Value)
  | notNegation (first second : Formula)
  | unusableName (name : Value)
  | conflated (variableName : String) (term : Value) (premise : Formula)
  | captured (variableName term : String) (premise : Formula)
  | notArbitrary (name : String) (assumption : PieceId) (assumed : Formula)
  | noGoal
  | goalOpen (connected : Bool) (target : Formula)
  | goalMismatch (target derived : Formula)
  | undeclared (assumed : Formula) (premises : List Formula)
  deriving DecidableEq, Repr

inductive ViolationKind where
  | incompletePremise
  | ruleViolation
  | eigenvariableCondition
  | missingParameter
  | undeclaredAssumption
  | goalMismatch
  | noGoal
  deriving DecidableEq, Repr

def ViolationKind.name : ViolationKind → String
  | .incompletePremise => "incomplete_premise"
  | .ruleViolation => "rule_violation"
  | .eigenvariableCondition => "violates_eigenvariable_condition"
  | .missingParameter => "missing_parameter"
  | .undeclaredAssumption => "undeclared_assumption"
  | .goalMismatch => "goal_mismatch"
  | .noGoal => "no_goal"

/-- Violations that a player resolves by building on. -/
def ViolationKind.isProgress : ViolationKind → Bool
  | .incompletePremise | .noGoal => true
  | _ => false

namespace Flaw

def kind : Flaw → ViolationKind
  | .missingParameter _ _ => .missingParameter
  | .unknownSide _ _ => .missingParameter
  | .notNegation _ _ => .ruleViolation
  | .unusableName _ => .ruleViolation
  | .conflated _ _ _ => .ruleViolation
  | .captured _ _ _ => .ruleViolation
  | .notArbitrary _ _ _ => .eigenvariableCondition
  | .noGoal => .noGoal
  | .goalOpen _ _ => .incompletePremise
  | .goalMismatch _ _ => .goalMismatch
  | .undeclared _ _ => .undeclaredAssumption

def message : Flaw → String
  | .missingParameter k n => k.label ++ " needs the '" ++ n ++ "' parameter"
  | .unknownSide k _ => k.label ++ " needs 'side' set to 'left' or 'right'"
  | .notNegation _ _ => "Second premise must be the negation of the first"
  | .unusableName v => "'" ++ v.display ++ "' is not a usable variable name"
  | .conflated v t _ =>
    "'" ++ v ++ "' already occurs free in the premise; abstracting '" ++ t.display ++
      "' into it would conflate the two"
  | .captured v t _ =>
    "Replacing '" ++ t ++ "' by '" ++ v ++ "' would be captured by an inner quantifier"
  | .notArbitrary x a f =>
    "'" ++ x ++ "' occurs free in undischarged assumption " ++ toString a ++ " (" ++ f.pretty ++ ")"
  | .noGoal => "No goal piece has been placed"
  | .goalOpen false _ => "Goal premise is not connected"
  | .goalOpen true _ => "Goal premise is not yet derived"
  | .goalMismatch _ _ => "Derived formula does not match the target exactly"
  | .undeclared f _ => f.pretty ++ " is not a premise of this puzzle and is never discharged"

/-- The pattern that the rule asks for. -/
def expected : Flaw → String
  | .missingParameter _ _ => ""
  | .unknownSide _ _ => "left | right"
  | .notNegation f _ => (Formula.neg f).pretty
  | .unusableName _ => "a name without '!'"
  | .conflated v _ _ => "premise without free " ++ v
  | .captured v t _ => t ++ " free for " ++ v
  | .notArbitrary x _ _ => x ++ " not free in open assumptions"
  | .noGoal => ""
  | .goalOpen _ target => target.pretty
  | .goalMismatch target _ => target.pretty
  | .undeclared _ [] => "no open assumptions"
  | .undeclared _ premises => Formula.prettyList premises

/-- What stands in its place: a formula as it prints, or a name as it was given. -/
def actual : Flaw → Value
  | .missingParameter _ _ => .text ""
  | .unknownSide _ v => .text v.display
  | .notNegation _ g => .text g.pretty
  | .unusableName v => v
  | .conflated _ _ f => .text f.pretty
  | .captured _ _ f => .text f.pretty
  | .notArbitrary _ _ f => .text f.pretty
  | .noGoal => .text ""
  | .goalOpen _ _ => .text ""
  | .goalMismatch _ f => .text f.pretty
  | .undeclared f _ => .text f.pretty

end Flaw

/-- A flaw and the piece it belongs to; the lack of a goal belongs to no piece. -/
structure Violation where
  piece : Option PieceId
  flaw : Flaw
  deriving DecidableEq, Repr

namespace Violation

def kind (v : Violation) : ViolationKind := v.flaw.kind

def orDash (s : String) : String := if s = "" then "-" else s

def text (v : Violation) : String :=
  let place := match v.piece with
    | none => "graph"
    | some i => "piece " ++ toString i
  let head := "[" ++ v.kind.name ++ "] " ++ place ++ ": " ++ v.flaw.message
  let expected := v.flaw.expected
  let actual := v.flaw.actual.display
  if expected = "" ∧ actual = "" then head
  else head ++ " (expected " ++ orDash expected ++ ", got " ++ orDash actual ++ ")"

end Violation

/-- What the rules say about one piece. -/
inductive Status where
  /-- The rule holds: a formula, and the assumptions it still rests on, ascending. -/
  | derived (formula : Formula) (assumptions : List PieceId)
  /-- Slots without a wire, or wired premises that derive nothing. -/
  | incomplete (missing : List Nat) (blocked : List PieceId)
  | violated (v : Violation)
  deriving DecidableEq, Repr

namespace Status

def isDerived : Status → Bool
  | .derived _ _ => true
  | _ => false

def formula? : Status → Option Formula
  | .derived f _ => some f
  | _ => none

def violation? : Status → Option Violation
  | .violated v => some v
  | _ => none

end Status

end DeductionBoard
