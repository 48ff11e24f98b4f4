import DeductionBoard.Board.Edit
import DeductionBoard.Data.Defect
import DeductionBoard.Derivation.Rules
import DeductionBoard.Settings

/-! The rule check of a whole board. Pieces are visited producers first; a cached status is taken as
it is and every other one is found anew and cached. The policy of the goal is applied on top: there
is a goal, it derives the target, and what it rests on are premises of the puzzle. Main definitions:
`check`, which says what the rules say about every board, and `review`, which breaks off where a
parameter of a piece or a formula of the puzzle is of no use. -/

namespace DeductionBoard

open DeductionBoard.Derivation

structure Report where
  statuses : Statuses
  violations : List Violation
  goal : Option PieceId
  target : Option Formula
  revision : Nat
  /-- The formulas of the assumption pieces. -/
  assumed : List (PieceId × Formula)
  deriving DecidableEq, Repr

namespace Board

/-- Adds the status of one piece to those found so far. -/
def visit (b : Board) (s : Statuses) (i : PieceId) : Statuses :=
  match b.piece? i with
  | none => s
  | some p => s ++ [(i, p.cache.getD (statusOf b p s))]

/-- The statuses of all pieces, producers first. -/
def statuses (b : Board) : Statuses := b.order.foldl b.visit []

/-- Caches the statuses that were found. -/
def remember (b : Board) (s : Statuses) : Board :=
  { b with pieces := b.pieces.map fun p => { p with cache := (s.status? p.id).or p.cache } }

/-- Forgets every cached status. -/
def forgetAll (b : Board) : Board := { b with pieces := b.pieces.map Piece.forget }

def assumptionFormulas (b : Board) : List (PieceId × Formula) :=
  (b.piecesOfKind .assumption).filterMap fun p => p.params.formula.map fun f => (p.id, f)

/-- The assumptions under the goal that no premise of the puzzle allows. -/
def undeclared (b : Board) (open_ : List PieceId) : List Violation :=
  open_.filterMap fun a =>
    match b.assumed? a with
    | some f => if f ∈ b.declared then none else some ⟨some a, .undeclared f b.declared⟩
    | none => none

/-- What is wrong with a goal that is not derived. -/
def goalOpen (b : Board) (goal : PieceId) (connected : Bool) : List Violation :=
  b.target.toList.map fun t => ⟨some goal, .goalOpen connected t⟩

/-- What is wrong with a derived formula that is not the target. -/
def goalMismatch (b : Board) (goal : PieceId) (f : Formula) : List Violation :=
  if b.target = some f then [] else b.target.toList.map fun t => ⟨some goal, .goalMismatch t f⟩

/-- A violation in what the goal depends on explains why it is not derived. -/
def isExplained (b : Board) (goal : PieceId) (found : List Violation) : Bool :=
  found.any fun v => v.piece.any fun i => i ∈ b.dependencies goal

/-- The policy looks at the premises under a goal. -/
def judgesPremises (b : Board) (c : CheckerSettings) : Bool :=
  c.requireDeclared.holds && b.premises.isSome

/-- What the policy of the goal finds, given the violations of the pieces. -/
def goalViolations (b : Board) (c : CheckerSettings) (s : Statuses) (found : List Violation) :
    List Violation :=
  match b.goal with
  | none => [⟨none, .noGoal⟩]
  | some g =>
    match s.status? g with
    | some (.incomplete missing _) =>
      if b.isExplained g found then [] else b.goalOpen g missing.isEmpty
    | some (.derived f open_) =>
      b.goalMismatch g f ++ (if b.judgesPremises c then b.undeclared open_ else [])
    | _ => []

/-- Violations of the board before those of pieces, and these by ascending number. -/
def sortViolations (vs : List Violation) : List Violation :=
  vs.mergeSort fun v w => match v.piece, w.piece with
    | none, _ => true
    | some _, none => false
    | some i, some j => i ≤ j

/-- The report on a board with its statuses. -/
def reportOf (b : Board) (c : CheckerSettings) (s : Statuses) : Report :=
  let found := s.filterMap fun e => e.2.violation?
  { statuses := s
    violations := sortViolations (found ++ b.goalViolations c s found)
    goal := b.goal
    target := b.target
    revision := b.revision
    assumed := b.assumptionFormulas }

/-- The report, and the board with all its statuses cached. -/
def check (b : Board) (c : CheckerSettings) : Report × Board :=
  (b.reportOf c b.statuses, b.remember b.statuses)

/-- The first piece without a cached status whose rule cannot be applied to its parameters. -/
def defective? (b : Board) : Option PieceId :=
  let s := b.statuses
  b.order.find? fun i => (b.piece? i).any fun p => p.cache.isNone && isDefective b p s

/-- The policy of the goal speaks about a formula that is missing. -/
def lacksFormula (b : Board) (c : CheckerSettings) : Bool :=
  match b.goal with
  | none => false
  | some g =>
    match b.statuses.status? g with
    | some (.incomplete _ _) =>
      b.target.isNone && !b.isExplained g (b.statuses.filterMap fun e => e.2.violation?)
    | some (.derived _ open_) =>
      b.target.isNone || (b.judgesPremises c && !(b.undeclared open_).isEmpty &&
        (b.premises.getD []).any Option.isNone)
    | _ => false

/-- The check as far as it can be made: it breaks off at a defective piece, and the statuses of the
pieces before that one are cached all the same. -/
def review (b : Board) (c : CheckerSettings) : Except Defect Report × Board :=
  match b.defective? with
  | some i => (.error .illTyped, b.remember (b.statuses.takeWhile fun e => e.1 ≠ i))
  | none => (if b.lacksFormula c then .error .noFormula else .ok (b.check c).1, (b.check c).2)

/-- Where nothing is defective and no formula is missing, the review is the check. -/
theorem review_eq_check {b : Board} {c : CheckerSettings} (h : b.defective? = none)
    (h' : b.lacksFormula c = false) : b.review c = (.ok (b.check c).1, (b.check c).2) := by
  simp [review, h, h']

end Board

namespace Report

def goalStatus (r : Report) : Option Status := r.goal.bind r.statuses.status?

def goalConclusion (r : Report) : Option Conclusion := r.goal.bind r.statuses.conclusion?

def isSound (r : Report) : Bool := r.violations.isEmpty

def goalMatches (r : Report) : Bool := r.goalConclusion.any fun c => some c.formula = r.target

/-- The solver is asked only about sound boards whose goal derives the target. -/
def isReady (r : Report) : Bool := r.isSound && r.goalMatches

/-- Pairs with a formula, without those whose formula has come before. -/
def withoutRepeats : List Formula → List (PieceId × Formula) → List (PieceId × Formula)
  | _, [] => []
  | seen, (i, f) :: r =>
    if f ∈ seen then withoutRepeats seen r else (i, f) :: withoutRepeats (f :: seen) r

/-- The open assumptions of the goal by ascending number, each formula once. -/
def hypotheses (r : Report) : List (PieceId × Formula) :=
  match r.goalConclusion with
  | none => []
  | some c =>
    withoutRepeats []
      (c.assumptions.filterMap fun a => (List.lookup a r.assumed).map fun f => (a, f))

def violationsFor (r : Report) (i : PieceId) : List Violation :=
  r.violations.filter fun v => v.piece = some i

end Report

/-- What can happen to a board: an edit or a rule check. -/
inductive Action where
  | edit (e : Edit)
  | check (c : CheckerSettings)

namespace Action

def run (b : Board) : Action → Board
  | .edit e => (e.apply b).1
  | .check c => (b.review c).2

/-- The board after a list of actions. -/
def runAll (b : Board) (as : List Action) : Board := as.foldl run b

@[simp] theorem runAll_append (b : Board) (as as' : List Action) :
    runAll b (as ++ as') = runAll (runAll b as) as' := by
  simp [runAll, List.foldl_append]

end Action

end DeductionBoard
