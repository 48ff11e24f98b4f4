import DeductionBoard.Derivation.Report
import DeductionBoard.Search.Backward
import DeductionBoard.Solver.Dialogue

/-! Hints: the next piece to place on the way to a goal. Where what is on the board entails the goal,
the search says which piece comes next; otherwise a premise may be missing, or the goal does not
follow at all. -/

namespace DeductionBoard

open Solver

/-- A piece to place: its rule, the pieces to wire it from, its parameters, and what it derives.
A premise that is not on the board has no number. -/
structure Suggestion where
  kind : RuleKind
  premises : List (Option PieceId)
  params : Params
  produces : Formula
  deriving DecidableEq, Repr

def Suggestion.text (s : Suggestion) : String :=
  let number (i : Option PieceId) : String := match i with
    | some i => toString i
    | none => Value.null.display
  let wiring :=
    if s.premises.isEmpty then "nothing" else String.intercalate ", " (s.premises.map number)
  "Place " ++ s.kind.label ++ " wired from [" ++ wiring ++ "] to obtain " ++ s.produces.pretty

inductive HintKind where
  | suggestPiece
  | missingPremise
  | blockingConstraint
  | complete
  | unknown
  deriving DecidableEq, Repr

def HintKind.name : HintKind → String
  | .suggestPiece => "suggest_piece"
  | .missingPremise => "missing_premise"
  | .blockingConstraint => "blocking_constraint"
  | .complete => "complete"
  | .unknown => "unknown"

structure Hint where
  kind : HintKind
  message : String
  suggestion : Option Suggestion
  missingPremise : Option Formula
  countermodel : Model
  deriving DecidableEq, Repr

namespace Hint

def plain (kind : HintKind) (message : String) : Hint := ⟨kind, message, none, none, []⟩

def complete : Hint := plain .complete "The proof is complete: submit it for checking"

def fixFirst (v : Violation) : Hint := plain .blockingConstraint ("Fix this first: " ++ v.text)

def unavailable (reason : String) : Hint :=
  plain .unknown ("No hint available right now (" ++ reason ++ ")")

def outOfBudget : Hint :=
  plain .unknown "The goal is reachable, but no next step was found in budget"

def noConstruction (goal : Formula) (palette : Palette) : Hint :=
  let labels := Ascending.ofList (palette.kinds.map RuleKind.label)
  plain .unknown (goal.pretty ++ " follows from what is placed, but no construction with the " ++
    "available rules (" ++ String.intercalate ", " labels ++ ") was found")

def suggest (s : Suggestion) (message : String) : Hint :=
  { plain .suggestPiece message with suggestion := some s }

def wireGoal (i : PieceId) (goal : Formula) : Hint :=
  suggest ⟨.goal, [some i], Params.empty, goal⟩
    ("Piece " ++ toString i ++ " already derives " ++ goal.pretty ++ ": wire it into the goal")

/-- The root of a construction as the next piece. -/
def place (c : Construction) : Hint :=
  let s : Suggestion := ⟨c.kind, c.premises.map Construction.piece?, c.params, c.formula⟩
  suggest s s.text

def assume (f : Formula) : Hint :=
  { plain .missingPremise ("Place an assumption for the premise " ++ f.pretty) with
    suggestion := some ⟨.assumption, [], { Params.empty with formula := some f }, f⟩
    missingPremise := some f }

def doesNotFollow (goal : Formula) (m : Model) : Hint :=
  { plain .blockingConstraint
      (goal.pretty ++ " does not follow from what is available: " ++ m.text) with countermodel := m }

end Hint

/-- What a hint starts from: the goal, the formulas at hand that rest on premises, the premises that
are not on the board, the formulas that may stay open, the palette, and the pieces at hand. -/
structure HintJob where
  goal : Option Formula
  material : List Formula
  unplaced : List (Option Formula)
  context : List Formula
  /-- One of the premises is missing. -/
  gap : Bool
  palette : Palette
  existing : List (Formula × Search.Placed)
  early : Option Hint
  deriving DecidableEq, Repr

namespace Board

/-- The formulas on assumption pieces. -/
def placedFormulas (b : Board) : List Formula :=
  (b.piecesOfKind .assumption).filterMap (·.params.formula)

/-- The formulas that may stay open: the premises, or all assumptions where any may. -/
def hintContext (b : Board) : List Formula :=
  Ascending.ofList (if b.premises.isSome then b.declared else b.placedFormulas)

/-- The premises that are not on the board, a missing one included. -/
def unplaced (b : Board) : List (Option Formula) :=
  (b.premises.getD []).filter fun p => p.all fun f => f ∉ b.placedFormulas

/-- The pieces that derive something, the goal pieces apart, each formula under the piece with the
least number. -/
def derivedPieces (b : Board) (r : Report) : List (Formula × Search.Placed) :=
  b.pieces.filterMap fun p =>
    match r.statuses.conclusion? p.id with
    | some c =>
      if p.kind = .goal then none
      else some (c.formula,
        ⟨p.id, p.kind, Ascending.ofList (c.assumptions.filterMap b.assumed?)⟩)
    | none => none

/-- The entries without those whose formula has come before. -/
def firstEntries (es : List (Formula × Search.Placed)) : List (Formula × Search.Placed) :=
  es.foldl (fun acc e => if acc.any fun a => a.1 = e.1 then acc else acc ++ [e]) []

/-- A hint that needs no solver: the proof is complete, or something has to be mended. -/
def earlyHint (b : Board) (r : Report) (goal : Option Formula) : Option Hint :=
  if goal = b.target ∧ r.isReady then some Hint.complete
  else (r.violations.find? fun v => !v.kind.isProgress).map Hint.fixFirst

/-- What a hint towards `goal` starts from, given the report; without a goal it goes to the target. -/
def hintJobOf (b : Board) (r : Report) (goal : Option Formula) : HintJob :=
  let derived := b.derivedPieces r
  { goal := goal.or b.target
    material := ((derived.filter fun e => e.2.assumptions.all fun f => f ∈ b.hintContext).map
      (·.1)).eraseDups
    unplaced := b.unplaced
    context := b.hintContext
    gap := (b.premises.getD []).any Option.isNone
    palette := b.palette
    existing := firstEntries derived
    early := b.earlyHint r (goal.or b.target) }

/-- What a hint starts from, once the rules have been checked. -/
def prepareHint (b : Board) (c : CheckerSettings) (goal : Option Formula) :
    Except Defect HintJob :=
  match (b.review c).1 with
  | .error d => .error d
  | .ok r => .ok (b.hintJobOf r goal)

end Board

namespace HintJob

/-- Asks whether hypotheses entail the goal of the job. -/
def ask (j : HintJob) (s : Settings) (hypotheses : List (Option Formula)) : Dialogue Answer := do
  let o ← Dialogue.ofExcept s.encoder.options
  let q ← Dialogue.ofExcept
    (Query.Sketch.query o ⟨hypotheses, j.goal⟩ (fun n => "hyp_" ++ toString n) "hint")
  Dialogue.submit q s.solver.hintTimeout

/-- The formulas at hand, as hypotheses. -/
def given (j : HintJob) : List (Option Formula) := j.material.map some

/-- What the search has come to, as a hint. -/
def hintOf (j : HintJob) (goal : Formula) (o : Search.Outcome) : Hint :=
  match o.found with
  | none => if o.exhausted then Hint.outOfBudget else Hint.noConstruction goal j.palette
  | some c => match c.nextStep, c.piece? with
    | some d, _ => Hint.place d
    | none, some i => Hint.wireGoal i goal
    | none, none => Hint.outOfBudget

/-- The next piece of a construction from what is at hand. -/
def suggest (j : HintJob) (s : SearchSettings) (goal : Formula) : Except Defect Hint :=
  (Search.prove ⟨j.palette, j.existing, Search.nodeLimit s, j.gap⟩ (Search.depthLimit s) j.context
    goal none).map (j.hintOf goal)

/-- The premises that an assumption piece may still bring in. -/
def placeable (j : HintJob) : List (Option Formula) :=
  if j.palette.contains .assumption then j.unplaced else []

/-- The hint for a premise that alone makes the goal follow. -/
def assume (p : Option Formula) : Dialogue Hint :=
  match p with
  | some f => .done (Hint.assume f)
  | none => .fail (.defect .noFormula)

/-- The first premise that alone makes the goal follow; where there is none, `otherwise`. -/
def tryPremises (j : HintJob) (s : Settings) (otherwise : Dialogue Hint) :
    List (Option Formula) → Dialogue Hint
  | [] => otherwise
  | p :: ps =>
    (j.ask s (j.given ++ [p])).bind fun a =>
      match a.status with
      | .unsat => assume p
      | .sat => j.tryPremises s otherwise ps
      | _ => .done (Hint.unavailable a.explanation)

/-- With all premises at once, where there are several. -/
def tryTogether (j : HintJob) (s : Settings) (goal : Formula) (countermodel : Model) :
    Dialogue Hint :=
  if 1 < j.placeable.length then
    (j.ask s (j.given ++ j.placeable)).bind fun a =>
      match a.status with
      | .unsat => Dialogue.ofDefect (j.suggest s.search goal)
      | .sat => .done (Hint.doesNotFollow goal a.model)
      | _ => .done (Hint.unavailable a.explanation)
  else .done (Hint.doesNotFollow goal countermodel)

/-- What an answer about the formulas at hand leads to. -/
def goOn (j : HintJob) (s : Settings) (goal : Formula) (a : Answer) : Dialogue Hint :=
  match a.status with
  | .unsat => Dialogue.ofDefect (j.suggest s.search goal)
  | .sat => j.tryPremises s (j.tryTogether s goal a.model) j.placeable
  | _ => .done (Hint.unavailable a.explanation)

def run (j : HintJob) (s : Settings) : Dialogue Hint :=
  match j.early with
  | some h => .done h
  | none => (j.ask s j.given).bind fun a => match j.goal with
    | some goal => j.goOn s goal a
    | none => .fail (.defect .noFormula)

end HintJob

namespace Board

/-- The whole hint for a board. -/
def hint (b : Board) (s : Settings) (goal : Option Formula) : Dialogue Hint :=
  (Dialogue.ofDefect (b.prepareHint s.checker goal)).bind fun j => j.run s

end Board

end DeductionBoard
