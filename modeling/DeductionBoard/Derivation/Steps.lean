import DeductionBoard.Derivation.Report

/-! A derivation as numbered lines: one for each piece that contributes to the goal and derives
something, producers first, with the numbers of the lines of its premises. -/

namespace DeductionBoard

open DeductionBoard.Derivation

namespace Board

/-- The pieces that the goal is made of, itself included. -/
def contributing (b : Board) (goal : PieceId) : List PieceId := goal :: b.dependencies goal

/-- The name of a line's rule, with what the rule discharges or binds. -/
def ruleText (p : Piece) : String :=
  if p.kind.discharges then
    let h := match p.params.hypothesis with
      | some f => f.pretty
      | none => Value.null.display
    p.kind.label ++ " (discharging " ++ h ++ ")"
  else if p.kind.binds then p.kind.label ++ " " ++ p.params.variableName.display
  else p.kind.label

/-- One line of a derivation: the piece, the numbers of the lines of its premises, and what it
derives. -/
structure Line where
  piece : Piece
  references : List Nat
  formula : Formula
  deriving DecidableEq, Repr

def Line.text (number : Nat) (l : Line) : String :=
  let wiring :=
    if l.references.isEmpty then ""
    else " [" ++ String.intercalate ", " (l.references.map toString) ++ "]"
  toString number ++ ". " ++ ruleText l.piece ++ wiring ++ " ⊢ " ++ l.formula.pretty

/-- The number of the line of a piece. -/
def lineNumber? (ls : List Line) (i : PieceId) : Option Nat :=
  (ls.findIdx? fun l => l.piece.id = i).map (· + 1)

/-- The line of a piece after the lines `ls`, where the piece derives something. -/
def lineOf? (b : Board) (r : Report) (ls : List Line) (i : PieceId) : Option Line :=
  match r.statuses.conclusion? i, b.piece? i with
  | some c, some p => some ⟨p, p.premises.filterMap (lineNumber? ls), c.formula⟩
  | _, _ => none

/-- The lines of the derivation of the goal. -/
def lines (b : Board) (r : Report) : List Line :=
  match r.goal with
  | none => []
  | some g =>
    (b.order.filter fun i => i ∈ b.contributing g).foldl
      (fun ls i => ls ++ (b.lineOf? r ls i).toList) []

def steps (b : Board) (r : Report) : List String :=
  (b.lines r).mapIdx fun n l => l.text (n + 1)

end Board

end DeductionBoard
