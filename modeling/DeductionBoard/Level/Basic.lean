import DeductionBoard.Board.Edit
import DeductionBoard.Level.Grid

/-! Levels: a target, the premises that may stay open, a palette, a grid and the pieces that stand
on it from the start. The formulas of a level that was read from storage may be missing, so the type
of formulas is a parameter; a puzzle is a level that has them all. -/

namespace DeductionBoard

/-- A piece that stands on the grid from the start. -/
structure Placement where
  kind : RuleKind
  cell : Cell
  params : Params
  deriving DecidableEq, Repr

structure Level (F : Type) where
  id : String
  /-- The name as it was given; only texts are names. -/
  name : Value
  description : Value
  target : F
  premises : List F
  palette : Palette
  grid : Grid
  pieces : List Placement
  deriving DecidableEq, Repr

abbrev Puzzle := Level Formula

/-- A level as it is stored: a formula may be missing. -/
abbrev Draft := Level (Option Formula)

namespace Level

/-- A level with all its formulas. -/
def complete? (l : Draft) : Option Puzzle :=
  match l.target, l.premises.mapM fun f => f with
  | some target, some premises =>
    some ⟨l.id, l.name, l.description, target, premises, l.palette, l.grid, l.pieces⟩
  | _, _ => none

/-- A puzzle as a level in which no formula is missing. -/
def ofPuzzle (p : Puzzle) : Draft :=
  ⟨p.id, p.name, p.description, some p.target, p.premises.map some, p.palette, p.grid, p.pieces⟩

/-- The board of a fresh attempt. -/
def board (l : Draft) : Board :=
  l.pieces.foldl (fun b q => b.add q.kind (.cell q.cell) q.params)
    (Board.empty l.target (some l.premises) (some l.id) l.palette)

end Level

end DeductionBoard
