import DeductionBoard.Level.Layout
import DeductionBoard.Search.Backward
import DeductionBoard.Search.Placement

/-! Example solutions of a puzzle, built as a player could: on top of the placed pieces, with the
palette, inside the grid and within the budget. For a target that is missing, an assumption without
a formula is all that can be found. -/

namespace DeductionBoard

namespace Level

/-- The assumptions on a board, each formula under the first piece that assumes it. -/
def placedAssumptions (b : Board) : List (Formula × Search.Placed) :=
  (b.piecesOfKind .assumption).filterMap fun p =>
    p.params.formula.map fun f => (f, ⟨p.id, .assumption, [f]⟩)

/-- The number of pieces that may be added, besides the goal. -/
def room (l : Draft) : Int :=
  let b := l.board
  let reserved : Int := b.pieces.length + (if b.goal.isSome then 0 else 1)
  let free := l.grid.width * l.grid.height - reserved
  match l.grid.limit.bind (·.count) with
  | some n => min free (n - reserved)
  | none => free

/-- The premises that are there. -/
def declared (l : Draft) : List Formula := l.premises.filterMap fun f => f

/-- What a search for a solution may use. -/
def resources (l : Draft) (s : SearchSettings) : Search.Resources :=
  ⟨l.palette, placedAssumptions l.board, Search.nodeLimit s, l.premises.any Option.isNone⟩

/-- The search for the target. -/
def search (l : Draft) (s : SearchSettings) (target : Formula) : Except Defect Search.Outcome :=
  Search.prove (l.resources s) (Search.depthLimit s) l.declared target (some l.room)

/-- A board that the level allows, out of what was built. -/
def accepted? (l : Draft) : Except EditError Built → Option Board
  | .ok ⟨b, true⟩ => if (l.layout b).isValid then some b else none
  | _ => none

/-- A solved board, if the search finds one that the level allows. -/
def solution (l : Draft) (s : SearchSettings) : Except Defect (Option Board) :=
  if l.room < 0 then .ok none
  else match l.target with
    | some target => (l.search s target).map fun o =>
      o.found.bind fun c => l.accepted? (l.board.build (some l.grid) c)
    | none =>
      (Search.provesBlank (l.resources s) (Search.depthLimit s) (some l.room)).map fun found =>
        if found then l.accepted? (l.board.buildBlank (some l.grid)) else none

end Level

end DeductionBoard
