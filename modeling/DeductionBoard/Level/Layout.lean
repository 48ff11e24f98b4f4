import DeductionBoard.Board.Topology
import DeductionBoard.Level.Basic

/-! The layout of a board against the grid, the palette and the budget of a level. Errors keep an
attempt from being submitted; warnings do not. Main definitions: `layout`, for which a position that
the grid cannot judge is outside it, and `inspect`, which breaks off at such a position. -/

namespace DeductionBoard

structure LayoutReport where
  errors : List String
  warnings : List String
  deriving DecidableEq, Repr

namespace Level

variable {F : Type}

/-- The rules whose pieces may stand on the grid: the palette, the goal, and what was placed. -/
def allows (l : Level F) (k : RuleKind) : Bool :=
  l.palette.contains k || k = .goal || l.pieces.any fun p => p.kind = k

/-- The errors of pieces, after those that stand on the grid already. -/
def layoutErrorsFrom (l : Level F) : (before : List Piece) → List Piece → List String
  | _, [] => []
  | before, p :: ps =>
    let name := "Piece " ++ toString p.id
    (if l.grid.hasOn p.position then []
     else [name ++ " at " ++ p.position.text ++ " is outside the " ++ toString l.grid.width ++ "x" ++
      toString l.grid.height ++ " grid"]) ++
      (match before.find? fun q => q.position.alike p.position with
       | some q => [name ++ " overlaps piece " ++ toString q.id ++ " at " ++ p.position.text]
       | none => []) ++
      (if l.allows p.kind then []
       else [name ++ ": rule " ++ p.kind.label ++ " is not available in this puzzle"]) ++
      layoutErrorsFrom l (before ++ [p]) ps

def overfullErrors (l : Level F) (n : Nat) : List String :=
  match l.grid.limit with
  | some limit =>
    if limit.isExceeded n then
      [toString n ++ " pieces placed, limit is " ++ limit.written.display]
    else []
  | none => []

def layoutWarnings (b : Board) : List String :=
  match b.goal with
  | none => ["No goal piece placed"]
  | some g =>
    let connected := g :: b.dependencies g
    (b.pieces.filter fun p => p.id ∉ connected).map fun p =>
      "Piece " ++ toString p.id ++ " (" ++ p.label ++ ") is not connected to the goal"

def layout (l : Level F) (b : Board) : LayoutReport :=
  ⟨l.layoutErrorsFrom [] b.pieces ++ l.overfullErrors b.pieces.length, layoutWarnings b⟩

/-- Why the position of a piece cannot be judged: the grid is asked first, and then the position is
looked up among the others. -/
def positionFault? (l : Level F) (p : Position) : Option PositionFault :=
  match l.grid.contains p with
  | .error f => some f
  | .ok _ => if p.isKey then none else some .illTyped

/-- The layout, unless one of the positions cannot be judged. -/
def inspect (l : Level F) (b : Board) : Except PositionFault LayoutReport :=
  match b.pieces.findSome? fun p => l.positionFault? p.position with
  | some f => .error f
  | none => .ok (l.layout b)

end Level

def LayoutReport.isValid (r : LayoutReport) : Bool := r.errors.isEmpty

end DeductionBoard
