import DeductionBoard.Board.Position
import DeductionBoard.Derivation.Status

/-! Pieces: one instance of a rule at a place of the grid. A premise slot holds the number of the
piece whose conclusion goes there. -/

namespace DeductionBoard

structure Piece where
  id : PieceId
  kind : RuleKind
  position : Position
  params : Params
  slots : List (Option PieceId)
  /-- The status that the last check found; nothing once it may be out of date. -/
  cache : Option Status
  deriving DecidableEq, Repr

namespace Piece

/-- A piece with all its slots empty. -/
def fresh (id : PieceId) (kind : RuleKind) (position : Position) (params : Params) : Piece :=
  ⟨id, kind, position, params, List.replicate kind.arity none, none⟩

/-- The number of slots is not the one of the rule. -/
structure SlotMismatch where
  kind : RuleKind
  given : Nat
  deriving DecidableEq, Repr

def SlotMismatch.message (m : SlotMismatch) : String :=
  m.kind.name ++ " piece needs " ++ toString m.kind.arity ++ " slots, got " ++ toString m.given

/-- A piece with given slots, unless there are too many or too few; no slots at all means that all
of them are empty. -/
def withSlots (id : PieceId) (kind : RuleKind) (position : Position) (params : Params)
    (slots : List (Option PieceId)) : Except SlotMismatch Piece :=
  if slots.isEmpty then .ok (fresh id kind position params)
  else if slots.length = kind.arity then .ok ⟨id, kind, position, params, slots, none⟩
  else .error ⟨kind, slots.length⟩

/-- The wired premises in slot order. -/
def premises (p : Piece) : List PieceId := p.slots.filterMap fun s => s

/-- The positions of the empty slots. -/
def missing (p : Piece) : List Nat :=
  (p.slots.zipIdx.filter fun s => s.1.isNone).map (·.2)

def isComplete (p : Piece) : Bool := p.missing.isEmpty

def forget (p : Piece) : Piece := { p with cache := none }

/-- The formula of the cached status. -/
def derived? (p : Piece) : Option Formula := p.cache.bind Status.formula?

/-- What is written on the piece. -/
def label (p : Piece) : String :=
  match p.kind, p.params.formula with
  | .assumption, some f => f.pretty
  | k, _ =>
    if k.binds ∧ p.params.variableName.holds then k.label ++ " " ++ p.params.variableName.display
    else k.label

end Piece

end DeductionBoard
