import DeductionBoard.Board.Basic

/-! The wiring of a board as a graph: producers and consumers of a piece, everything that it depends
on or that depends on it, and the order in which pieces are checked. -/

namespace DeductionBoard

/-- Everything met on a walk from `pending` along `next` inside `domain`. A value that is met leaves
the domain, so the walk ends on every graph. -/
def walk {α : Type} [DecidableEq α] (next : α → List α) (domain pending : List α) : List α :=
  match pending with
  | [] => []
  | x :: rest =>
    if x ∈ domain then x :: walk next (domain.erase x) (next x ++ rest) else walk next domain rest
termination_by (domain.length, pending.length)
decreasing_by
  · have h := List.length_erase_of_mem (by assumption : x ∈ domain)
    have := List.length_pos_of_mem (by assumption : x ∈ domain)
    apply Prod.Lex.left
    omega
  · apply Prod.Lex.right
    simp

namespace Board

/-- The pieces that a piece is wired from. -/
def producers (b : Board) (i : PieceId) : List PieceId :=
  match b.piece? i with
  | some p => p.premises
  | none => []

/-- The pieces with a slot wired from a piece, ascending. -/
def consumers (b : Board) (i : PieceId) : List PieceId :=
  (b.pieces.filter fun p => some i ∈ p.slots).map (·.id)

/-- The pieces that `i` depends on, ascending. -/
def dependencies (b : Board) (i : PieceId) : List PieceId :=
  Ascending.ofList (walk b.producers b.ids (b.producers i))

/-- The pieces that depend on `i`, ascending. -/
def dependents (b : Board) (i : PieceId) : List PieceId :=
  Ascending.ofList (walk b.consumers b.ids (b.consumers i))

/-- No premise of the piece is among `waiting`. -/
def isReady (waiting : List Piece) (p : Piece) : Bool :=
  p.premises.all fun s => waiting.all fun q => q.id != s

/-- Takes the first ready piece as long as there is one. -/
def orderFrom (waiting : List Piece) : List PieceId :=
  match _h : waiting.find? (isReady waiting) with
  | none => []
  | some p => p.id :: orderFrom (waiting.erase p)
termination_by waiting.length
decreasing_by
  have h := List.mem_of_find?_eq_some _h
  have := List.length_erase_of_mem h
  have := List.length_pos_of_mem h
  omega

/-- Producers before consumers, and among the ready pieces the one with the least number first. -/
def order (b : Board) : List PieceId := orderFrom b.pieces

end Board

end DeductionBoard
