import DeductionBoard.Board.Piece

/-! Boards of pieces. A board has a target to derive, the premises that may stay open, and pieces in
ascending order of their numbers. Numbers are never used twice. A level may leave its target or a
premise out; the board then has none in its place. -/

namespace DeductionBoard

structure Board where
  target : Option Formula
  /-- The formulas that may stay open; nothing here means that any may. -/
  premises : Option (List (Option Formula))
  puzzleId : Option String
  palette : Palette
  /-- The designated goal piece. -/
  goal : Option PieceId
  pieces : List Piece
  nextId : PieceId
  /-- The number of changes so far. -/
  revision : Nat
  deriving DecidableEq, Repr

/-- Everything about a board that a player can see. -/
structure Snapshot where
  target : Option Formula
  premises : Option (List (Option Formula))
  goal : Option PieceId
  /-- The pieces without their cached statuses. -/
  pieces : List Piece
  deriving DecidableEq, Repr

namespace Board

/-- A board without pieces. -/
def empty (target : Option Formula) (premises : Option (List (Option Formula)))
    (puzzleId : Option String) (palette : Palette) : Board :=
  ⟨target, premises, puzzleId, palette, none, [], 1, 0⟩

/-- A board without pieces for a target and premises that are all there. -/
def fresh (target : Formula) (premises : Option (List Formula)) (puzzleId : Option String)
    (palette : Palette) : Board :=
  empty (some target) (premises.map (·.map some)) puzzleId palette

/-- The premises that are there. -/
def declared (b : Board) : List Formula := (b.premises.getD []).filterMap fun f => f

def piece? (b : Board) (i : PieceId) : Option Piece := b.pieces.find? fun p => p.id == i

def contains (b : Board) (i : PieceId) : Bool := (b.piece? i).isSome

def ids (b : Board) : List PieceId := b.pieces.map (·.id)

def piecesOfKind (b : Board) (k : RuleKind) : List Piece := b.pieces.filter fun p => p.kind = k

def pieceAt? (b : Board) (p : Position) : Option Piece :=
  b.pieces.find? fun q => q.position.alike p

/-- The formula that an assumption piece assumes. -/
def assumed? (b : Board) (i : PieceId) : Option Formula := (b.piece? i).bind (·.params.formula)

def snapshot (b : Board) : Snapshot :=
  ⟨b.target, b.premises, b.goal, b.pieces.map Piece.forget⟩

end Board

end DeductionBoard
