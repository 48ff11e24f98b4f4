import DeductionBoard.Board.Topology

/-! Edits of a board. An edit that fails leaves the board as it was, with one exception: a piece
whose position is no sequence uses up the number it would have had. An edit that changes a derivation
forgets the cached statuses of the piece and of everything that depends on it. -/

namespace DeductionBoard

inductive EditError where
  | unknownKind (v : Value)
  | unknownParameter
  | notAPosition
  | unknownPiece (id : PieceId)
  | slotOutOfRange (piece slot : Int) (arity : Nat)
  | cycle (piece source : PieceId)
  | notAGoal (piece : PieceId) (kind : RuleKind)
  deriving DecidableEq, Repr

namespace EditError

def message : EditError → String
  | .unknownKind v => v.shown ++ " is not a valid RuleKind"
  | .unknownParameter => ""
  | .notAPosition => ""
  | .unknownPiece i => "No piece with id " ++ toString i ++ " in this graph"
  | .slotOutOfRange p s a =>
    "Slot " ++ toString s ++ " out of range for piece " ++ toString p ++ " (arity " ++ toString a ++
      ")"
  | .cycle p s =>
    "Wiring piece " ++ toString s ++ " into piece " ++ toString p ++ " would create a cycle"
  | .notAGoal p k => "Piece " ++ toString p ++ " is a " ++ k.name ++ " piece and cannot be the goal"

/-- What a caller needs to know about the failure. -/
def context : EditError → List (String × Value)
  | .unknownPiece i => [("piece_id", .int i)]
  | .slotOutOfRange p s a => [("piece_id", .int p), ("slot", .int s), ("arity", .int a)]
  | .cycle p s => [("piece_id", .int p), ("source_id", .int s)]
  | .notAGoal p k => [("piece_id", .int p), ("kind", .text k.name)]
  | _ => []

end EditError

namespace Board

/-- The piece of a number that has to be in use. -/
def require (b : Board) (i : PieceId) : Except EditError Piece :=
  match b.piece? i with
  | some p => .ok p
  | none => .error (.unknownPiece i)

/-- What an existing piece depends on. -/
def dependenciesOf (b : Board) (i : PieceId) : Except EditError (List PieceId) :=
  (b.require i).map fun _ => b.dependencies i

/-- What depends on an existing piece. -/
def dependentsOf (b : Board) (i : PieceId) : Except EditError (List PieceId) :=
  (b.require i).map fun _ => b.dependents i

def bump (b : Board) : Board := { b with revision := b.revision + 1 }

/-- Changes every piece of a set of numbers. -/
def update (b : Board) (is : List PieceId) (f : Piece → Piece) : Board :=
  { b with pieces := b.pieces.map fun p => if p.id ∈ is then f p else p }

/-- Forgets the statuses of a piece and of what depends on it. -/
def forgetFrom (b : Board) (i : PieceId) : Board := b.update (i :: b.dependents i) Piece.forget

/-- Adds a piece; the first goal piece becomes the goal. -/
def add (b : Board) (kind : RuleKind) (position : Position) (params : Params) : Board :=
  let goal := if kind = .goal ∧ b.goal = none then some b.nextId else b.goal
  { b with goal := goal, pieces := b.pieces ++ [Piece.fresh b.nextId kind position params],
           nextId := b.nextId + 1 }.bump

/-- Adds a piece from unjudged values and returns its number. -/
def place (b : Board) (kind : Value) (position : Option Position)
    (params : List (String × ParamValue)) : Board × Except EditError PieceId :=
  match RuleKind.ofValue kind with
  | .error v => (b, .error (.unknownKind v))
  | .ok k => match Params.ofFields params with
    | none => (b, .error .unknownParameter)
    | some ps => match position with
      | none => ({ b with nextId := b.nextId + 1 }, .error .notAPosition)
      | some p => (b.add k p ps, .ok b.nextId)

/-- The piece of a number and the position of one of its slots. -/
def slot? (b : Board) (i : PieceId) (slot : Int) : Except EditError (Piece × Nat) :=
  match b.piece? i with
  | none => .error (.unknownPiece i)
  | some p =>
    if 0 ≤ slot ∧ slot < p.kind.arity then .ok (p, slot.toNat)
    else .error (.slotOutOfRange i slot p.kind.arity)

def setSlot (b : Board) (i : PieceId) (slot : Nat) (s : Option PieceId) : Board :=
  b.update [i] fun p => { p with slots := p.slots.set slot s }

/-- Wires the conclusion of `source` into a slot of `i`. -/
def wire (b : Board) (i : PieceId) (slot : Int) (source : PieceId) : Except EditError Board :=
  if ¬ b.contains i then .error (.unknownPiece i)
  else if ¬ b.contains source then .error (.unknownPiece source)
  else match b.slot? i slot with
    | .error e => .error e
    | .ok (_, n) =>
      if source = i ∨ i ∈ b.dependencies source then .error (.cycle i source)
      else .ok ((b.setSlot i n (some source)).forgetFrom i).bump

/-- Clears a slot; an empty one stays as it is. -/
def unwire (b : Board) (i : PieceId) (slot : Int) : Except EditError Board :=
  match b.slot? i slot with
  | .error e => .error e
  | .ok (p, n) =>
    if (p.slots[n]?).join = none then .ok b
    else .ok ((b.setSlot i n none).forgetFrom i).bump

/-- Removes a piece and clears every slot that was wired from it. -/
def remove (b : Board) (i : PieceId) : Except EditError Board :=
  if ¬ b.contains i then .error (.unknownPiece i)
  else
    let users := b.consumers i
    let cleared := b.update users fun p =>
      { p with slots := p.slots.map fun s => if s = some i then none else s }
    let forgotten := users.foldl forgetFrom cleared
    .ok { forgotten with
          pieces := forgotten.pieces.filter fun p => p.id ≠ i
          goal := if b.goal = some i then none else b.goal }.bump

/-- Designates a goal piece. -/
def setGoal (b : Board) (i : PieceId) : Except EditError Board :=
  match b.piece? i with
  | none => .error (.unknownPiece i)
  | some p =>
    if p.kind ≠ .goal then .error (.notAGoal i p.kind)
    else if b.goal = some i then .ok b
    else .ok { b with goal := some i }.bump

/-- Puts a piece somewhere else. -/
def move (b : Board) (i : PieceId) (position : Option Position) : Except EditError Board :=
  match position with
  | none => .error .notAPosition
  | some q =>
    if ¬ b.contains i then .error (.unknownPiece i)
    else .ok (b.update [i] fun p => { p with position := q }).bump

end Board

/-- One edit as a caller asks for it. -/
inductive Edit where
  | add (kind : Value) (position : Option Position) (params : List (String × ParamValue))
  | wire (piece : PieceId) (slot : Int) (source : PieceId)
  | unwire (piece : PieceId) (slot : Int)
  | remove (piece : PieceId)
  | setGoal (piece : PieceId)
  | move (piece : PieceId) (position : Option Position)

namespace Edit

/-- The board after an edit without a result of its own. -/
def settle (b : Board) : Except EditError Board → Board × Except EditError (Option PieceId)
  | .ok b' => (b', .ok none)
  | .error e => (b, .error e)

/-- The board after an edit, and the number of the piece it added or the reason it failed. -/
def apply (b : Board) : Edit → Board × Except EditError (Option PieceId)
  | .add k p ps => match b.place k p ps with
    | (b', .ok i) => (b', .ok (some i))
    | (b', .error e) => (b', .error e)
  | .wire i n s => settle b (b.wire i n s)
  | .unwire i n => settle b (b.unwire i n)
  | .remove i => settle b (b.remove i)
  | .setGoal i => settle b (b.setGoal i)
  | .move i p => settle b (b.move i p)

end Edit

end DeductionBoard
