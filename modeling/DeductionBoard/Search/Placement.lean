import DeductionBoard.Board.Edit
import DeductionBoard.Level.Grid
import DeductionBoard.Search.Construction

/-! Constructions on the board. A new piece stands one column right of its rightmost premise, a leaf
in the first column; where the cell is taken, the nearest free one is used. -/

namespace DeductionBoard

/-- The number of steps between two cells. -/
def cellDistance (c d : Cell) : Nat := (c.1 - d.1).natAbs + (c.2 - d.2).natAbs

/-- Nearer to `wanted`, then further left, then higher up. -/
def isBetterCell (wanted c d : Cell) : Bool :=
  let m := cellDistance wanted c
  let n := cellDistance wanted d
  m < n || (m = n && (c.1 < d.1 || (c.1 = d.1 && c.2 < d.2)))

/-- The better of two cells. -/
def betterCell (wanted : Cell) (best : Option Cell) (c : Cell) : Option Cell :=
  match best with
  | none => some c
  | some d => if isBetterCell wanted c d then some c else some d

/-- The cells of a grid, column by column. -/
def Grid.cells (g : Grid) : List Cell :=
  (List.range g.width.toNat).flatMap fun (x : Nat) =>
    (List.range g.height.toNat).map fun (y : Nat) => ((x : Int), (y : Int))

/-- The free cell that comes first below `wanted`, itself included. -/
def freeCellBelow (occupied : List Cell) (wanted : Cell) : Cell :=
  let cells := (List.range (occupied.length + 1)).map fun (i : Nat) =>
    (wanted.1, wanted.2 + (i : Int))
  (cells.find? fun c => !occupied.contains c).getD wanted

/-- The best free cell for a piece that is wanted on a cell; there is always one without a grid. -/
def freeCell (grid : Option Grid) (occupied : List Cell) (wanted : Cell) : Option Cell :=
  match grid with
  | none => some (freeCellBelow occupied wanted)
  | some g => (g.cells.filter fun c => !occupied.contains c).foldl (betterCell wanted) none

/-- A board under construction, its occupied cells, and the row of the next leaf. -/
structure Site where
  board : Board
  occupied : List Cell
  nextRow : Int

namespace Site

def ofBoard (b : Board) : Site := ⟨b, b.pieces.filterMap (·.position.cell?), 0⟩

/-- A piece where it stands. -/
structure Standing where
  cell : Cell
  piece : PieceId

/-- What is left of the site, and where the piece stands unless it does not fit. -/
abbrev Attempt := Except EditError (Site × Option Standing)

/-- Wires premises into the slots of a piece from slot `n` on. -/
def wireAll (b : Board) (i : PieceId) : (n : Nat) → List PieceId → Except EditError Board
  | _, [] => .ok b
  | n, s :: r => match b.wire i n s with
    | .error e => .error e
    | .ok b => wireAll b i (n + 1) r

/-- Adds a piece near a cell and wires its premises. -/
def install (s : Site) (grid : Option Grid) (kind : RuleKind) (params : Params) (wanted : Cell)
    (premises : List PieceId) : Attempt :=
  match freeCell grid s.occupied wanted with
  | none => .ok (s, none)
  | some cell =>
    let i := s.board.nextId
    match wireAll (s.board.add kind (.cell cell) params) i 0 premises with
    | .error e => .error e
    | .ok b => .ok (⟨b, cell :: s.occupied, s.nextRow⟩, some ⟨cell, i⟩)

def installLeaf (s : Site) (grid : Option Grid) (kind : RuleKind) (params : Params) : Attempt :=
  { s with nextRow := s.nextRow + 1 }.install grid kind params (0, s.nextRow) []

def installAbove (s : Site) (grid : Option Grid) (c : Construction) (p : Standing) : Attempt :=
  s.install grid c.kind c.params (1 + p.cell.1, p.cell.2) [p.piece]

def installAboveBoth (s : Site) (grid : Option Grid) (c : Construction) (p q : Standing) : Attempt :=
  s.install grid c.kind c.params (1 + max p.cell.1 q.cell.1, p.cell.2) [p.piece, q.piece]

/-- Goes on where the attempt has a standing piece. -/
def Attempt.andThen (a : Attempt) (next : Site → Standing → Attempt) : Attempt :=
  match a with
  | .error e => .error e
  | .ok (s, none) => .ok (s, none)
  | .ok (s, some p) => next s p

/-- Puts a construction on the site, premises first; it stops at the first piece that does not
fit. -/
def place (grid : Option Grid) (s : Site) : Construction → Attempt
  | .reused i _ _ _ => match s.board.piece? i with
    | none => .error (.unknownPiece i)
    | some p => match p.position.cell? with
      | none => .error .notAPosition
      | some cell => .ok (s, some ⟨cell, i⟩)
  | c@(.assume _) => s.installLeaf grid c.kind c.params
  | c@(.both l r) =>
    (place grid s l).andThen fun s p => (place grid s r).andThen fun s q =>
      s.installAboveBoth grid c p q
  | c@(.leftOf d _) => (place grid s d).andThen fun s p => s.installAbove grid c p
  | c@(.rightOf _ d) => (place grid s d).andThen fun s p => s.installAbove grid c p
  | c@(.implies _ d) => (place grid s d).andThen fun s p => s.installAbove grid c p
  | c@(.refute _ d e) =>
    (place grid s d).andThen fun s p => (place grid s e).andThen fun s q =>
      s.installAboveBoth grid c p q
  | c@(.quantify _ _ _ _ d) => (place grid s d).andThen fun s p => s.installAbove grid c p

end Site

/-- A board after a construction was put on it, and whether all of it fits. -/
structure Built where
  board : Board
  fits : Bool
  deriving DecidableEq, Repr

namespace Board

/-- Wires the goal piece; where there is none, one is put right of the root. -/
def finish (grid : Option Grid) (s : Site) (root : Site.Standing) : Except EditError Built :=
  match s.board.goal with
  | some g => match s.board.wire g 0 root.piece with
    | .error e => .error e
    | .ok b => .ok ⟨b, true⟩
  | none => match freeCell grid s.occupied (root.cell.1 + 1, root.cell.2) with
    | none => .ok ⟨s.board, false⟩
    | some cell =>
      match (s.board.add .goal (.cell cell) Params.empty).wire s.board.nextId 0 root.piece with
      | .error e => .error e
      | .ok b => .ok ⟨b, true⟩

/-- Wires the goal to what an attempt has come to. -/
def complete (grid : Option Grid) : Site.Attempt → Except EditError Built
  | .error e => .error e
  | .ok (s, none) => .ok ⟨s.board, false⟩
  | .ok (s, some root) => finish grid s root

/-- Puts a construction on the board and wires it into the goal. The positions of the pieces have to
be ones that can be looked up. -/
def build (b : Board) (grid : Option Grid) (c : Construction) : Except EditError Built :=
  if b.pieces.all fun p => p.position.isKey then complete grid ((Site.ofBoard b).place grid c)
  else .error .notAPosition

/-- Puts an assumption without a formula on the board and wires it into the goal. -/
def buildBlank (b : Board) (grid : Option Grid) : Except EditError Built :=
  complete grid ((Site.ofBoard b).installLeaf grid .assumption Params.empty)

end Board

end DeductionBoard
