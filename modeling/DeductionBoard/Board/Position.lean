import DeductionBoard.Data.Value

/-! Where pieces stand. A piece stands on a cell of the grid, or at a position that is none: any
sequence of values is kept as it was given, and the grid judges it only when a layout is looked at. -/

namespace DeductionBoard

/-- A cell of the grid: column and row. -/
abbrev Cell := Int × Int

inductive Position where
  | cell (c : Cell)
  /-- Items that are not two whole numbers. -/
  | items (vs : List Value)
  deriving DecidableEq, Repr

namespace Position

/-- The position with the given items. -/
def ofItems : List Value → Position
  | [.int x, .int y] => .cell (x, y)
  | vs => .items vs

/-- The position that a value describes: its items, characters or keys. -/
def ofValue? (v : Value) : Option Position := v.elements?.map ofItems

def toItems : Position → List Value
  | .cell c => [.int c.1, .int c.2]
  | .items vs => vs

/-- Positions alike: their items are, numbers being compared by their size. -/
def alike : Position → Position → Bool
  | .cell c, .cell d => c = d
  | p, q => Value.alikeItems p.toItems q.toItems

/-- All items can be keys of a table, and so can the position. -/
def isKey (p : Position) : Bool := p.toItems.all Value.isKey

/-- The whole number that a number is. -/
def whole? (v : Value) : Option Int :=
  match v.number? with
  | some (.exact q) => if q.den = 1 then some q.num else none
  | _ => none

/-- The cell that the position is, where its items are two numbers without a fraction. -/
def cell? : Position → Option Cell
  | .cell c => some c
  | .items [x, y] => match whole? x, whole? y with
    | some x, some y => some (x, y)
    | _, _ => none
  | .items _ => none

/-- The position in parentheses; a single item has a comma after it. -/
def text (p : Position) : String :=
  let inner := match p.toItems with
    | [v] => v.shown ++ ","
    | vs => String.intercalate ", " (vs.map Value.shown)
  "(" ++ inner ++ ")"

end Position

end DeductionBoard
