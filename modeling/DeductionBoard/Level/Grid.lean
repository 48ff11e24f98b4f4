import DeductionBoard.Board.Position

/-! The grid of a level: its size and the number of pieces that fit the budget. The constraints are
judged as the values they are given as; a grid has whole numbers for its size. -/

namespace DeductionBoard

open Number

/-- A limit on the number of pieces, with the value that the level writes for it. No number of pieces
exceeds a limit without a count. -/
structure PieceLimit where
  count : Option Int
  written : Value
  deriving DecidableEq, Repr

/-- More pieces than the limit allows. -/
def PieceLimit.isExceeded (l : PieceLimit) (n : Nat) : Bool := l.count.any fun (k : Int) => k < n

inductive GridFault where
  | dimensions
  | limit
  /-- A value of the wrong kind. -/
  | illTyped (kind : String)
  deriving DecidableEq, Repr

/-- The wording of a fault; ill-typed values have none. -/
def GridFault.message? : GridFault → Option String
  | .dimensions => some "Grid dimensions must be positive"
  | .limit => some "max_pieces must be positive when set"
  | .illTyped _ => none

/-- Why fields are no constraints of a grid. -/
inductive FrameFault where
  | unknownField
  | judged (f : GridFault)
  deriving DecidableEq, Repr

/-- The wording of a fault; an unknown field has none. -/
def FrameFault.message? : FrameFault → Option String
  | .unknownField => none
  | .judged f => f.message?

/-- Why it cannot be told whether a position is on a grid. -/
inductive PositionFault where
  | tooFew (given : Nat)
  | tooMany
  | illTyped
  deriving DecidableEq, Repr

/-- The wording of a fault; ill-typed items have none. -/
def PositionFault.message? : PositionFault → Option String
  | .tooFew n => some ("not enough values to unpack (expected 2, got " ++ toString n ++ ")")
  | .tooMany => some "too many values to unpack (expected 2)"
  | .illTyped => none

/-- The constraints of a grid as values that have been judged. -/
structure Frame where
  width : Value
  height : Value
  limit : Option PieceLimit
  deriving DecidableEq, Repr

structure Grid where
  width : Int
  height : Int
  limit : Option PieceLimit
  deriving DecidableEq, Repr

namespace Frame

/-- Whether a value is above zero, where it is a number. -/
def isPositive (v : Value) : Except GridFault Bool :=
  match v.number? with
  | some x => .ok !(x.le (.ofInt 0))
  | none => .error (.illTyped v.kindName)

/-- The limit that a value sets; a missing value sets none. -/
def limitOf (v : Value) : Except GridFault (Option PieceLimit) :=
  if v = .null then .ok none
  else match isPositive v with
    | .error f => .error f
    | .ok false => .error .limit
    | .ok true => .ok (some ⟨v.number?.bind Extended.floor?, v⟩)

/-- The width is judged before the height, and the size before the limit. -/
def ofValues (width height limit : Value) : Except GridFault Frame :=
  match isPositive width with
  | .error f => .error f
  | .ok false => .error .dimensions
  | .ok true => match isPositive height with
    | .error f => .error f
    | .ok false => .error .dimensions
    | .ok true => (limitOf limit).map fun l => ⟨width, height, l⟩

def standardSize : Int := 10

/-- The constraints in fields; a size that is not given is the standard one. -/
def ofFields (fs : List (String × Value)) : Except FrameFault Frame :=
  if fs.any fun f => f.1 ∉ ["width", "height", "max_pieces"] then .error .unknownField
  else
    let field (key : String) (default : Value) : Value := (Value.field? key fs).getD default
    (ofValues (field "width" (.int standardSize)) (field "height" (.int standardSize))
      (field "max_pieces" .null)).mapError .judged

/-- A number from zero up to a bound. -/
def isWithin (x : Extended) (bound : Value) : Bool :=
  (Extended.ofInt 0).le x && bound.number?.any fun b => x.lt b

/-- Two numbers within the size; the second is looked at only where the first is within. -/
def contains (f : Frame) (items : List Value) : Except PositionFault Bool :=
  match items with
  | [x, y] => match x.number? with
    | none => .error .illTyped
    | some x =>
      if isWithin x f.width then
        match y.number? with
        | none => .error .illTyped
        | some y => .ok (isWithin y f.height)
      else .ok false
  | [] | [_] => .error (.tooFew items.length)
  | _ => .error .tooMany

/-- The grid of the constraints, where its size is given in whole numbers. -/
def grid? (f : Frame) : Option Grid :=
  let whole (v : Value) : Option Int := match v with
    | .int n => some n
    | .bool b => some (if b then 1 else 0)
    | _ => none
  match whole f.width, whole f.height with
  | some w, some h => some ⟨w, h, f.limit⟩
  | _, _ => none

end Frame

namespace Grid

def frame (g : Grid) : Frame := ⟨.int g.width, .int g.height, g.limit⟩

def standard : Grid := ⟨Frame.standardSize, Frame.standardSize, none⟩

/-- A grid of a given size with a limit as a value, unless one of the numbers is not positive. -/
def make (width height : Int) (limit : Value) : Except GridFault Grid :=
  (Frame.ofValues (.int width) (.int height) limit).map fun f => ⟨width, height, f.limit⟩

def inBounds (g : Grid) (c : Cell) : Bool :=
  0 ≤ c.1 && c.1 < g.width && 0 ≤ c.2 && c.2 < g.height

/-- Whether a position is on the grid, where that can be told. -/
def contains (g : Grid) : Position → Except PositionFault Bool
  | .cell c => .ok (g.inBounds c)
  | .items vs => g.frame.contains vs

/-- The position is on the grid. -/
def hasOn (g : Grid) (p : Position) : Bool :=
  match g.contains p with
  | .ok b => b
  | .error _ => false

end Grid

end DeductionBoard
