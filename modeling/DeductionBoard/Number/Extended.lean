/-! What numbers of any notation are compared as: the rational numbers with an infinity at both ends,
and a value that is no number and stands in no order to anything. -/

namespace DeductionBoard.Number

inductive Extended where
  | exact (q : Rat)
  | infinite (negative : Bool)
  | undefined
  deriving DecidableEq, Repr

namespace Extended

def lt : Extended → Extended → Bool
  | .exact p, .exact q => p < q
  | .infinite true, .exact _ | .infinite true, .infinite false | .exact _, .infinite false => true
  | _, _ => false

/-- Numeric equality; what is no number does not even equal itself. -/
def same : Extended → Extended → Bool
  | .exact p, .exact q => p = q
  | .infinite b, .infinite c => b == c
  | _, _ => false

def le (x y : Extended) : Bool := x.lt y || x.same y

/-- The number `n`. -/
def ofInt (n : Int) : Extended := .exact n

/-- The whole numbers up to `x` are those up to the result; nothing where there is no bound. -/
def floor? : Extended → Option Int
  | .exact q => some q.floor
  | _ => none

end Extended

end DeductionBoard.Number
