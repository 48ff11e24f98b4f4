/-! Rounding of a quotient of natural numbers to the nearest one, a half going to the even
neighbour. -/

namespace DeductionBoard.Number

/-- The natural number nearest to `n / d`; of two equally near ones the even one. -/
def roundHalfEven (n d : Nat) : Nat :=
  let q := n / d
  let r := n % d
  if d < 2 * r ∨ (2 * r = d ∧ q % 2 = 1) then q + 1 else q

end DeductionBoard.Number
