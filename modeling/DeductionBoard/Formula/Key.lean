import DeductionBoard.Formula.Order

/-! Sort keys. A key is a number, a text or a tuple of keys. Tuples are compared at the first place
where they differ, and a tuple that ends there comes first; a number and a text have no order. The
key of a formula is the tuple of its rank, its name or variable if it has one, and the keys of its
parts. -/

namespace DeductionBoard

inductive Key where
  | number (n : Nat)
  | text (s : String)
  | tuple (items : List Key)
  deriving Repr

namespace Key

mutual
/-- Equality of keys; keys of different types are never equal. -/
def same : Key → Key → Bool
  | .number m, .number n => m == n
  | .text s, .text t => s == t
  | .tuple xs, .tuple ys => sameItems xs ys
  | _, _ => false
def sameItems : List Key → List Key → Bool
  | [], [] => true
  | x :: xs, y :: ys => same x y && sameItems xs ys
  | _, _ => false
end

mutual
/-- Whether a key comes before another. There is no answer where values of different types have to
be compared. -/
def less? : Key → Key → Option Bool
  | .number m, .number n => some (m < n)
  | .text s, .text t => some (s < t)
  | .tuple xs, .tuple ys => lessItems? xs ys
  | _, _ => none
def lessItems? : List Key → List Key → Option Bool
  | [], ys => some !ys.isEmpty
  | _ :: _, [] => some false
  | x :: xs, y :: ys => if same x y then lessItems? xs ys else less? x y
end

end Key

namespace Formula

def sortKey : Formula → Key
  | f@(.atom n args) => .tuple [.number f.rank, .text n, .tuple (args.map .text)]
  | f@(.neg g) => .tuple [.number f.rank, g.sortKey]
  | f@(.binary _ l r) => .tuple [.number f.rank, l.sortKey, r.sortKey]
  | f@(.quantified _ v g) => .tuple [.number f.rank, .text v, g.sortKey]

end Formula

end DeductionBoard
