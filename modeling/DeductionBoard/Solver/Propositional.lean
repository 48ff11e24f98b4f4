/-! Propositional formulas over atoms of any kind, in negation normal form, and a search for an
assignment that makes one true: unit literals are set first, and then the first literal is tried both
ways. The number of literals that are tried both ways at once may be limited. -/

namespace DeductionBoard.Solver

inductive Literals (α : Type) where
  | truth (b : Bool)
  | literal (positive : Bool) (atom : α)
  | both (left right : Literals α)
  | either (left right : Literals α)
  deriving DecidableEq, Repr

namespace Literals

variable {α : Type}

abbrev Assignment (α : Type) := List (α × Bool)

def holds (v : α → Bool) : Literals α → Bool
  | .truth b => b
  | .literal positive a => v a == positive
  | .both l r => l.holds v && r.holds v
  | .either l r => l.holds v || r.holds v

/-- The number of literals. -/
def size : Literals α → Nat
  | .truth _ => 0
  | .literal _ _ => 1
  | .both l r => l.size + r.size
  | .either l r => l.size + r.size

def conjoin : Literals α → Literals α → Literals α
  | .truth true, r => r
  | .truth false, _ => .truth false
  | l, .truth true => l
  | _, .truth false => .truth false
  | l, r => .both l r

def disjoin : Literals α → Literals α → Literals α
  | .truth false, r => r
  | .truth true, _ => .truth true
  | l, .truth false => l
  | _, .truth true => .truth true
  | l, r => .either l r

/-- A literal that has to hold. -/
def unit? : Literals α → Option (α × Bool)
  | .literal positive a => some (a, positive)
  | .both l r => l.unit?.or r.unit?
  | _ => none

def first? : Literals α → Option (α × Bool)
  | .truth _ => none
  | .literal positive a => some (a, positive)
  | .both l r => l.first?.or r.first?
  | .either l r => l.first?.or r.first?

/-- What a search for an assignment comes to. -/
inductive Finding (α : Type) where
  | found (a : Assignment α)
  | contradictory
  /-- More literals would have to be tried both ways than is allowed. -/
  | gaveUp
  deriving DecidableEq, Repr

def Finding.set (a : α) (value : Bool) : Finding α → Finding α
  | .found as => .found ((a, value) :: as)
  | r => r

variable [DecidableEq α]

/-- The value of an atom; one that is not set is false. -/
def Assignment.value (as : Assignment α) (a : α) : Bool := (List.lookup a as).getD false

/-- The formula once an atom has a value. -/
def assign (a : α) (value : Bool) : Literals α → Literals α
  | .truth b => .truth b
  | .literal positive b => if b = a then .truth (value == positive) else .literal positive b
  | .both l r => conjoin (l.assign a value) (r.assign a value)
  | .either l r => disjoin (l.assign a value) (r.assign a value)

/-- What becomes of a formula without literals. -/
def settle (f : Literals α) : Finding α :=
  if f.holds fun _ => false then .found [] else .contradictory

/-- An assignment that makes the formula true. Each step sets one atom, so as many steps as there are
literals are enough. -/
def search : (steps branches : Nat) → Literals α → Finding α
  | 0, _, f => if f.first?.isNone then f.settle else .gaveUp
  | n + 1, k, f =>
    match f.first?, f.unit?, k with
    | none, _, _ => f.settle
    | some _, some (x, b), _ => (search n k (f.assign x b)).set x b
    | some _, none, 0 => .gaveUp
    | some (x, b), none, k + 1 =>
      match (search n k (f.assign x b)).set x b with
      | .contradictory => (search n k (f.assign x !b)).set x !b
      | r => r

/-- The result of a search, with a limit on the literals that are tried both ways at once. -/
def satisfy (branches : Option Nat) (f : Literals α) : Finding α :=
  search f.size (branches.getD f.size) f

end Literals

end DeductionBoard.Solver
