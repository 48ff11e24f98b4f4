import DeductionBoard.Data.Ascending

/-! Formulas of propositional and first-order logic. The arguments of an atom are names of
individuals; an occurrence is free unless an enclosing quantifier binds its name. Two formulas are
equal when they are written alike, so `P ∧ Q` differs from `Q ∧ P`. -/

namespace DeductionBoard

inductive Connective where
  | and
  | or
  | implies
  deriving DecidableEq, Repr

inductive Quantifier where
  | all
  | exist
  deriving DecidableEq, Repr

inductive Formula where
  | atom (name : String) (args : List String)
  | neg (body : Formula)
  | binary (op : Connective) (left right : Formula)
  | quantified (q : Quantifier) (var : String) (body : Formula)
  deriving DecidableEq, Repr

namespace Formula

@[match_pattern] abbrev conj (l r : Formula) : Formula := .binary .and l r

@[match_pattern] abbrev disj (l r : Formula) : Formula := .binary .or l r

@[match_pattern] abbrev imp (l r : Formula) : Formula := .binary .implies l r

@[match_pattern] abbrev all (v : String) (f : Formula) : Formula := .quantified .all v f

@[match_pattern] abbrev exist (v : String) (f : Formula) : Formula := .quantified .exist v f

/-- The formula and every formula inside it, each before its parts. -/
def subformulas : Formula → List Formula
  | f@(.atom _ _) => [f]
  | f@(.neg g) => f :: g.subformulas
  | f@(.binary _ l r) => f :: (l.subformulas ++ r.subformulas)
  | f@(.quantified _ _ g) => f :: g.subformulas

def depth : Formula → Nat
  | .atom _ _ => 1
  | .neg g => 1 + g.depth
  | .binary _ l r => 1 + max l.depth r.depth
  | .quantified _ _ g => 1 + g.depth

def isAtom : Formula → Bool
  | .atom _ _ => true
  | _ => false

/-- The predicate of an atom with the number of its arguments. -/
def predicate? : Formula → Option (String × Nat)
  | .atom n args => some (n, args.length)
  | _ => none

/-- An atom without arguments is a proposition; all other atoms and every quantifier speak about
individuals. -/
def isFirstOrder : Formula → Bool
  | .atom _ args => !args.isEmpty
  | .neg g => g.isFirstOrder
  | .binary _ l r => l.isFirstOrder || r.isFirstOrder
  | .quantified _ _ _ => true

/-- The names with a free occurrence, one entry per occurrence. -/
def freeVars : Formula → List String
  | .atom _ args => args
  | .neg g => g.freeVars
  | .binary _ l r => l.freeVars ++ r.freeVars
  | .quantified _ v g => g.freeVars.filter (· ≠ v)

/-- The names that some quantifier binds. -/
def boundVars : Formula → List String
  | .atom _ _ => []
  | .neg g => g.boundVars
  | .binary _ l r => l.boundVars ++ r.boundVars
  | .quantified _ v g => v :: g.boundVars

/-- Puts `r` for every free occurrence of `t`, unless a quantifier would capture one. -/
def substitute (t r : String) : Formula → Option Formula
  | .atom n args => some (.atom n (args.map fun a => if a = t then r else a))
  | .neg g => (g.substitute t r).map .neg
  | .binary op l r' =>
    match l.substitute t r, r'.substitute t r with
    | some l, some r' => some (.binary op l r')
    | _, _ => none
  | .quantified q v g =>
    if t = v ∨ t ∉ g.freeVars then some (.quantified q v g)
    else if r = v then none
    else (g.substitute t r).map (.quantified q v)

/-- The left-nested conjunction of a list of formulas. -/
def conjoin : List Formula → Option Formula
  | [] => none
  | f :: fs => some (fs.foldl conj f)

end Formula

end DeductionBoard
