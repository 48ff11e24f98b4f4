import DeductionBoard.Formula.Order

/-! Signatures: what each name of a query is used as. A name has one use; a second, different one is
a clash. -/

namespace DeductionBoard.Query

inductive Use where
  | individual
  | predicate (arity : Nat)
  deriving DecidableEq, Repr

def Use.text : Use → String
  | .individual => "an individual term"
  | .predicate n => "a predicate of arity " ++ toString n

/-- A name and its two uses, the earlier first. -/
structure Clash where
  name : String
  known : Use
  used : Use
  deriving DecidableEq, Repr

/-- The uses of the names of a formula in the order they are read, without those that an enclosing
quantifier binds. -/
def uses (bound : List String) : Formula → List (String × Use)
  | .atom n args =>
    (n, .predicate args.length) ::
      (args.filter fun a => a ∉ bound).map fun a => (a, .individual)
  | .neg f => uses bound f
  | .binary _ l r => uses bound l ++ uses bound r
  | .quantified _ v f => uses (v :: bound) f

/-- Names with their uses, each name once. -/
abbrev Signature := List (String × Use)

namespace Signature

def use? (s : Signature) (name : String) : Option Use := List.lookup name s

def declare (s : Signature) (u : String × Use) : Except Clash Signature :=
  match s.use? u.1 with
  | none => .ok (s ++ [u])
  | some known => if known = u.2 then .ok s else .error ⟨u.1, known, u.2⟩

/-- Declares uses one after the other, up to the first clash. -/
def declareAll (s : Signature) : List (String × Use) → Except Clash Signature
  | [] => .ok s
  | u :: us => match s.declare u with
    | .error e => .error e
    | .ok s => s.declareAll us

/-- By ascending name. -/
def sorted (s : Signature) : Signature := s.mergeSort fun u v => ¬ v.1 < u.1

end Signature

end DeductionBoard.Query
