import DeductionBoard.Solver.Term

/-! Clauses over terms with variables, and the inferences between them. A clause stands for the
disjunction of its literals, for all values of its variables. -/

namespace DeductionBoard.Solver

/-- An atom or its negation. -/
structure Clause.Literal where
  positive : Bool
  atom : Term
  deriving DecidableEq, Repr

abbrev Clause := List Clause.Literal

namespace Clause

def size (c : Clause) : Nat := c.foldl (fun n l => n + l.atom.size) 0

def vars (c : Clause) : List Nat := c.flatMap (·.atom.vars)

def mapAtoms (f : Term → Term) (c : Clause) : Clause := c.map fun l => { l with atom := f l.atom }

def replaceAll (σ : List (Nat × Term)) (c : Clause) : Clause := c.mapAtoms (·.replaceAll σ)

/-- The clause without repeated literals and with its variables numbered as they come. -/
def standard (c : Clause) : Clause :=
  let xs := c.vars.eraseDups
  (c.mapAtoms (Term.subst fun x => .var (xs.idxOf x))).eraseDups

/-- The clause with variables that do not occur in the other. -/
def apartFrom (c other : Clause) : Clause :=
  let k := other.vars.foldl max 0 + 1
  c.mapAtoms (Term.subst fun x => .var (x + k))

/-- A clause that holds whatever its atoms mean. -/
def isTautology (c : Clause) : Bool := c.any fun l => c.contains ⟨!l.positive, l.atom⟩

def isPositive (c : Clause) : Bool := c.all (·.positive)

/-- Each literal with the literals around it. -/
def choices : Clause → List (Literal × Clause)
  | [] => []
  | l :: c => (l, c) :: (choices c).map fun e => (e.1, l :: e.2)

/-- The literals that an inference may use: of a clause that denies something the first denial, and
else the atoms of the last predicate in the order of names. -/
def eligible (c : Clause) : List (Literal × Clause) :=
  if c.isPositive then
    c.choices.filter fun e => c.all fun l => l.atom.headName ≤ e.1.atom.headName
  else ((c.choices.filter fun e => !e.1.positive).take 1)

/-- What follows from a clause without negations and one that denies something: an atom of the one is
the atom that the other denies. -/
def resolve (c d : Clause) : List Clause :=
  let d := d.apartFrom c
  (eligible c).flatMap fun p => (eligible d).filterMap fun n =>
    (p.1.atom.unifier? n.1.atom).map fun σ => standard (replaceAll σ (p.2 ++ n.2))

/-- What follows from a clause without negations when two of its atoms are made equal. -/
def factors (c : Clause) : List Clause :=
  (eligible c).flatMap fun p => p.2.filterMap fun l =>
    (p.1.atom.unifier? l.atom).map fun σ => standard (replaceAll σ c)

/-- The literals of a clause are literals of the target, each another one, under the same bindings. -/
def embeds (bindings : List (Nat × Term)) : Clause → Clause → Bool
  | [], _ => true
  | l :: c, target => (choices target).any fun m =>
    l.positive == m.1.positive &&
      match l.atom.matchWith bindings m.1.atom with
      | some bs => embeds bs c m.2
      | none => false

/-- The second clause says nothing that the first does not say, and is no shorter. -/
def subsumes (c d : Clause) : Bool := c.length ≤ d.length && embeds [] c d

/-- What follows in one step from a clause and those known before. -/
def inferences (known : List Clause) (c : Clause) : List Clause :=
  if c.isPositive then
    factors c ++ (known.filter fun d => !isPositive d).flatMap (resolve c)
  else (known.filter isPositive).flatMap fun d => resolve d c

end Clause

end DeductionBoard.Solver
