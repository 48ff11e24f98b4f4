import DeductionBoard.Solver.Engine
import DeductionBoard.Solver.Propositional
import DeductionBoard.Solver.Saturation

/-! A decision procedure for queries, to be used where no engine is at hand. Universals stand for
their instances over the terms at hand and existentials for a term of their own, until no new terms
come up; the rest is propositional. Where there are quantifiers, a contradiction is looked for among
their clauses first. Queries whose terms do not come to an end and that have none are left undecided. -/

namespace DeductionBoard.Solver.Ground

open Query

/-- Instances and the terms in them. -/
structure Instances where
  formula : Literals Term
  terms : List Term

def Instances.both (i j : Instances) : Instances :=
  ⟨Literals.conjoin i.formula j.formula, i.terms ++ j.terms⟩

def Instances.either (i j : Instances) : Instances :=
  ⟨Literals.disjoin i.formula j.formula, i.terms ++ j.terms⟩

/-- The instances of a sentence, or of its negation where `positive` is false. -/
def instances (domain : List Term) (around : Surroundings) (positive : Bool) :
    Sentence → Instances
  | .atom n args => ⟨.literal positive (around.atom n args), args.map around.term⟩
  | .neg f => instances domain around (!positive) f
  | .binary op l r =>
    let i := instances domain around (positive != (op = .implies)) l
    let j := instances domain around positive r
    if positive = (op = .and) then i.both j else i.either j
  | .quantified q b f =>
    if (q = .all) = positive then
      domain.foldl
        (fun acc t => acc.both (instances domain ((b, t) :: around) positive f))
        ⟨.truth true, []⟩
    else
      let t := around.ownTerm b positive f
      let i := instances domain ((b, t) :: around) positive f
      ⟨i.formula, t :: i.terms⟩

def allInstances (domain : List Term) (ss : List Sentence) : Instances :=
  ss.foldl (fun acc s => acc.both (instances domain [] true s)) ⟨.truth true, []⟩

inductive Decision where
  | unsatisfiable
  | satisfiable (a : Literals.Assignment Term)
  | undecided
  deriving DecidableEq, Repr

/-- The number of atoms in the instances over a domain of some size. -/
def instanceCount (domain : Nat) (positive : Bool) : Sentence → Nat
  | .atom _ _ => 1
  | .neg f => instanceCount domain (!positive) f
  | .binary op l r =>
    instanceCount domain (positive != (op = .implies)) l + instanceCount domain positive r
  | .quantified q _ f =>
    (if (q = .all) = positive then domain else 1) * instanceCount domain positive f

def allInstanceCount (domain : Nat) (ss : List Sentence) : Nat :=
  ss.foldl (fun n s => n + instanceCount domain true s) 0

/-- What is spent on instances of sentences with quantifiers. -/
structure Effort where
  rounds : Nat
  instances : Nat
  branches : Nat
  deriving DecidableEq, Repr

def Effort.limited : Effort := ⟨4, 2000, 8⟩

/-- Widens the domain for some rounds, as long as there is no contradiction and there are not too many
instances. -/
def widen (e : Effort) (ss : List Sentence) : (rounds : Nat) → (domain : List Term) → Decision
  | 0, _ => .undecided
  | n + 1, domain =>
    let i := allInstances domain ss
    match i.formula.satisfy (some e.branches) with
    | .contradictory => .unsatisfiable
    | .gaveUp => .undecided
    | .found a =>
      if i.terms ⊆ domain then .satisfiable a
      else
        let wider := i.terms.foldr List.insert domain
        if allInstanceCount wider.length ss ≤ e.instances then widen e ss n wider
        else .undecided

/-- The instances of sentences without quantifiers are the sentences themselves. -/
def decideFree (ss : List Sentence) : Decision :=
  match (allInstances [] ss).formula.satisfy none with
  | .contradictory => .unsatisfiable
  | .found a => .satisfiable a
  | .gaveUp => .undecided

def decide (ss : List Sentence) (domain : List Term) : Decision :=
  if ss.any Sentence.hasQuantifier then
    match Saturation.outcome ss with
    | .contradiction => .unsatisfiable
    | .undecided => widen .limited ss Effort.limited.rounds domain
    | .saturated =>
      match widen .limited ss Effort.limited.rounds domain with
      | .undecided => .satisfiable []
      | d => d
  else decideFree ss

/-- There is always an individual. -/
def startDomain (declarations : List Declaration) : List Term :=
  let named := declarations.filterMap fun d => match d with
    | .individual n => some (.symbol (.name n))
    | .witness i 0 => some (.symbol (.witness i))
    | _ => none
  if named.isEmpty then [.symbol (.name "(any)")] else named

def solverName : String := "z3"

/-- The values of the propositions of a query; one that does not matter is false. -/
def model (declarations : List Declaration) (a : Literals.Assignment Term) :
    List (String × String) :=
  declarations.filterMap fun d => match d with
    | .predicate n 0 => some (n, if a.value (.symbol (.name n)) then "True" else "False")
    | _ => none

def outcome (q : Query) : Engine.Outcome :=
  match decide (q.script.assertions.map (·.1)) (startDomain q.script.declarations) with
  | .unsatisfiable => .unsatisfiable []
  | .satisfiable a => .satisfiable (model q.script.declarations a)
  | .undecided => .undecided "incomplete quantifiers"

def answer (q : Query) : Answer := Engine.answer solverName false (outcome q)

/-- The procedure as a solver without a state. -/
def solve (q : Query) (_timeout : Value) (s : Unit) : Answer × Unit := (answer q, s)

end DeductionBoard.Solver.Ground
