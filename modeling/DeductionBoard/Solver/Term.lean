import DeductionBoard.Query.Sentence

/-! Terms with variables, and the terms that the individuals of a sentence become once every binder
stands for one. A binder that some individual is asked for stands for a term of its own, which depends
on the terms around. -/

namespace DeductionBoard.Solver

open Query

/-- What terms and atoms are made of. The last two kinds carry what they stand for: with the binders
around it, the individual that makes a sentence or its negation true, and the truth of a sentence or
of its negation, which is told apart by its place. -/
inductive Symbol where
  | name (name : String)
  | witness (index : Nat)
  | own (around : List Binder) (b : Binder) (positive : Bool) (body : Sentence)
  | truth (place : String) (around : List Binder) (positive : Bool) (s : Sentence)
  deriving DecidableEq, Repr

def Symbol.text : Symbol → String
  | .name n => n
  | .witness i => witnessName i
  | .own _ b _ _ => b.text
  | .truth place _ _ _ => place

/-- A term or an atom: a symbol applied to one argument after another. -/
inductive Term where
  | var (index : Nat)
  | symbol (s : Symbol)
  | apply (head argument : Term)
  deriving DecidableEq, Repr

namespace Term

def ofSymbol (s : Symbol) (args : List Term) : Term := args.foldl .apply (.symbol s)

/-- The number of variables and symbols. -/
def size : Term → Nat
  | .var _ => 1
  | .symbol _ => 1
  | .apply f a => f.size + a.size

def vars : Term → List Nat
  | .var x => [x]
  | .symbol _ => []
  | .apply f a => f.vars ++ a.vars

def subst (σ : Nat → Term) : Term → Term
  | .var x => σ x
  | .symbol s => .symbol s
  | .apply f a => .apply (f.subst σ) (a.subst σ)

/-- The term with one variable replaced. -/
def replace (t : Term) (x : Nat) (u : Term) : Term := t.subst fun y => if y = x then u else .var y

/-- The term after some replacements, one after the other. -/
def replaceAll (t : Term) (σ : List (Nat × Term)) : Term :=
  σ.foldl (fun t e => t.replace e.1 e.2) t

/-- The first place where two terms differ. -/
def difference? : Term → Term → Option (Term × Term)
  | .apply f a, .apply g b => (difference? f g).or (difference? a b)
  | s, t => if s = t then none else some (s, t)

/-- The replacements, one after another, that make two terms equal in the most general way. Each
removes a variable, so as many steps as there are variables are enough. -/
def unify : (steps : Nat) → Term → Term → Option (List (Nat × Term))
  | 0, s, t => if s = t then some [] else none
  | n + 1, s, t =>
    match difference? s t with
    | none => some []
    | some (.var x, u) | some (u, .var x) =>
      if x ∈ u.vars then none
      else (unify n (s.replace x u) (t.replace x u)).map ((x, u) :: ·)
    | some _ => none

def unifier? (s t : Term) : Option (List (Nat × Term)) :=
  unify (s.vars ++ t.vars).eraseDups.length s t

/-- The bindings of the pattern's variables under which it is the term. -/
def matchWith (bindings : List (Nat × Term)) : Term → Term → Option (List (Nat × Term))
  | .var x, t =>
    match List.lookup x bindings with
    | none => some ((x, t) :: bindings)
    | some u => if u = t then some bindings else none
  | .symbol s, t => if t = .symbol s then some bindings else none
  | .apply f a, .apply g b => (matchWith bindings f g).bind fun bs => matchWith bs a b
  | .apply _ _, _ => none

/-- The symbol that the arguments are given to, as text. -/
def headName : Term → String
  | .var _ => ""
  | .symbol s => s.text
  | .apply f _ => f.headName

end Term

/-- The terms that binders stand for, innermost first. -/
abbrev Surroundings := List (Binder × Term)

namespace Surroundings

def binderTerm (around : Surroundings) (b : Binder) : Term :=
  (List.lookup b around).getD (.symbol (.name b.text))

def term (around : Surroundings) : Individual → Term
  | .named n => .symbol (.name n)
  | .bound b => around.binderTerm b
  | .witness i bs => .ofSymbol (.witness i) (bs.map around.binderTerm)

def atom (around : Surroundings) (name : String) (args : List Individual) : Term :=
  .ofSymbol (.name name) (args.map around.term)

/-- The individual that is asked for by a sentence, or by its negation where `positive` is false. -/
def ownTerm (around : Surroundings) (b : Binder) (positive : Bool) (body : Sentence) : Term :=
  .ofSymbol (.own (around.map (·.1)) b positive body) (around.map (·.2))

/-- The atom that says that a sentence or its negation is true. -/
def truthAtom (around : Surroundings) (place : String) (positive : Bool) (s : Sentence) : Term :=
  .ofSymbol (.truth place (around.map (·.1)) positive s) (around.map (·.2))

end Surroundings

end DeductionBoard.Solver
