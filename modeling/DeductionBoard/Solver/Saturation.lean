import DeductionBoard.Solver.Clause

/-! A search for a contradiction among sentences with quantifiers. The sentences are put into clauses,
and the clauses that follow from them are drawn, light ones first, until one of them is empty or
nothing new follows. -/

namespace DeductionBoard.Solver.Saturation

open Query

/-- Clauses that hold when a sentence does, beside the definitions of the names in them. -/
structure ClauseForm where
  clauses : List Clause
  definitions : List Clause

/-- The products of two sets of clauses that are written out rather than named. -/
def maxProduct : Nat := 8

namespace ClauseForm

def both (i j : ClauseForm) : ClauseForm :=
  ⟨i.clauses ++ j.clauses, i.definitions ++ j.definitions⟩

/-- One of two sentences holds. The second goes by a name where there are too many pairs of clauses. -/
def either (name : Term) (i j : ClauseForm) : ClauseForm :=
  let definitions := i.definitions ++ j.definitions
  if i.clauses.length ≤ 1 || j.clauses.length ≤ 1 ||
      i.clauses.length * j.clauses.length ≤ maxProduct then
    ⟨i.clauses.flatMap fun c => j.clauses.map (c ++ ·), definitions⟩
  else
    ⟨i.clauses.map (⟨true, name⟩ :: ·), j.clauses.map (⟨false, name⟩ :: ·) ++ definitions⟩

end ClauseForm

/-- The clauses of a sentence, or of its negation where `positive` is false. -/
def clauseForm (around : Surroundings) (place : String) (positive : Bool) : Sentence → ClauseForm
  | .atom n args => ⟨[[⟨positive, around.atom n args⟩]], []⟩
  | .neg f => clauseForm around place (!positive) f
  | .binary op l r =>
    let i := clauseForm around (place ++ "0") (positive != (op = .implies)) l
    let j := clauseForm around (place ++ "1") positive r
    if positive = (op = .and) then i.both j
    else i.either (around.truthAtom place positive r) j
  | .quantified q b f =>
    let t := if (q = .all) = positive then .var b.index else around.ownTerm b positive f
    clauseForm ((b, t) :: around) place positive f

/-- The clauses of sentences that hold together. -/
def clauses : (number : Nat) → List Sentence → List Clause
  | _, [] => []
  | k, s :: ss =>
    let i := clauseForm [] ("def!" ++ toString k ++ "!") true s
    i.clauses ++ i.definitions ++ clauses (k + 1) ss

inductive Outcome where
  | contradiction
  /-- Nothing new follows, and there is no contradiction. -/
  | saturated
  | undecided
  deriving DecidableEq, Repr

/-- Clauses in order of size, the older first. -/
def insert (cs : List Clause) (c : Clause) : List Clause :=
  cs.takeWhile (·.size ≤ c.size) ++ c :: cs.dropWhile (·.size ≤ c.size)

/-- Takes up one clause after another, with what follows from it and those taken up before, until the
clauses get too large. -/
def run (maxSize : Nat) : (steps : Nat) → (known waiting : List Clause) → Outcome
  | _, _, [] => .saturated
  | 0, _, _ => .undecided
  | n + 1, known, c :: waiting =>
    if c.isEmpty then .contradiction
    else if maxSize < c.size then .undecided
    else if known.any (Clause.subsumes · c) then run maxSize n known waiting
    else
      let known := c :: known.filter fun d => !c.subsumes d
      let new := (Clause.inferences known c).filter fun d =>
        !d.isTautology && !known.any (Clause.subsumes · d)
      run maxSize n known (new.foldl insert waiting)

def maxSteps : Nat := 400

def outcome (ss : List Sentence) : Outcome :=
  let cs := ((clauses 0 ss).map Clause.standard).filter (!·.isTautology)
  run (cs.foldl (fun n c => n + c.size) 20) maxSteps [] (cs.foldl insert [])

end DeductionBoard.Solver.Saturation
