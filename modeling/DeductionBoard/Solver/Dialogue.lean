import DeductionBoard.Data.Defect
import DeductionBoard.Data.Value
import DeductionBoard.Query.Entailment
import DeductionBoard.Solver.Answer

/-! Work that needs a solver. Such work is a value: it is done, it has failed, or it waits for the
answer to one query and goes on from there. So it can be run to its end by a solver that answers at
once, and it can be kept while an answer is outstanding. -/

namespace DeductionBoard.Solver

/-- Why work that needs a solver fails. A pool of workers that has been shut down refuses all work that
comes after; `ρ` has an element for each way to be shut down, and none where pools are never shut
down. -/
inductive Fault (ρ : Type := Empty) where
  | query (f : Query.Fault)
  | timeoutNotPositive
  | defect (d : Defect)
  | shutDown (x : ρ)
  deriving DecidableEq, Repr

/-- The wording of a fault; defects have none. -/
def Fault.message? {ρ : Type} : Fault ρ → Option String
  | .query .illTyped | .defect _ => none
  | .query f => some f.message
  | .timeoutNotPositive => some "Solver timeout must be positive"
  | .shutDown _ => some "cannot schedule new futures after shutdown"

/-- A fault without a shutdown, where there may be one. -/
def Fault.weaken {ρ : Type} : Fault → Fault ρ
  | .query f => .query f
  | .timeoutNotPositive => .timeoutNotPositive
  | .defect d => .defect d

/-- A time limit has to be a positive number. -/
def judgeTimeout (v : Value) : Except Fault Unit :=
  match v.number? with
  | none => .error (.defect .illTyped)
  | some x => if x.le (.ofInt 0) then .error .timeoutNotPositive else .ok ()

inductive Dialogue (α : Type) where
  | done (value : α)
  | fail (f : Fault)
  | ask (query : Query) (timeout : Value) (next : Answer → Dialogue α)

namespace Dialogue

variable {α β : Type}

def bind (d : Dialogue α) (k : α → Dialogue β) : Dialogue β :=
  match d with
  | .done a => k a
  | .fail f => .fail f
  | .ask q t next => .ask q t fun r => (next r).bind k

instance : Monad Dialogue where
  pure := .done
  bind := bind

def ofExcept (r : Except Query.Fault α) : Dialogue α :=
  match r with
  | .ok a => .done a
  | .error f => .fail (.query f)

/-- Work that needs no solver but may break off. -/
def ofDefect (r : Except Defect α) : Dialogue α :=
  match r with
  | .ok a => .done a
  | .error d => .fail (.defect d)

/-- Puts a query to the solver; every query has a time limit. -/
def submit (q : Query) (timeout : Value) : Dialogue Answer :=
  match judgeTimeout timeout with
  | .error f => .fail f
  | .ok () => .ask q timeout .done

/-- The query that the work waits for, with its time limit. -/
def query? : Dialogue α → Option (Query × Value)
  | .ask q t _ => some (q, t)
  | _ => none

/-- Goes on with the answer to the query that the work waits for. -/
def answered (r : Answer) : Dialogue α → Dialogue α
  | .ask _ _ next => next r
  | d => d

/-- Runs the work with a solver that has a state. -/
def run {σ : Type} (solve : Query → Value → σ → Answer × σ) :
    Dialogue α → σ → Except Fault α × σ
  | .done a, s => (.ok a, s)
  | .fail f, s => (.error f, s)
  | .ask q t next, s => (next (solve q t s).1).run solve (solve q t s).2

/-- The solver answers every query as `solve` does. -/
def result (solve : Query → Value → Answer) : Dialogue α → Except Fault α
  | .done a => .ok a
  | .fail f => .error f
  | .ask q t next => (next (solve q t)).result solve

end Dialogue

end DeductionBoard.Solver
