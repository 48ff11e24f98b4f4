import DeductionBoard.Solver.External

/-! Cancellations that go on side by side with the query they are about. A cancellation looks
whether there is an answer already; raises the flag and takes note of whether the process is known;
tries to take the query out of the queue; and kills the process it has taken note of. Between any
two of these steps the query or another cancellation may go on. Taken in a row they are
`State.cancel`. -/

namespace DeductionBoard.Solver.External

/-- How far a cancellation has come. -/
inductive Cancellation where
  | asked
  /-- There was no answer when it looked. -/
  | admitted
  /-- The flag is up; the process was known then, or it was not. -/
  | raised (known : Bool)
  /-- The query was not in the queue any more. -/
  | late (known : Bool)
  | ended
  deriving DecidableEq, Repr

/-- A query and the cancellations that were asked for. Once a process is known it stays so. -/
structure Race where
  query : State
  known : Bool
  cancellations : List Cancellation
  deriving DecidableEq, Repr

/-- The answer to a query that was taken out of the queue. -/
def withdrawnAnswer (j : Job) : Answer :=
  Answer.plain j.command.name .cancelled "cancelled before the query started"

/-- One step of a cancellation, and the query after it. -/
def Cancellation.step (j : Job) (known : Bool) (s : State) : Cancellation → Cancellation × State
  | .asked => match s.stage with
    | .finished _ => (.ended, s)
    | _ => (.admitted, s)
  | .admitted => (.raised known, { s with cancelled := true })
  | .raised k => match s.stage with
    | .queued => (.ended, s.finish (withdrawnAnswer j))
    | _ => (.late k, s)
  | .late k => (.ended, if k then s.record [.kill] else s)
  | .ended => (.ended, s)

/-- Who goes on next. -/
inductive Turn where
  | query
  | cancellation (i : Nat)
  deriving DecidableEq, Repr

namespace Race

def advance (j : Job) (b : Behaviour) (r : Race) : Race :=
  { r with query := External.step j b r.query
           known := r.known || (External.step j b r.query).isKnown }

def cancel (j : Job) (r : Race) (i : Nat) : Race :=
  match r.cancellations[i]? with
  | none => r
  | some c =>
    { r with query := (c.step j r.known r.query).2
             cancellations := r.cancellations.set i (c.step j r.known r.query).1 }

def turn (j : Job) (b : Behaviour) (r : Race) : Turn → Race
  | .query => r.advance j b
  | .cancellation i => r.cancel j i

/-- A query that waits in the queue, with a number of cancellations. -/
def start (n : Nat) : Race := ⟨External.start, false, List.replicate n .asked⟩

def run (j : Job) (b : Behaviour) (n : Nat) (ts : List Turn) : Race :=
  ts.foldl (turn j b) (start n)

end Race

end DeductionBoard.Solver.External
