import DeductionBoard.Solver.Command
import DeductionBoard.Text.Blank

/-! A query that is answered by a process of its own, step by step, so that a cancellation may come
between any two steps. A query that still waits in the queue is taken out of it. Otherwise a
cancellation raises a flag, and it kills the process once there is one that is known to the
canceller. The flag is read before the process starts, when it becomes known, and once its output has
been read. The time that is waited for the output is reckoned in seconds and in double precision. -/

namespace DeductionBoard.Solver.External

open Number

/-- What becomes of the process. -/
structure Behaviour where
  /-- Starting it fails, with this text. -/
  startFailure : Option String
  /-- It does not end by itself within the time limit. -/
  hangs : Bool
  output : String
  errors : String
  exitCode : Int
  /-- The kind of failure where starting it fails. -/
  failureKind : String := "OSError"
  /-- It goes on hanging when it is killed while its end is waited for, as scripted processes do. -/
  outlivesKill : Bool := true
  deriving DecidableEq, Repr

/-- What is done to the process. -/
inductive Event where
  | start (words : List String)
  | kill
  /-- Waiting for its end, with or without the query as input and a time limit in milliseconds. -/
  | wait (input : Bool) (limit : Option Int)
  deriving DecidableEq, Repr

/-- How far the query has come. -/
inductive Stage where
  | queued
  | taken
  | accepted
  | started
  | known
  | waiting
  | read
  | finished (a : Answer)
  deriving DecidableEq, Repr

structure State where
  stage : Stage
  /-- A cancellation was requested. -/
  cancelled : Bool
  log : List Event
  deriving DecidableEq, Repr

/-- What is to be run. -/
structure Job where
  command : Command
  /-- The time limit in milliseconds, as it was given. -/
  timeout : Value
  deriving DecidableEq, Repr

/-- The seconds that a process is given beyond its limit. -/
def grace : Rat := 2

/-- Why there is no time to wait. -/
inductive TimeFault where
  | notANumber (kind : String)
  | tooLarge
  | infinite
  | undefined
  deriving DecidableEq, Repr

def TimeFault.answer (solver : String) : TimeFault → Answer
  | .notANumber k => Answer.ofFailure solver "TypeError"
    ("unsupported operand type(s) for /: '" ++ k ++ "' and 'int'")
  | .tooLarge => Answer.ofFailure solver "OverflowError"
    "integer division result too large for a float"
  | .infinite => Answer.ofFailure solver "OverflowError" "cannot convert float infinity to integer"
  | .undefined => Answer.ofFailure solver "ValueError" "cannot convert float NaN to integer"

/-- A time limit in seconds. -/
def seconds (timeout : Value) : Except TimeFault Binary64 :=
  match timeout, timeout.number? with
  | .decimal x, _ => .ok (x.rounded (· / 1000))
  | _, some (.exact q) => match Binary64.ofRat (q / 1000) with
    | .infinite _ => .error .tooLarge
    | t => .ok t
  | v, _ => .error (.notANumber v.kindName)

/-- How long the output is waited for, in milliseconds. -/
def waitingTime (timeout : Value) : Except TimeFault Int := do
  let t := ((← seconds timeout).rounded (· + grace)).rounded (· * 1000)
  match t.round?, t with
  | some n, _ => .ok n
  | none, .infinite _ => .error .infinite
  | none, _ => .error .undefined

def reasonLength : Nat := 500

def start : State := ⟨.queued, false, []⟩

namespace State

def record (s : State) (es : List Event) : State := { s with log := s.log ++ es }

def finish (s : State) (a : Answer) : State := { s with stage := .finished a }

/-- The process has been killed. -/
def isKilled (s : State) : Bool := .kill ∈ s.log

/-- The process can be killed by a cancellation. -/
def isKnown (s : State) : Bool :=
  match s.stage with
  | .known | .waiting | .read => true
  | _ => false

/-- Requests a cancellation; once there is an answer it comes too late. -/
def cancel (j : Job) (s : State) : State :=
  match s.stage with
  | .finished _ => s
  | .queued =>
    { s with cancelled := true }.finish
      (Answer.plain j.command.name .cancelled "cancelled before the query started")
  | _ =>
    let s := { s with cancelled := true }
    if s.isKnown then s.record [.kill] else s

end State

def cancelledAnswer (j : Job) : Answer := Answer.plain j.command.name .cancelled "cancelled"

/-- The answer that the first line of the output gives. Without one, the reason is what the process
complains about, or its output, or its exit code. -/
def classify (name : String) (b : Behaviour) : Answer :=
  let output := Text.trim b.output.toList
  let errors := Text.trim b.errors.toList
  let first := String.ofList (Text.trim (Text.firstLine output))
  if first = "unsat" then Answer.plain name .unsat ""
  else if first = "sat" then Answer.plain name .sat ""
  else if first = "timeout" then Answer.plain name .timeout first
  else if first = "unknown" then Answer.plain name .unknown first
  else
    let reason :=
      if ¬ errors.isEmpty then errors
      else if ¬ output.isEmpty then output
      else ("exit code " ++ toString b.exitCode).toList
    Answer.plain name .error (String.ofList (reason.take reasonLength))

/-- One step of the query. -/
def step (j : Job) (b : Behaviour) (s : State) : State :=
  match s.stage with
  | .queued => { s with stage := .taken }
  | .taken => if s.cancelled then s.finish (cancelledAnswer j) else { s with stage := .accepted }
  | .accepted =>
    let s := s.record [.start (j.command.limited j.timeout)]
    match b.startFailure with
    | some t => s.finish (Answer.ofFailure j.command.name b.failureKind t)
    | none => { s with stage := .started }
  | .started =>
    if s.cancelled then (s.record [.kill, .wait false none]).finish (cancelledAnswer j)
    else { s with stage := .known }
  | .known => match waitingTime j.timeout with
    | .error f => s.finish (f.answer j.command.name)
    | .ok t => { s.record [.wait true (some t)] with stage := .waiting }
  | .waiting =>
    if b.hangs && (b.outlivesKill || !s.isKilled) then
      (s.record [.kill, .wait false none]).finish
        (Answer.plain j.command.name .timeout "wall-clock limit exceeded")
    else { s with stage := .read }
  | .read => s.finish (if s.cancelled then cancelledAnswer j else classify j.command.name b)
  | .finished _ => s

/-- What happens next to the query. -/
inductive Move where
  | advance
  | cancel
  deriving DecidableEq, Repr

def Move.apply (j : Job) (b : Behaviour) (s : State) : Move → State
  | .advance => step j b s
  | .cancel => s.cancel j

def run (j : Job) (b : Behaviour) (ms : List Move) : State := ms.foldl (Move.apply j b) start

/-- The number of steps after which every query has an answer. -/
def stepsToEnd : Nat := 7

/-- The moments at which a query can be told to be cancelled. -/
inductive CancelPoint where
  | before
  | spawn
  | run
  deriving DecidableEq, Repr

def CancelPoint.ofName? (s : String) : Option CancelPoint :=
  if s = "before" then some .before
  else if s = "spawn" then some .spawn
  else if s = "run" then some .run
  else none

/-- The number of steps before the cancellation. -/
def CancelPoint.steps : CancelPoint → Nat
  | .before => 1
  | .spawn => 3
  | .run => 5

/-- Runs a query to its end, with a cancellation on the way. -/
def runCancelled (j : Job) (b : Behaviour) (cancelAt : Option CancelPoint) : State :=
  let steps (n : Nat) : List Move := List.replicate n .advance
  match cancelAt with
  | none => run j b (steps stepsToEnd)
  | some p => run j b (steps p.steps ++ [.cancel] ++ steps stepsToEnd)

def State.answer? (s : State) : Option Answer :=
  match s.stage with
  | .finished a => some a
  | _ => none

end DeductionBoard.Solver.External
