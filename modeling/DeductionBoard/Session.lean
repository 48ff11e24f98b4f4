import DeductionBoard.Verify.Check
import DeductionBoard.Verify.Hint

/-! Sessions: one attempt at a puzzle with its latest verdict. A session has at most one request in
flight. A new request supersedes it, and so does an edit once the session looks at its board; the
answer to a superseded request is never published. A verdict on an earlier revision is discarded.

A check hands its query to the solver. A hint waits in a queue for the one worker of the session, which
puts its queries to the solver one after the other; a superseded hint keeps the worker until its query
is answered. The pool of the worker may be closed and the solver may be shut down. Then both refuse
new work, also that of a request which is in flight already.
Main definitions: `submitCheck`, `queueHint`, `cancel`, `look`, `receive` and `serve`. -/

namespace DeductionBoard

open Solver

inductive SessionState where
  | editing
  | checking
  | judged (k : VerdictKind)
  deriving DecidableEq, Repr

def SessionState.name : SessionState → String
  | .editing => "editing"
  | .checking => "checking"
  | .judged k => k.name

/-- What a request asks for: a verdict, which the session keeps, or a hint. -/
inductive Response where
  | verdict (v : Verdict)
  | hint (h : Hint)
  deriving DecidableEq, Repr

inductive Future (ρ : Type := Empty) where
  | pending
  | cancelled
  | failed (f : Fault ρ)
  | done (r : Response)
  deriving DecidableEq, Repr

/-- What a request waits for: the answer to the query of a check, with the settings it was asked
under, or to a query of a hint, with the way to go on. -/
inductive Work where
  | check (j : CheckJob) (c : Settings)
  | hint (query : Query) (timeout : Value) (next : Answer → Dialogue Hint)

/-- The query that is with the solver, and its time limit. -/
def Work.query : Work → Query × Value
  | .check j c => (j.query, c.solver.checkTimeout)
  | .hint q t _ => (q, t)

/-- A request, the revision it is about, and its work at the solver. The solver is told to give up the
work of a withdrawn request. -/
structure Request (ρ : Type := Empty) where
  revision : Nat
  future : Future ρ
  work : Option Work
  withdrawn : Bool

/-- The worker for the hints of a session. -/
inductive Worker where
  | idle
  /-- It waits for the answer to a query of a hint. -/
  | waiting (n : Nat)
  /-- The answer is there, and this is how the hint goes on. -/
  | ready (n : Nat) (d : Dialogue Hint)

/-- The verdict of a session and the revision it is about. -/
structure Kept where
  verdict : Verdict
  revision : Nat
  deriving DecidableEq, Repr

structure Session (ρ : Type := Empty) where
  board : Board
  settings : Settings
  state : SessionState
  kept : Option Kept
  /-- The number of the request in flight. -/
  inflight : Option Nat
  requests : List (Request ρ)
  /-- The latest report that was looked at. -/
  report : Option Report
  /-- The hints that the worker has not begun, oldest first. -/
  queue : List (Nat × HintJob)
  worker : Worker
  /-- The pool of the worker has been shut down. -/
  closed : Option ρ
  /-- The solver has been shut down. -/
  stopped : Option ρ

namespace Future

variable {ρ : Type}

/-- Only a future that is still pending can be cancelled. -/
def cancel : Future ρ → Future ρ
  | .pending => .cancelled
  | f => f

def isCancelled : Future ρ → Bool
  | .cancelled => true
  | _ => false

end Future

namespace Session

variable {ρ : Type}

def new (b : Board) (c : Settings) : Session ρ :=
  ⟨b, c, .editing, none, none, [], none, [], .idle, none, none⟩

def request? (s : Session ρ) (n : Nat) : Option (Request ρ) := s.requests[n]?

/-- The work of a request at the solver. -/
def task? (s : Session ρ) (n : Nat) : Option Work := (s.request? n).bind (·.work)

def update (s : Session ρ) (n : Nat) (f : Request ρ → Request ρ) : Session ρ :=
  { s with requests := s.requests.modify n f }

/-- The state of a session without a request in flight. -/
def settled (s : Session ρ) : SessionState :=
  match s.kept with
  | some k => .judged k.verdict.kind
  | none => .editing

/-- Withdraws the request in flight. -/
def cancel (s : Session ρ) : Session ρ :=
  match s.inflight with
  | none => s
  | some n =>
    { s with inflight := none, state := s.settled }.update n fun (r : Request ρ) =>
      { r with withdrawn := true, future := r.future.cancel }

/-- Discards a verdict on another revision. -/
def discard (s : Session ρ) : Session ρ :=
  match s.kept with
  | none => s
  | some k =>
    if k.revision = s.board.revision then s
    else { s with kept := none, state := if s.inflight.isNone then .editing else s.state }

/-- The request in flight is about another revision. -/
def isStale (s : Session ρ) : Bool :=
  (s.inflight.bind s.request?).any fun r => r.revision ≠ s.board.revision

/-- Looks at the revision of the board. -/
def look (s : Session ρ) : Session ρ :=
  if s.discard.isStale then s.discard.cancel else s.discard

/-- Makes room for a new request on the board, whose rules have then been checked. -/
def cleared (s : Session ρ) : Session ρ :=
  { s.look.cancel with board := (s.board.review s.settings.checker).2 }

/-- Puts a request in flight. -/
def begin (s : Session ρ) : Session ρ :=
  { s with
    state := .checking
    inflight := some s.requests.length
    requests := s.requests ++ [⟨s.board.revision, .pending, none, false⟩] }

/-- A request may settle the session as long as it is in flight and nobody has given it up. -/
def mayClaim (s : Session ρ) (n : Nat) : Bool :=
  s.inflight = some n && (s.request? n).any fun r => !r.future.isCancelled

/-- Settles a request and the session with it. -/
def settle (s : Session ρ) (n : Nat) (f : Future ρ) (kept : Option Kept) : Session ρ :=
  if s.mayClaim n then
    let s := { s with inflight := none, kept := kept }
    { s with state := s.settled }.update n fun r => { r with future := f }
  else s

/-- The session with the work of a request done. -/
def finished (s : Session ρ) (n : Nat) : Session ρ := s.update n fun r => { r with work := none }

/-- The work of a request has come to its end. -/
def land (s : Session ρ) (n : Nat) (f : Future ρ) (kept : Option Kept) : Session ρ :=
  (s.finished n).settle n f kept

/-- A verdict, to be kept with the revision that the request is about. -/
def keep (s : Session ρ) (n : Nat) (v : Verdict) : Option Kept :=
  (s.request? n).map fun r => ⟨v, r.revision⟩

/-- The work of a request goes to the solver. -/
def entrust (s : Session ρ) (n : Nat) (w : Work) : Session ρ :=
  s.update n fun r => { r with work := some w }

/-- Why the solver refuses the query of a check, if it does. -/
def refusal? (s : Session ρ) : Option (Fault ρ) :=
  match judgeTimeout s.settings.solver.checkTimeout with
  | .error f => some f.weaken
  | .ok () => s.stopped.map .shutDown

/-- Starts a check that has been prepared. Where the solver refuses the query, the request is in flight
already and stays there. -/
def startCheck (s : Session ρ) (p : Prepared) : Session ρ × Except (Fault ρ) Nat :=
  let n := s.requests.length
  match p with
  | .early v => (s.begin.land n (.done (.verdict v)) (s.begin.keep n v), .ok n)
  | .job j =>
    match s.refusal? with
    | some f => (s.begin, .error f)
    | none => (s.begin.entrust n (.check j s.settings), .ok n)

/-- A request for a verdict. It is refused where the board cannot be checked or has no query, or where
the solver refuses the query. -/
def submitCheck (s : Session ρ) : Session ρ × Except (Fault ρ) Nat :=
  match s.board.prepareCheck s.settings with
  | .error f => (s.cleared, .error f.weaken)
  | .ok p => s.cleared.startCheck p

/-- Hands a hint that has been prepared to the worker. Where its pool is closed, the request is in flight
already and stays there. -/
def enqueue (s : Session ρ) (j : HintJob) : Session ρ × Except (Fault ρ) Nat :=
  let n := s.requests.length
  match s.closed with
  | some x => (s.begin, .error (.shutDown x))
  | none => ({ s.begin with queue := s.queue ++ [(n, j)] }, .ok n)

/-- A request for a hint. It is refused where the board cannot be checked, or where the pool of the
worker is closed. -/
def queueHint (s : Session ρ) (goal : Option Formula) : Session ρ × Except (Fault ρ) Nat :=
  match s.board.prepareHint s.settings.checker goal with
  | .error d => (s.cleared, .error (.defect d))
  | .ok j => s.cleared.enqueue j

/-- The answer to the query of a request. It ends a check; a hint goes on when the worker takes its next
turn. -/
def receive (s : Session ρ) (n : Nat) (a : Answer) : Session ρ :=
  match s.task? n with
  | none => s
  | some (.check j c) =>
    let v := j.verdict c.encoder a
    s.land n (.done (.verdict v)) (s.keep n v)
  | some (.hint _ _ next) => { s.finished n with worker := .ready n (next a) }

def isWithdrawn (s : Session ρ) (n : Nat) : Bool := (s.request? n).any (·.withdrawn)

/-- The worker goes on with a hint until it waits for the solver. A withdrawn hint asks nothing more, and
a solver that has been shut down makes it fail. -/
def pursue (s : Session ρ) (n : Nat) (d : Dialogue Hint) : Session ρ :=
  match d with
  | .done h => s.land n (.done (.hint h)) s.kept
  | .fail f => s.land n (.failed f.weaken) s.kept
  | .ask q t next =>
    if s.isWithdrawn n then s.land n (.done (.hint (Hint.unavailable "cancelled"))) s.kept
    else match s.stopped with
      | some x => s.land n (.failed (.shutDown x)) s.kept
      | none => { s.entrust n (.hint q t next) with worker := .waiting n }

/-- A turn of the worker: it goes on with its hint once the answer is there, and takes up the next one
when it has none. -/
def serve (s : Session ρ) : Session ρ :=
  match s.worker with
  | .waiting _ => s
  | .ready n d => { s with worker := .idle }.pursue n d
  | .idle =>
    match s.queue with
    | [] => s
    | (n, j) :: rest => { s with queue := rest }.pursue n (j.run s.settings)

/-- The holder of a future gives it up. -/
def giveUp (s : Session ρ) (n : Nat) : Session ρ :=
  s.update n fun r => { r with future := r.future.cancel }

/-- Closes the session: its worker finishes what is in the queue and takes nothing more. -/
def close (s : Session ρ) (x : ρ) : Session ρ := { s.cancel with closed := some x }

/-- Shuts the solver down: it answers what it has been asked and takes nothing more. -/
def shutDown (s : Session ρ) (x : ρ) : Session ρ := { s with stopped := some x }

def edit (s : Session ρ) (e : Edit) : Session ρ × Except EditError (Option PieceId) :=
  ({ s with board := (e.apply s.board).1 }, (e.apply s.board).2)

/-- The report on the board as it is now; it is made once for a revision. -/
def liveReport (s : Session ρ) : Session ρ × Except Defect Report :=
  match s.report.filter fun r => r.revision = s.board.revision with
  | some r => (s, .ok r)
  | none =>
    match s.board.review s.settings.checker with
    | (.ok r, b) => ({ s with board := b, report := some r }, .ok r)
    | (.error d, b) => ({ s with board := b }, .error d)

/-! ### Prompt sessions

The worker takes its turns at once, and a solver that is told to give up a query does so at once. -/

/-- A turn of a prompt worker. -/
def promptTurn (s : Session ρ) : Session ρ :=
  match s.worker with
  | .waiting n =>
    if s.isWithdrawn n then (s.receive n (.plain "" .cancelled "cancelled")).serve else s
  | _ => s.serve

/-- Some turns of a prompt worker. -/
def promptTurns : Nat → Session ρ → Session ρ
  | 0, s => s
  | k + 1, s => promptTurns k s.promptTurn

/-- The worker goes on until it waits for the solver or has nothing left to do. -/
def drain (s : Session ρ) : Session ρ := promptTurns (s.queue.length + 1) s

/-- A request for a hint that the worker takes up at once. -/
def submitHint (s : Session ρ) (goal : Option Formula) : Session ρ × Except (Fault ρ) Nat :=
  ((s.queueHint goal).1.drain, (s.queueHint goal).2)

/-- Delivers an answer to the query that a request waits for. -/
def deliver (s : Session ρ) (n : Nat) (a : Answer) : Session ρ := (s.receive n a).drain

/-- The query that a request waits for; a withdrawn request waits for none. -/
def awaited? (r : Request ρ) : Option (Query × Value) :=
  if r.withdrawn then none else r.work.map Work.query

/-- The requests that wait for an answer, oldest first. -/
def pending (s : Session ρ) : List Nat :=
  (List.range s.requests.length).filter fun n => ((s.request? n).bind awaited?).isSome

/-- Delivers the answers of a solver to the queries that are left of a hint. -/
def finishHint {σ : Type} (n : Nat) (solve : Query → Value → σ → Answer × σ) :
    Dialogue Hint → Session ρ → σ → Session ρ × σ
  | .ask q t next, s, st =>
    finishHint n solve (next (solve q t st).1) (s.deliver n (solve q t st).1) (solve q t st).2
  | _, s, st => (s, st)

/-- Delivers answers from a solver until the request waits for none. -/
def finish {σ : Type} (s : Session ρ) (n : Nat) (solve : Query → Value → σ → Answer × σ) (st : σ) :
    Session ρ × σ :=
  match s.task? n with
  | none => (s, st)
  | some (.check j c) =>
    let (a, st) := solve j.query c.solver.checkTimeout st
    (s.deliver n a, st)
  | some (.hint q t next) => finishHint n solve (.ask q t next) s st

end Session

end DeductionBoard
