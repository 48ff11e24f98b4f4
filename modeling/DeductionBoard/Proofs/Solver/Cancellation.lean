import DeductionBoard.Solver.Cancellation
import Mathlib

/-! No cancellation is lost. A process that is known has been killed, or the cancellation that found
it known is going to kill it; a process that is not known yet meets with the raised flag. Main
result: if the flag is raised before the output has been read, the query is never decided, and once
query and cancellation have come to their ends, no process has been started, or it has been killed.
-/

namespace DeductionBoard.Solver.External

variable {j : Job} {b : Behaviour} {s : State} {c : Cancellation} {r : Race} {i k n : Nat}
  {a : Answer} {ts : List Turn}

/-- The process has not been started. -/
def Stage.isUnstarted : Stage → Bool
  | .queued | .taken | .accepted => true
  | _ => false

/-- The steps that are left to a query. -/
def Stage.left : Stage → Nat
  | .queued => 7
  | .taken => 6
  | .accepted => 5
  | .started => 4
  | .known => 3
  | .waiting => 2
  | .read => 1
  | .finished _ => 0

/-! ### The query -/

/-- All that a step of the query can do. -/
inductive Steps (j : Job) (b : Behaviour) (s : State) : State → Prop where
  | take (h : s.stage = .queued) : Steps j b s { s with stage := .taken }
  | refuse (h : s.stage = .taken) (hc : s.cancelled = true) :
    Steps j b s (s.finish (cancelledAnswer j))
  | accept (h : s.stage = .taken) (hc : s.cancelled = false) :
    Steps j b s { s with stage := .accepted }
  | fail (h : s.stage = .accepted) (t : String) (ht : b.startFailure = some t) :
    Steps j b s ((s.record [.start (j.command.limited j.timeout)]).finish
      (Answer.ofFailure j.command.name b.failureKind t))
  | start (h : s.stage = .accepted) :
    Steps j b s { s.record [.start (j.command.limited j.timeout)] with stage := .started }
  | abort (h : s.stage = .started) (hc : s.cancelled = true) :
    Steps j b s ((s.record [.kill, .wait false none]).finish (cancelledAnswer j))
  | register (h : s.stage = .started) (hc : s.cancelled = false) :
    Steps j b s { s with stage := .known }
  | giveUp (h : s.stage = .known) (f : TimeFault) : Steps j b s (s.finish (f.answer j.command.name))
  | wait (h : s.stage = .known) (t : Int) :
    Steps j b s { s.record [.wait true (some t)] with stage := .waiting }
  | overrun (h : s.stage = .waiting) :
    Steps j b s ((s.record [.kill, .wait false none]).finish
      (Answer.plain j.command.name .timeout "wall-clock limit exceeded"))
  | read (h : s.stage = .waiting) : Steps j b s { s with stage := .read }
  | drop (h : s.stage = .read) (hc : s.cancelled = true) :
    Steps j b s (s.finish (cancelledAnswer j))
  | answer (h : s.stage = .read) (hc : s.cancelled = false) :
    Steps j b s (s.finish (classify j.command.name b))
  | rest (a : Answer) (h : s.stage = .finished a) : Steps j b s s

theorem steps_step (j : Job) (b : Behaviour) (s : State) : Steps j b s (step j b s) := by
  unfold step
  cases hs : s.stage with
  | queued => exact .take hs
  | taken =>
    dsimp only
    split
    · next hc => exact .refuse hs hc
    · next hc => exact .accept hs (Bool.not_eq_true _ ▸ hc)
  | accepted =>
    cases ht : b.startFailure with
    | none => exact .start hs
    | some t => exact .fail hs t ht
  | started =>
    dsimp only
    split
    · next hc => exact .abort hs hc
    · next hc => exact .register hs (Bool.not_eq_true _ ▸ hc)
  | known =>
    cases waitingTime j.timeout with
    | error f => exact .giveUp hs f
    | ok t => exact .wait hs t
  | waiting =>
    dsimp only
    split
    · exact .overrun hs
    · exact .read hs
  | read =>
    dsimp only
    split
    · next hc => exact .drop hs hc
    · next hc => exact .answer hs (Bool.not_eq_true _ ▸ hc)
  | finished a => exact .rest a hs

theorem left_le (k : Stage) : k.left ≤ stepsToEnd := by
  cases k <;> simp [Stage.left, stepsToEnd]

theorem left_step (j : Job) (b : Behaviour) (s : State) :
    (step j b s).stage.left ≤ s.stage.left - 1 := by
  have hsteps := steps_step j b s
  generalize step j b s = s' at hsteps
  cases hsteps with
  | _ => simp_all [Stage.left, State.finish]

theorem cancelled_step (j : Job) (b : Behaviour) (s : State) :
    (step j b s).cancelled = s.cancelled := by
  have hsteps := steps_step j b s
  generalize step j b s = s' at hsteps
  cases hsteps <;> rfl

theorem mem_log_step {e : Event} (h : e ∈ s.log) : e ∈ (step j b s).log := by
  have hsteps := steps_step j b s
  generalize step j b s = s' at hsteps
  cases hsteps <;> simp [State.finish, State.record, h]

theorem left_eq_zero : s.stage.left = 0 ↔ ∃ a, s.stage = .finished a := by
  cases hs : s.stage <;> simp [Stage.left]

theorem answer?_eq_some : s.answer? = some a ↔ s.stage = .finished a := by
  cases hs : s.stage <;> simp [State.answer?, hs]

theorem not_isUnstarted (h : s.isKnown = true ∨ s.stage.left = 0) :
    ¬ s.stage.isUnstarted = true := by
  cases hs : s.stage <;> simp_all [State.isKnown, Stage.isUnstarted, Stage.left]

/-- The process does not become known once the flag is raised. -/
theorem isKnown_of_step (hc : s.cancelled = true) (h : (step j b s).isKnown = true) :
    s.isKnown = true := by
  have hsteps := steps_step j b s
  generalize step j b s = s' at h hsteps
  cases hsteps <;> simp_all [State.isKnown, State.finish]

/-! ### Cancellations -/

namespace Cancellation

/-- The steps that are left to a cancellation. -/
def left : Cancellation → Nat
  | .asked => 4
  | .admitted => 3
  | .raised _ => 2
  | .late _ => 1
  | .ended => 0

/-- The cancellation is going to kill the process. -/
def kills : Cancellation → Bool
  | .raised known | .late known => known
  | _ => false

theorem left_step (j : Job) (known : Bool) (s : State) (c : Cancellation) :
    (c.step j known s).1.left ≤ c.left - 1 := by
  cases c with
  | asked | raised => cases hs : s.stage <;> simp [step, hs, left]
  | admitted | late | ended => simp [step, left]

/-- All that a step of a cancellation can do to the query. -/
theorem step_cases (j : Job) (known : Bool) (s : State) (c : Cancellation) :
    (c.step j known s).2 = s ∨ (c.step j known s).2 = { s with cancelled := true } ∨
      s.stage = .queued ∧ (c.step j known s).2 = s.finish (withdrawnAnswer j) ∨
      c.kills = true ∧ (c.step j known s).2 = s.record [.kill] := by
  cases c with
  | asked => cases hs : s.stage <;> simp [step, hs]
  | admitted => simp [step]
  | raised k => cases hs : s.stage <;> simp [step, hs]
  | late k => cases k <;> simp [step, kills]
  | ended => simp [step]

theorem mem_log_step {known : Bool} {e : Event} (h : e ∈ s.log) : e ∈ (c.step j known s).2.log := by
  rcases c.step_cases j known s with heq | heq | ⟨-, heq⟩ | ⟨-, heq⟩ <;> rw [heq]
  · exact h
  · exact h
  · exact h
  · exact List.mem_append_left _ h

theorem left_stage_step (j : Job) (known : Bool) (s : State) (c : Cancellation) :
    (c.step j known s).2.stage.left ≤ s.stage.left := by
  have hsame : ∀ t : State, (c.step j known s).2 = t → t.stage = s.stage →
      (c.step j known s).2.stage.left ≤ s.stage.left :=
    fun t heq hstage => Nat.le_of_eq (congrArg Stage.left (heq ▸ hstage))
  rcases c.step_cases j known s with heq | heq | ⟨-, heq⟩ | ⟨-, heq⟩
  · exact hsame _ heq rfl
  · exact hsame _ heq rfl
  · rw [heq]
    exact Nat.zero_le _
  · exact hsame _ heq rfl

/-- A cancellation kills only a process that was known. -/
theorem kills_step {known : Bool} (h : (c.step j known s).1.kills = true) :
    c.kills = true ∨ known = true := by
  cases c with
  | asked => cases hs : s.stage <;> simp [step, hs, kills] at h
  | admitted => exact .inr h
  | raised k => cases hs : s.stage <;> simp [step, hs, kills] at h <;> exact .inl h
  | late k | ended => simp [step, kills] at h

/-- A cancellation that is going to kill goes on with it, unless the query is still in the queue. -/
theorem kills_or_killed (j : Job) (h : c.kills = true) (hs : s.stage ≠ .queued) (known : Bool) :
    (c.step j known s).1.kills = true ∨ .kill ∈ (c.step j known s).2.log := by
  cases c with
  | asked | admitted | ended => simp [kills] at h
  | raised k =>
    left
    cases hstage : s.stage <;> simp_all [step, kills]
  | late k =>
    right
    simp [step, show k = true from h, State.record]

end Cancellation

namespace Race

/-- What every turn keeps. -/
structure Orderly (r : Race) : Prop where
  unstarted : r.query.stage.isUnstarted = true → r.query.log = []
  known : r.query.isKnown = true → r.known = true
  ended : r.known = true → r.query.isKnown = true ∨ r.query.stage.left = 0
  kills : ∀ c ∈ r.cancellations, c.kills = true → r.known = true

theorem orderly_start (n : Nat) : (start n).Orderly where
  unstarted _ := rfl
  known h := absurd h (by simp [start, External.start, State.isKnown])
  ended h := absurd h (by simp [start])
  kills c hc := by
    rw [List.eq_of_mem_replicate hc]
    simp [Cancellation.kills]

theorem Orderly.advance (h : r.Orderly) (j : Job) (b : Behaviour) : (r.advance j b).Orderly := by
  have hsteps := steps_step j b r.query
  unfold Race.advance
  generalize External.step j b r.query = s at hsteps
  refine ⟨fun hs => ?_, fun hs => by simp [hs], fun hs => ?_, fun c hc hkills => ?_⟩
  · have hlog := h.unstarted
    cases hsteps <;> simp_all [Stage.isUnstarted, State.finish]
  · have hended := h.ended
    cases hsteps <;> simp_all [State.isKnown, State.finish, Stage.left]
  · simp [h.kills c hc hkills]

theorem cancel_of_some (hc : r.cancellations[k]? = some c) :
    r.cancel j k = { r with
      query := (c.step j r.known r.query).2
      cancellations := r.cancellations.set k (c.step j r.known r.query).1 } := by
  rw [cancel, hc]

theorem Orderly.cancel (h : r.Orderly) (j : Job) (k : Nat) : (r.cancel j k).Orderly := by
  cases hc : r.cancellations[k]? with
  | none => rwa [Race.cancel, hc]
  | some c =>
    rw [cancel_of_some hc]
    have hkills : ∀ c' ∈ r.cancellations.set k (c.step j r.known r.query).1, c'.kills = true →
        r.known = true := by
      intro c' hc' hkills
      rcases List.mem_or_eq_of_mem_set hc' with hold | rfl
      · exact h.kills c' hold hkills
      · exact (Cancellation.kills_step hkills).elim (h.kills c (List.mem_of_getElem? hc)) id
    rcases c.step_cases j r.known r.query with heq | heq | ⟨-, heq⟩ | ⟨hkilling, heq⟩ <;> rw [heq]
    · exact ⟨h.unstarted, h.known, h.ended, hkills⟩
    · exact ⟨h.unstarted, h.known, h.ended, hkills⟩
    · exact ⟨fun hs => absurd hs (by simp [State.finish, Stage.isUnstarted]),
        fun hs => absurd hs (by simp [State.finish, State.isKnown]), fun _ => .inr rfl, hkills⟩
    · refine ⟨fun hs => ?_, h.known, h.ended, hkills⟩
      have hended := h.ended (h.kills c (List.mem_of_getElem? hc) hkilling)
      exact absurd hs (not_isUnstarted hended)

/-- A process has been killed, or a cancellation is going to kill it. -/
def Caught (r : Race) (i : Nat) : Prop :=
  .kill ∈ r.query.log ∨ ∃ c, r.cancellations[i]? = some c ∧ c.kills = true

/-- An answer without a process. -/
def Spared (j : Job) (b : Behaviour) (s : State) (a : Answer) : Prop :=
  s.log = [] ∧ (a = withdrawnAnswer j ∨ a = cancelledAnswer j) ∨
    ∃ t, b.startFailure = some t ∧ a = Answer.ofFailure j.command.name b.failureKind t

/-- What is kept once cancellation `i` has raised the flag before the output was read. -/
structure Doomed (j : Job) (b : Behaviour) (i : Nat) (r : Race) : Prop where
  orderly : r.Orderly
  cancelled : r.query.cancelled = true
  known : r.query.isKnown = true → r.Caught i
  answer : ∀ a, r.query.stage = .finished a →
    a.status.isDefinitive = false ∧ (Spared j b r.query a ∨ r.Caught i)

theorem Caught.advance (h : r.Caught i) (j : Job) (b : Behaviour) : (r.advance j b).Caught i :=
  h.imp mem_log_step id

theorem Doomed.advance (h : Doomed j b i r) : Doomed j b i (r.advance j b) where
  orderly := h.orderly.advance j b
  cancelled := (cancelled_step j b r.query).trans h.cancelled
  known hs := (h.known (isKnown_of_step h.cancelled hs)).advance j b
  answer a ha := by
    have hkept := fun hc : r.Caught i => hc.advance j b
    have hkilled : .kill ∈ (External.step j b r.query).log → (r.advance j b).Caught i := Or.inl
    change (External.step j b r.query).stage = .finished a at ha
    change _ ∧ (Spared j b (External.step j b r.query) a ∨ _)
    have hsteps := steps_step j b r.query
    generalize External.step j b r.query = s at ha hkilled hsteps ⊢
    cases hsteps with
    | refuse hs hc =>
      obtain rfl := Stage.finished.inj ha
      have hlog := h.orderly.unstarted (by rw [hs]; rfl)
      exact ⟨rfl, .inl (.inl ⟨hlog, .inr rfl⟩)⟩
    | fail hs t ht =>
      obtain rfl := Stage.finished.inj ha
      exact ⟨rfl, .inl (.inr ⟨t, ht, rfl⟩)⟩
    | abort hs hc =>
      obtain rfl := Stage.finished.inj ha
      exact ⟨rfl, .inr (hkilled (by simp [State.finish, State.record]))⟩
    | giveUp hs f =>
      obtain rfl := Stage.finished.inj ha
      refine ⟨by cases f <;> rfl, .inr (hkept (h.known (by simp [State.isKnown, hs])))⟩
    | overrun hs =>
      obtain rfl := Stage.finished.inj ha
      exact ⟨rfl, .inr (hkilled (by simp [State.finish, State.record]))⟩
    | drop hs hc =>
      obtain rfl := Stage.finished.inj ha
      exact ⟨rfl, .inr (hkept (h.known (by simp [State.isKnown, hs])))⟩
    | answer hs hc => exact absurd (h.cancelled.symm.trans hc) (by simp)
    | rest a' hs =>
      obtain ⟨hstatus, hfate⟩ := h.answer a ha
      exact ⟨hstatus, hfate.imp id hkept⟩
    | take | accept | start | register | wait | read => exact absurd ha (by simp)

theorem Caught.cancel (ho : r.Orderly) (h : r.Caught i) (j : Job) (k : Nat) :
    (r.cancel j k).Caught i := by
  cases hc : r.cancellations[k]? with
  | none => rwa [Race.cancel, hc]
  | some c =>
    rw [cancel_of_some hc]
    rcases h with hkilled | ⟨c', hc', hkills⟩
    · exact .inl (Cancellation.mem_log_step hkilled)
    · by_cases hik : k = i
      · subst hik
        obtain rfl : c = c' := Option.some.inj (hc.symm.trans hc')
        have hqueued : r.query.stage ≠ .queued := by
          intro hs
          have hended := ho.ended (ho.kills c (List.mem_of_getElem? hc) hkills)
          simp [State.isKnown, hs, Stage.left] at hended
        rcases Cancellation.kills_or_killed j hkills hqueued r.known with hgoesOn | hkilled
        · refine .inr ⟨_, ?_, hgoesOn⟩
          exact List.getElem?_set_self (List.getElem?_eq_some_iff.mp hc).1
        · exact .inl hkilled
      · exact .inr ⟨c', by rw [List.getElem?_set_ne hik]; exact hc', hkills⟩

theorem left_query_cancel (j : Job) (r : Race) (k : Nat) :
    (r.cancel j k).query.stage.left ≤ r.query.stage.left := by
  cases hc : r.cancellations[k]? with
  | none => exact Nat.le_of_eq (by rw [Race.cancel, hc])
  | some c =>
    rw [cancel_of_some hc]
    exact c.left_stage_step j r.known r.query

theorem cancellations_turn_of_ne (hc : r.cancellations[i]? = some c) {t : Turn}
    (ht : t ≠ .cancellation i) : (r.turn j b t).cancellations[i]? = some c := by
  cases t with
  | query => exact hc
  | cancellation k =>
    have hik : k ≠ i := fun hik => ht (congrArg _ hik)
    cases hk : r.cancellations[k]? with
    | none => rwa [turn, cancel, hk]
    | some c' =>
      rw [turn, cancel_of_some hk, List.getElem?_set_ne hik]
      exact hc

theorem Doomed.cancel (h : Doomed j b i r) (k : Nat) : Doomed j b i (r.cancel j k) := by
  have hkept := fun hc : r.Caught i => hc.cancel h.orderly j k
  cases hc : r.cancellations[k]? with
  | none => rwa [Race.cancel, hc]
  | some c =>
    have horderly := h.orderly.cancel j k
    rw [cancel_of_some hc] at hkept horderly ⊢
    rcases c.step_cases j r.known r.query with heq | heq | ⟨hqueued, heq⟩ | ⟨hkills, heq⟩ <;>
      rw [heq] at hkept horderly ⊢
    · exact ⟨horderly, h.cancelled, fun hs => hkept (h.known hs),
        fun a ha => (h.answer a ha).imp id (Or.imp id hkept)⟩
    · exact ⟨horderly, rfl, fun hs => hkept (h.known hs),
        fun a ha => (h.answer a ha).imp id (Or.imp id hkept)⟩
    · refine ⟨horderly, h.cancelled, fun hs => absurd hs (by simp [State.finish, State.isKnown]),
        fun a ha => ?_⟩
      obtain rfl := Stage.finished.inj ha
      have hlog := h.orderly.unstarted (by rw [hqueued]; rfl)
      exact ⟨rfl, .inl (.inl ⟨hlog, .inl rfl⟩)⟩
    · refine ⟨horderly, h.cancelled, fun hs => hkept (h.known hs), fun a ha => ?_⟩
      refine ⟨(h.answer a ha).1, .inr (.inl ?_)⟩
      simp [State.record]

theorem Doomed.turn (h : Doomed j b i r) (t : Turn) : Doomed j b i (r.turn j b t) := by
  cases t with
  | query => exact h.advance
  | cancellation k => exact h.cancel k

theorem cancellations_cancel_self (j : Job) (hc : r.cancellations[i]? = some c) :
    (r.cancel j i).cancellations[i]? = some (c.step j r.known r.query).1 := by
  rw [cancel_of_some hc]
  exact List.getElem?_set_self (List.getElem?_eq_some_iff.mp hc).1

/-- The moment at which the flag is raised. -/
theorem doomed_of_admitted (h : r.Orderly) (hi : r.cancellations[i]? = some .admitted)
    (hs : r.query.answer? = none) : Doomed j b i (r.cancel j i) := by
  have horderly := h.cancel j i
  have hflag := cancellations_cancel_self j hi
  rw [cancel_of_some hi] at horderly hflag ⊢
  refine ⟨horderly, rfl, fun hknown => .inr ⟨_, hflag, h.known hknown⟩, fun a ha => ?_⟩
  have ha : r.query.stage = .finished a := ha
  rw [answer?_eq_some.mpr ha] at hs
  exact absurd hs (by simp)

/-- Taken in a row, the steps of a cancellation are the cancellation as a whole. -/
theorem cancel_in_a_row (h : r.Orderly) (hi : r.cancellations[i]? = some .asked) :
    ((List.replicate Cancellation.asked.left (.cancellation i)).foldl (turn j b) r).query =
      r.query.cancel j := by
  have hlt := (List.getElem?_eq_some_iff.mp hi).1
  have hknown := h.known
  have hended := h.ended
  cases hs : r.query.stage <;>
    simp_all [Cancellation.left, List.replicate, turn, cancel, Cancellation.step, State.cancel,
      State.isKnown, Stage.left, State.finish, State.record, withdrawnAnswer]

/-! ### Runs -/

variable {ts ts' : List Turn}

@[simp] theorem run_append (j : Job) (b : Behaviour) (n : Nat) (ts ts' : List Turn) :
    run j b n (ts ++ ts') = ts'.foldl (turn j b) (run j b n ts) := by
  simp [run, List.foldl_append]

theorem orderly_run (j : Job) (b : Behaviour) (n : Nat) (ts : List Turn) :
    (run j b n ts).Orderly := by
  induction ts using List.reverseRecOn with
  | nil => exact orderly_start n
  | append_singleton ts t ih =>
    rw [run_append]
    cases t with
    | query => exact ih.advance j b
    | cancellation k => exact ih.cancel j k

/-- Turns of the query alone. -/
theorem foldl_replicate_query (r : Race) (n : Nat) :
    ((List.replicate n .query).foldl (turn j b) r).query =
        (List.replicate n .advance).foldl (Move.apply j b) r.query ∧
      ((List.replicate n .query).foldl (turn j b) r).cancellations = r.cancellations := by
  induction n generalizing r with
  | zero => exact ⟨rfl, rfl⟩
  | succ n ih => exact ih (r.advance j b)

/-- A query with a cancellation on the way is a race in which the cancellation goes through in one
go. -/
theorem runCancelled_eq (j : Job) (b : Behaviour) (p : CancelPoint) :
    runCancelled j b (some p) = (run j b 1 (List.replicate p.steps .query ++
      (List.replicate Cancellation.asked.left (.cancellation 0) ++
        List.replicate stepsToEnd .query))).query := by
  let r := run j b 1 (List.replicate p.steps .query)
  obtain ⟨hquery, hcancellations⟩ := foldl_replicate_query (j := j) (b := b) (start 1) p.steps
  have hasked : r.cancellations[0]? = some .asked := by
    rw [show r.cancellations = (start 1).cancellations from hcancellations]
    rfl
  have hcancel := cancel_in_a_row (j := j) (b := b) (orderly_run j b 1 _) hasked
  rw [run_append, List.foldl_append, (foldl_replicate_query _ stepsToEnd).1, hcancel,
    show r.query = _ from hquery]
  simp [runCancelled, External.run, List.foldl_append, Move.apply, start]

theorem Doomed.foldl (h : Doomed j b i r) (ts : List Turn) :
    Doomed j b i (ts.foldl (Race.turn j b) r) := by
  induction ts generalizing r with
  | nil => exact h
  | cons t ts ih => exact ih (h.turn t)

/-- Every turn of the query brings it nearer to its end, and no cancellation holds it up. -/
theorem left_query_foldl (r : Race) (ts : List Turn) :
    (ts.foldl (turn j b) r).query.stage.left ≤ r.query.stage.left - ts.count .query := by
  induction ts generalizing r with
  | nil => simp
  | cons t ts ih =>
    have hrest := ih (r.turn j b t)
    rw [List.foldl_cons]
    cases t with
    | query =>
      have hstep : (r.turn j b .query).query.stage.left ≤ _ := External.left_step j b r.query
      rw [List.count_cons_self]
      omega
    | cancellation k =>
      have hstep : (r.turn j b (.cancellation k)).query.stage.left ≤ _ := left_query_cancel j r k
      rw [List.count_cons_of_ne (by simp)]
      omega

/-- Every turn of a cancellation brings it nearer to its end, and no other turn holds it up. -/
theorem left_cancellation_foldl (hc : r.cancellations[i]? = some c) (ts : List Turn) :
    ∃ c', (ts.foldl (turn j b) r).cancellations[i]? = some c' ∧
      c'.left ≤ c.left - ts.count (.cancellation i) := by
  induction ts generalizing r c with
  | nil => exact ⟨c, hc, by simp⟩
  | cons t ts ih =>
    rw [List.foldl_cons]
    by_cases ht : t = .cancellation i
    · subst ht
      have hnext : (r.turn j b (.cancellation i)).cancellations[i]? =
          some (c.step j r.known r.query).1 := cancellations_cancel_self j hc
      obtain ⟨c', hc', hleft⟩ := ih hnext
      have hstep := c.left_step j r.known r.query
      refine ⟨c', hc', ?_⟩
      rw [List.count_cons_self]
      omega
    · obtain ⟨c', hc', hleft⟩ := ih (cancellations_turn_of_ne hc ht)
      refine ⟨c', hc', ?_⟩
      rwa [List.count_cons_of_ne ht]

/-- A cancellation that raises the flag before there is an answer is not lost, in whichever order
the query and all cancellations of it go on: the query is never decided; and once query and
cancellation have had their turns, there is an answer, and either no process has been started or it
has been killed. -/
theorem cancellation_kept (hi : (run j b n ts).cancellations[i]? = some .admitted)
    (hs : (run j b n ts).query.answer? = none) (ts' : List Turn) :
    (∀ a, (run j b n (ts ++ .cancellation i :: ts')).query.answer? = some a →
      a.status ≠ .sat ∧ a.status ≠ .unsat) ∧
    (stepsToEnd ≤ ts'.count .query → 2 ≤ ts'.count (.cancellation i) →
      ∃ a, (run j b n (ts ++ .cancellation i :: ts')).query.answer? = some a ∧
        (Spared j b (run j b n (ts ++ .cancellation i :: ts')).query a ∨
          .kill ∈ (run j b n (ts ++ .cancellation i :: ts')).query.log)) := by
  have hraised : Doomed j b i ((run j b n ts).cancel j i) :=
    doomed_of_admitted (orderly_run j b n ts) hi hs
  have hdoomed := hraised.foldl ts'
  have hrun : run j b n (ts ++ .cancellation i :: ts') =
      ts'.foldl (turn j b) ((run j b n ts).cancel j i) := run_append j b n ts _
  rw [hrun]
  refine ⟨fun a ha => ?_, fun hq hc => ?_⟩
  · have hstatus := (hdoomed.answer a (answer?_eq_some.mp ha)).1
    constructor <;> intro heq <;> simp [heq, Status.isDefinitive] at hstatus
  · have hleft := left_query_foldl (j := j) (b := b) ((run j b n ts).cancel j i) ts'
    have hend := Nat.le_trans (left_query_cancel j (run j b n ts) i) (left_le _)
    obtain ⟨a, ha⟩ := left_eq_zero.mp (Nat.le_zero.mp (Nat.le_trans hleft (by omega)))
    refine ⟨a, answer?_eq_some.mpr ha, (hdoomed.answer a ha).2.imp id fun hcaught => ?_⟩
    -- the cancellation has come to its end, so that it is not going to kill any more
    have hflag := cancellations_cancel_self j hi
    obtain ⟨c, hc', hover⟩ := left_cancellation_foldl (j := j) (b := b) hflag ts'
    have hflagged : (Cancellation.step j ((run j b n ts).known) (run j b n ts).query
        .admitted).1.left - ts'.count (.cancellation i) ≤ 0 := by
      simp [Cancellation.left, Cancellation.step]
      omega
    have hc0 : c.left = 0 := Nat.le_zero.mp (Nat.le_trans hover hflagged)
    refine hcaught.resolve_right ?_
    rintro ⟨c', hc'', hkills⟩
    obtain rfl := Option.some.inj (hc'.symm.trans hc'')
    cases c <;> simp [Cancellation.left, Cancellation.kills] at hc0 hkills

/-- A query to a solver that would find it satisfiable. -/
def eager (ts : List Turn) : Race :=
  run ⟨⟨"z3", []⟩, .int 5000⟩ ⟨none, false, "sat", "", 0, "OSError", false⟩ 1 ts

/-- The flag is raised while the process runs and is not known yet. -/
theorem cancellation_kept_started :
    let before := List.replicate 3 Turn.query ++ [.cancellation 0]
    let behind := List.replicate stepsToEnd Turn.query ++ [.cancellation 0, .cancellation 0]
    (eager before).cancellations[0]? = some .admitted ∧ (eager before).query.answer? = none ∧
      ∃ a, (eager (before ++ .cancellation 0 :: behind)).query.answer? = some a ∧ a.status ≠ .sat ∧
        .kill ∈ (eager (before ++ .cancellation 0 :: behind)).query.log := by
  intro before behind
  have hi : (eager before).cancellations[0]? = some .admitted := rfl
  have hs : (eager before).query.answer? = none := rfl
  obtain ⟨hstatus, hend⟩ := cancellation_kept hi hs behind
  obtain ⟨a, ha, hfate⟩ := hend (by decide) (by decide)
  refine ⟨hi, hs, a, ha, (hstatus a ha).1, hfate.resolve_left ?_⟩
  rintro (⟨hlog, -⟩ | ⟨t, ht, -⟩)
  · exact absurd hlog (by decide_cbv)
  · exact absurd ht (by simp)

end Race

end DeductionBoard.Solver.External
