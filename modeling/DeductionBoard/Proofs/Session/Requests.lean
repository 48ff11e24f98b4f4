import DeductionBoard.Proofs.Session.Operations
import Mathlib

/-! Sessions whose requests may be refused and whose futures are shared with a holder. A run is any
sequence of events: edits, reviews, changed settings, requests, withdrawals, looks, reports, answers,
turns of the worker, futures that their holder gives up, and shutdowns of the worker's pool and of the
solver. What every event keeps: only the request in flight can be pending, and the state tells whether
there is one. Main results: a request that cannot be prepared leaves the session settled, while one
that the solver or the worker's pool refuses stays in flight; and a session that reads `checking` has a
pending future, unless its holder has given that up. -/

namespace DeductionBoard

open Solver

namespace Session

variable {ρ : Type} {s s' s'' : Session ρ} {m n r : Nat} {f : Future ρ} {b : Board} {c : Settings}

/-- Nothing is in flight or pending, and the state is that of the verdict, if there is one. -/
structure Settled (s : Session ρ) : Prop where
  inflight : s.inflight = none
  state : s.state = s.settled
  resolved : ∀ n, s.future? n ≠ some .pending

/-- What every event keeps. The holder of the future in flight may have given it up. -/
structure Tracked (s : Session ρ) : Prop where
  state : s.state = if s.inflight.isSome then .checking else s.settled
  pending : ∀ n, s.future? n = some .pending → s.inflight = some n
  flight : ∀ n, s.inflight = some n → s.future? n = some .pending ∨ s.future? n = some .cancelled

/-- Futures that are resolved stay as they are. -/
def KeepsResolved (s s' : Session ρ) : Prop :=
  ∀ n f, s.future? n = some f → f ≠ .pending → s'.future? n = some f

theorem KeepsResolved.refl (s : Session ρ) : KeepsResolved s s := fun _ _ h _ => h

theorem KeepsResolved.trans (h : KeepsResolved s s') (h' : KeepsResolved s' s'') :
    KeepsResolved s s'' :=
  fun n f hf hne => h' n f (h n f hf hne) hne

theorem Settled.tracked (h : s.Settled) : s.Tracked where
  state := by rw [h.state, h.inflight]; rfl
  pending n hn := absurd hn (h.resolved n)
  flight n hn := absurd (h.inflight.symm.trans hn) (by simp)

theorem Tracked.settled_of_inflight (h : s.Tracked) (hs : s.inflight = none) : s.Settled where
  inflight := hs
  state := by rw [h.state, hs]; rfl
  resolved n hn := absurd (hs.symm.trans (h.pending n hn)) (by simp)

theorem Tracked.checking_iff (h : s.Tracked) : s.state = .checking ↔ ∃ n, s.inflight = some n := by
  rw [h.state, ← Option.isSome_iff_exists]
  split
  · next hsome => simp [hsome]
  · next hnone =>
    refine ⟨fun hchecking => ?_, fun hsome => absurd hsome hnone⟩
    unfold settled at hchecking
    split at hchecking <;> exact absurd hchecking (by simp)

theorem settled_new (b : Board) (c : Settings) : (new b c : Session ρ).Settled where
  inflight := rfl
  state := rfl
  resolved n := by simp [new, future?, request?]

/-! ### Operations -/

theorem Tracked.isSome_future? (h : s.Tracked) (hn : s.inflight = some n) :
    (s.future? n).isSome := by
  rcases h.flight n hn with hf | hf <;> simp [hf]

/-- A request that was in flight has landed. -/
theorem Tracked.settled_of_lands (h : s.Tracked) (hl : Lands s s' n f) (hf : f ≠ .pending) :
    s'.Settled where
  inflight := hl.inflight
  state := hl.state
  resolved m hm := by
    by_cases hnm : n = m
    · subst hnm
      exact hf (Option.some.inj (hl.future.symm.trans hm))
    · rw [hl.other m hnm] at hm
      exact hnm (Option.some.inj (hl.before.symm.trans (h.pending m hm)))

/-- Only the future of the request that lands changes. -/
theorem Lands.keepsResolved {f : Future ρ} (hl : Lands s s' n f)
    (hf : ∀ f', s.future? n = some f' → f' ≠ .pending → f = f') : KeepsResolved s s' := by
  intro m f' hm hne
  by_cases hnm : n = m
  · subst hnm
    rw [hl.future, hf f' hm hne]
  · rw [hl.other m hnm, hm]

theorem cancel_ne_pending (f : Future ρ) : f.cancel ≠ .pending := by
  cases f <;> simp [Future.cancel]

theorem cancel_eq_self (h : f ≠ .pending) : f.cancel = f := by
  cases f <;> simp_all [Future.cancel]

theorem Tracked.cancel (h : s.Tracked) : s.cancel.Settled ∧ KeepsResolved s s.cancel := by
  rcases cancel_cases s fun n hn => h.isSome_future? hn with ⟨hs, heq⟩ | ⟨n, f, hf, hl⟩
  · rw [heq]
    exact ⟨h.settled_of_inflight hs, .refl s⟩
  · refine ⟨h.settled_of_lands hl (cancel_ne_pending f), hl.keepsResolved fun f' hf' hne => ?_⟩
    obtain rfl := Option.some.inj (hf.symm.trans hf')
    exact cancel_eq_self hne

theorem Tracked.discard (h : s.Tracked) : s.discard.Tracked where
  state := by
    have hstate := h.state
    unfold Session.discard
    split
    · exact hstate
    · split
      · exact hstate
      · cases hs : s.inflight <;> simp [hs, hstate, settled]
  pending n hn := by
    rw [inflight_discard]
    exact h.pending n (future?_discard s n ▸ hn)
  flight n hn := by
    rw [future?_discard]
    exact h.flight n (inflight_discard s ▸ hn)

theorem keepsResolved_discard (s : Session ρ) : KeepsResolved s s.discard :=
  fun n f hf _ => by rwa [future?_discard]

theorem Tracked.look (h : s.Tracked) : s.look.Tracked ∧ KeepsResolved s s.look := by
  have hdiscard := keepsResolved_discard s
  unfold Session.look
  split
  · exact ⟨h.discard.cancel.1.tracked, hdiscard.trans h.discard.cancel.2⟩
  · exact ⟨h.discard, hdiscard⟩

theorem Settled.look (h : s.Settled) : s.look.Settled := by
  refine h.tracked.look.1.settled_of_inflight ?_
  rw [inflight_look, h.inflight]
  split <;> rfl

/-- Making room for a request changes the board as well, which no future depends on. -/
theorem Tracked.cleared (h : s.Tracked) : s.cleared.Settled ∧ KeepsResolved s s.cleared :=
  have hcancel := h.look.1.cancel
  ⟨⟨hcancel.1.inflight, hcancel.1.state, hcancel.1.resolved⟩, h.look.2.trans hcancel.2⟩

theorem Settled.begin (h : s.Settled) : s.begin.Tracked where
  state := rfl
  pending n hn := by
    by_cases hlast : n = s.requests.length
    · exact congrArg some hlast.symm
    · rw [future?_begin_of_ne hlast] at hn
      exact absurd hn (h.resolved n)
  flight n hn := by
    obtain rfl := Option.some.inj hn
    exact .inl (future?_begin s)

theorem keepsResolved_begin (s : Session ρ) : KeepsResolved s s.begin := by
  intro n f hf _
  rwa [future?_begin_of_ne]
  rintro rfl
  rw [future?, request?_length] at hf
  exact absurd hf (by simp)

theorem Tracked.of_looksLike (h : s.Tracked) (hl : LooksLike s s') : s'.Tracked where
  state := by rw [hl.state, h.state, hl.inflight, settled, settled, hl.kept]
  pending n hn := by
    rw [hl.inflight]
    exact h.pending n (hl.future n ▸ hn)
  flight n hn := by
    rw [hl.future]
    exact h.flight n (hl.inflight ▸ hn)

theorem LooksLike.keepsResolved (hl : LooksLike s s') : KeepsResolved s s' :=
  fun n _ hf _ => (hl.future n).trans hf

/-- Work that goes on settles the session, or nothing can be seen of it. -/
theorem Tracked.advances (h : s.Tracked) {kept : Option Kept} (ha : Advances s s' n kept) :
    LooksLike s s' ∨ s'.Settled ∧ KeepsResolved s s' := by
  refine ha.imp_right fun ⟨_, hf, hclaim, hl, _⟩ =>
    ⟨h.settled_of_lands hl hf, hl.keepsResolved fun f' hf' hne => ?_⟩
  -- a resolved future in flight has been given up, and then the request may not claim the session
  obtain ⟨hn, f'', hf'', hcancelled⟩ := (mayClaim_iff s n).mp hclaim
  obtain rfl := Option.some.inj (hf'.symm.trans hf'')
  rcases h.flight n hn with hflight | hflight
  · exact absurd (Option.some.inj (hf'.symm.trans hflight)) hne
  · exact absurd (Option.some.inj (hf'.symm.trans hflight)) hcancelled

theorem Tracked.receive (h : s.Tracked) (n : Nat) (a : Answer) :
    LooksLike s (s.receive n a) ∨ (s.receive n a).Settled ∧ KeepsResolved s (s.receive n a) := by
  rcases receive_cases s n a with hl | ⟨j, c, -, ha⟩
  · exact .inl hl
  · exact h.advances ha

theorem Tracked.serve (h : s.Tracked) :
    LooksLike s s.serve ∨ s.serve.Settled ∧ KeepsResolved s s.serve := by
  rcases serve_cases s with hl | ⟨n, -, ha⟩
  · exact .inl hl
  · exact h.advances ha

theorem future?_giveUp (s : Session ρ) (n m : Nat) :
    (s.giveUp n).future? m = (s.future? m).map fun f => if n = m then f.cancel else f := by
  rw [future?, future?, giveUp, request?_update, Option.map_map, Option.map_map]
  congr 1
  funext r
  rw [Function.comp_apply, Function.comp_apply]
  split <;> rfl

theorem Tracked.giveUp (h : s.Tracked) (n : Nat) :
    (s.giveUp n).Tracked ∧ KeepsResolved s (s.giveUp n) := by
  refine ⟨⟨h.state, fun m hm => ?_, fun m hm => ?_⟩, fun m f hf hne => ?_⟩
  · rw [future?_giveUp] at hm
    obtain ⟨f, hf, hpending⟩ := Option.map_eq_some_iff.mp hm
    split at hpending
    · exact absurd hpending (cancel_ne_pending f)
    · exact h.pending m (hpending ▸ hf)
  · rw [future?_giveUp]
    rcases h.flight m hm with hf | hf <;> by_cases hnm : n = m <;> simp [hf, hnm, Future.cancel]
  · rw [future?_giveUp, hf, Option.map_some]
    split
    · rw [cancel_eq_self hne]
    · rfl

/-! ### Requests -/

/-- A request is in flight that has just been made, and it is pending. -/
structure Fresh (s s' : Session ρ) : Prop where
  tracked : s'.Tracked
  resolved : KeepsResolved s s'
  inflight : s'.inflight = some s.requests.length
  future : s'.future? s.requests.length = some .pending

theorem Tracked.fresh_begin (h : s.Tracked) : Fresh s s.cleared.begin where
  tracked := h.cleared.1.begin
  resolved := h.cleared.2.trans (keepsResolved_begin _)
  inflight := congrArg some (length_cleared s)
  future := length_cleared s ▸ future?_begin s.cleared

theorem Fresh.of_looksLike (h : Fresh s s') (hl : LooksLike s' s'') : Fresh s s'' where
  tracked := h.tracked.of_looksLike hl
  resolved := h.resolved.trans hl.keepsResolved
  inflight := hl.inflight.trans h.inflight
  future := (hl.future _).trans h.future

/-! ### Runs -/

/-- What can happen while a session lasts. Changed settings count for the requests that come after, and a
review is one by somebody else. -/
inductive Event (ρ : Type) where
  | edit (e : Edit)
  | review (c : CheckerSettings)
  | configure (c : Settings)
  | submitCheck
  | submitHint (goal : Option Formula)
  | cancel
  | look
  | report
  | deliver (n : Nat) (a : Answer)
  | serve
  | giveUp (n : Nat)
  | close (x : ρ)
  | shutDown (x : ρ)

/-- Work that goes on without the session being asked for anything. -/
def Event.isWork : Event ρ → Bool
  | .deliver _ _ | .serve => true
  | _ => false

def apply (s : Session ρ) : Event ρ → Session ρ
  | .edit e => (s.edit e).1
  | .review c => { s with board := (s.board.review c).2 }
  | .configure c => { s with settings := c }
  | .submitCheck => s.submitCheck.1
  | .submitHint goal => (s.queueHint goal).1
  | .cancel => s.cancel
  | .look => s.look
  | .report => s.liveReport.1
  | .deliver n a => s.receive n a
  | .serve => s.serve
  | .giveUp n => s.giveUp n
  | .close x => s.close x
  | .shutDown x => s.shutDown x

/-- The session after a run; a request that fails leaves the session that it has come to. -/
def after (s : Session ρ) (es : List (Event ρ)) : Session ρ := es.foldl apply s

/-- What a request comes to: its number, or why it fails. -/
def outcome? (s : Session ρ) : Event ρ → Option (Except (Fault ρ) Nat)
  | .submitCheck => some s.submitCheck.2
  | .submitHint goal => some (s.queueHint goal).2
  | _ => none

/-- What the last request of a run has come to. -/
def lastOutcome? (s : Session ρ) : List (Event ρ) → Option (Except (Fault ρ) Nat)
  | [] => none
  | e :: es => ((s.apply e).lastOutcome? es).or (s.outcome? e)

variable {e : Event ρ} {es : List (Event ρ)}

@[simp] theorem after_append (s : Session ρ) (es es' : List (Event ρ)) :
    s.after (es ++ es') = (s.after es).after es' := List.foldl_append

theorem lastOutcome?_concat (s : Session ρ) (es : List (Event ρ)) (e : Event ρ) :
    s.lastOutcome? (es ++ [e]) = ((s.after es).outcome? e).or (s.lastOutcome? es) := by
  induction es generalizing s with
  | nil => simp [lastOutcome?, after]
  | cons e' es ih =>
    rw [List.cons_append, lastOutcome?, ih, lastOutcome?, Option.or_assoc]
    rfl

/-! ### Prompt sessions are runs -/

/-- A session comes to another by work that goes on without it being asked for anything. -/
def WorksTo (s s' : Session ρ) : Prop :=
  ∃ es : List (Event ρ), (∀ e ∈ es, e.isWork = true) ∧ s' = s.after es

theorem WorksTo.refl (s : Session ρ) : WorksTo s s := ⟨[], by simp, rfl⟩

theorem WorksTo.trans (h : WorksTo s s') (h' : WorksTo s' s'') : WorksTo s s'' := by
  obtain ⟨es, hes, rfl⟩ := h
  obtain ⟨es', hes', rfl⟩ := h'
  refine ⟨es ++ es', fun e he => ?_, (after_append s es es').symm⟩
  exact (List.mem_append.mp he).elim (hes e) (hes' e)

theorem worksTo_receive (s : Session ρ) (n : Nat) (a : Answer) : WorksTo s (s.receive n a) :=
  ⟨[.deliver n a], by simp [Event.isWork], rfl⟩

theorem worksTo_serve (s : Session ρ) : WorksTo s s.serve :=
  ⟨[.serve], by simp [Event.isWork], rfl⟩

theorem worksTo_promptTurns (k : Nat) (s : Session ρ) : WorksTo s (promptTurns k s) := by
  induction k generalizing s with
  | zero => exact .refl s
  | succ k ih =>
    have hturn : WorksTo s s.promptTurn := by
      unfold promptTurn
      split
      · split
        · exact (worksTo_receive ..).trans (worksTo_serve _)
        · exact .refl s
      · exact worksTo_serve s
    exact hturn.trans (ih s.promptTurn)

theorem worksTo_deliver (s : Session ρ) (n : Nat) (a : Answer) : WorksTo s (s.deliver n a) :=
  (worksTo_receive s n a).trans (worksTo_promptTurns ..)

/-- A request for a hint that the worker takes up at once is a request and work. -/
theorem worksTo_submitHint (s : Session ρ) (goal : Option Formula) :
    WorksTo (s.apply (.submitHint goal)) (s.submitHint goal).1 := worksTo_promptTurns ..

theorem worksTo_finish {σ : Type} (s : Session ρ) (n : Nat)
    (solve : Query → Value → σ → Answer × σ) (st : σ) : WorksTo s (s.finish n solve st).1 := by
  have hhint : ∀ d s st, WorksTo s (finishHint n solve d s st : Session ρ × σ).1 := by
    intro d
    induction d with
    | done h => exact fun s _ => .refl s
    | fail f => exact fun s _ => .refl s
    | ask q t next ih => exact fun s st => (worksTo_deliver ..).trans (ih _ _ _)
  unfold finish
  split
  · exact .refl s
  · exact worksTo_deliver ..
  · exact hhint ..

/-! ### What every event keeps -/

/-- After an event with a request in flight, that request is new, or it was in flight before. -/
structure Follows (s s' : Session ρ) (e : Event ρ) : Prop where
  tracked : s'.Tracked
  resolved : KeepsResolved s s'
  flight : ∀ n, s'.inflight = some n →
    s'.future? n = some .pending ∧
        (s.outcome? e = some (.ok n) ∨ ∃ f, s.outcome? e = some (.error f)) ∨
      s.outcome? e = none ∧ s.inflight = some n ∧ (e = .giveUp n ∨ s'.future? n = s.future? n)

theorem Settled.follows (h : s'.Settled) (hk : KeepsResolved s s') (e : Event ρ) :
    s.Follows s' e where
  tracked := h.tracked
  resolved := hk
  flight n hn := absurd (h.inflight.symm.trans hn) (by simp)

theorem Fresh.follows (h : Fresh s s') (he : s.outcome? e = some (.ok s.requests.length) ∨
    ∃ f, s.outcome? e = some (.error f)) : s.Follows s' e where
  tracked := h.tracked
  resolved := h.resolved
  flight n hn := by
    obtain rfl := Option.some.inj (h.inflight.symm.trans hn)
    exact .inl ⟨h.future, he⟩

/-- An event that leaves what is in flight and all futures alone. -/
theorem Tracked.follows_of_same (hs' : s'.Tracked) (hinflight : s'.inflight = s.inflight)
    (hfuture : ∀ m, s'.future? m = s.future? m) (he : s.outcome? e = none) : s.Follows s' e where
  tracked := hs'
  resolved n _ hf _ := (hfuture n).trans hf
  flight n hn := .inr ⟨he, hinflight ▸ hn, .inr (hfuture n)⟩

theorem Tracked.follows_work (h : s.Tracked)
    (hs' : LooksLike s s' ∨ s'.Settled ∧ KeepsResolved s s') (he : s.outcome? e = none) :
    s.Follows s' e := by
  rcases hs' with hl | ⟨hsettled, hkeeps⟩
  · exact (h.of_looksLike hl).follows_of_same hl.inflight hl.future he
  · exact hsettled.follows hkeeps e

theorem Tracked.follows_startCheck (h : s.Tracked) {p : Prepared}
    (he : s.outcome? e = some (s.cleared.startCheck p).2) :
    s.Follows (s.cleared.startCheck p).1 e := by
  have hfresh := h.fresh_begin
  unfold startCheck at he ⊢
  simp only [length_cleared] at he ⊢
  cases p with
  | early v =>
    rcases hfresh.tracked.advances (advances_land (f := .done (.verdict v)) (by simp)
      s.requests.length (s.cleared.begin.keep s.requests.length v)) with hl | ⟨hsettled, hkeeps⟩
    · exact (hfresh.of_looksLike hl).follows (.inl he)
    · exact hsettled.follows (hfresh.resolved.trans hkeeps) e
  | job j =>
    cases hrefusal : s.cleared.refusal? with
    | some f =>
      simp only [hrefusal] at he ⊢
      exact hfresh.follows (.inr ⟨f, he⟩)
    | none =>
      simp only [hrefusal] at he ⊢
      exact (hfresh.of_looksLike (looksLike_entrust ..)).follows (.inl he)

theorem Tracked.follows_submitCheck (h : s.Tracked) : s.Follows s.submitCheck.1 .submitCheck := by
  have he : s.outcome? .submitCheck = some s.submitCheck.2 := rfl
  unfold submitCheck at he ⊢
  cases hp : s.board.prepareCheck s.settings with
  | error f => exact h.cleared.1.follows h.cleared.2 _
  | ok p =>
    simp only [hp] at he ⊢
    exact h.follows_startCheck he

theorem Tracked.follows_queueHint (h : s.Tracked) (goal : Option Formula) :
    s.Follows (s.queueHint goal).1 (.submitHint goal) := by
  have he : s.outcome? (.submitHint goal) = some (s.queueHint goal).2 := rfl
  have hfresh := h.fresh_begin
  unfold queueHint enqueue at he ⊢
  cases hj : s.board.prepareHint s.settings.checker goal with
  | error d => exact h.cleared.1.follows h.cleared.2 _
  | ok j =>
    simp only [hj, length_cleared, closed_cleared] at he ⊢
    cases hclosed : s.closed with
    | some x =>
      simp only [hclosed] at he ⊢
      exact hfresh.follows (.inr ⟨_, he⟩)
    | none =>
      simp only [hclosed] at he ⊢
      exact (hfresh.of_looksLike ((LooksLike.refl s.cleared.begin).withWorker
        (s.cleared.queue ++ [(s.requests.length, j)]) s.cleared.begin.worker)).follows (.inl he)

theorem Tracked.follows_apply (h : s.Tracked) (e : Event ρ) : s.Follows (s.apply e) e := by
  cases e with
  | edit e => exact Tracked.follows_of_same ⟨h.1, h.2, h.3⟩ rfl (fun _ => rfl) rfl
  | review c => exact Tracked.follows_of_same ⟨h.1, h.2, h.3⟩ rfl (fun _ => rfl) rfl
  | configure c => exact Tracked.follows_of_same ⟨h.1, h.2, h.3⟩ rfl (fun _ => rfl) rfl
  | submitCheck => exact h.follows_submitCheck
  | submitHint goal => exact h.follows_queueHint goal
  | cancel => exact h.cancel.1.follows h.cancel.2 _
  | look =>
    refine ⟨h.look.1, h.look.2, fun n hn => .inr ⟨rfl, ?_, .inr (future?_look hn n)⟩⟩
    have hn : s.look.inflight = some n := hn
    rw [inflight_look] at hn
    split at hn
    · exact absurd hn (by simp)
    · exact hn
  | report =>
    rw [apply, liveReport]
    split
    · exact h.follows_of_same rfl (fun _ => rfl) rfl
    · split <;> exact Tracked.follows_of_same ⟨h.1, h.2, h.3⟩ rfl (fun _ => rfl) rfl
  | deliver n a => exact h.follows_work (h.receive n a) rfl
  | serve => exact h.follows_work h.serve rfl
  | giveUp n =>
    refine ⟨(h.giveUp n).1, (h.giveUp n).2, fun m hm => .inr ⟨rfl, hm, ?_⟩⟩
    by_cases hnm : n = m
    · exact .inl (congrArg _ hnm)
    · exact .inr (future?_update_of_ne hnm)
  | close x =>
    have hcancelled := h.cancel.1
    have hclosed : (s.close x).Settled := ⟨hcancelled.1, hcancelled.2, hcancelled.3⟩
    exact hclosed.follows h.cancel.2 _
  | shutDown x => exact Tracked.follows_of_same ⟨h.1, h.2, h.3⟩ rfl (fun _ => rfl) rfl

theorem Tracked.after (h : s.Tracked) (es : List (Event ρ)) :
    (s.after es).Tracked ∧ KeepsResolved s (s.after es) := by
  induction es generalizing s with
  | nil => exact ⟨h, .refl s⟩
  | cons e es ih =>
    have he := h.follows_apply e
    exact ⟨(ih he.tracked).1, he.resolved.trans (ih he.tracked).2⟩

/-- What is in flight after a run: the last request, pending unless it was given up. -/
structure Traced (s₀ : Session ρ) (es : List (Event ρ)) (s : Session ρ) : Prop where
  tracked : s.Tracked
  last : ∀ n, s.inflight = some n →
    s₀.lastOutcome? es = some (.ok n) ∨ ∃ f, s₀.lastOutcome? es = some (.error f)
  held : ∀ n, s.inflight = some n → .giveUp n ∉ es → s.future? n = some .pending

theorem traced_after (b : Board) (c : Settings) (es : List (Event ρ)) :
    Traced (new b c) es ((new b c).after es) := by
  induction es using List.reverseRecOn with
  | nil => exact ⟨(settled_new b c).tracked, by simp [Session.after, new],
      by simp [Session.after, new]⟩
  | append_singleton es e ih =>
    obtain ⟨htracked, -, hflight⟩ := ih.tracked.follows_apply e
    rw [after_append]
    refine ⟨htracked, fun n hn => ?_, fun n hn hheld => ?_⟩
    · rw [lastOutcome?_concat]
      rcases hflight n hn with ⟨-, hok | ⟨f, hf⟩⟩ | ⟨hnone, hn, -⟩
      · exact .inl (by rw [hok]; rfl)
      · exact .inr ⟨f, by rw [hf]; rfl⟩
      · rw [hnone, Option.none_or]
        exact ih.last n hn
    · rw [List.mem_append, List.mem_singleton, not_or] at hheld
      rcases hflight n hn with ⟨hpending, -⟩ | ⟨-, hn, hgiven | hsame⟩
      · exact hpending
      · exact absurd hgiven.symm hheld.2
      · exact hsame.trans (ih.held n hn hheld.1)

/-! ### Requests that fail -/

theorem lt_length_of_task? {w : Work} (h : s.task? n = some w) : n < s.requests.length := by
  obtain ⟨r, hr, -⟩ := Option.bind_eq_some_iff.mp h
  exact (List.getElem?_eq_some_iff.mp hr).1

@[simp] theorem hints_begin (s : Session ρ) : s.begin.hints = s.hints := rfl

@[simp] theorem length_begin (s : Session ρ) :
    s.begin.requests.length = s.requests.length + 1 := by
  simp [Session.begin]

/-- The worker has to do with requests that have been made. -/
def Staffed (s : Session ρ) : Prop := ∀ n ∈ s.hints, n < s.requests.length

theorem Staffed.of_frame (h : s.Staffed) (hframe : Frame s s')
    (hhints : ∀ n ∈ s'.hints, n ∈ s.hints ∨ n < s.requests.length) : s'.Staffed := fun n hn => by
  rw [hframe.length]
  exact (hhints n hn).elim (h n) id

theorem Staffed.cleared (h : s.Staffed) : s.cleared.Staffed := fun n hn => by
  rw [length_cleared]
  exact h n (hints_cleared s ▸ hn)

theorem Staffed.begin (h : s.Staffed) : s.begin.Staffed := fun n hn => by
  rw [length_begin]
  exact Nat.lt_succ_of_lt (h n hn)

theorem Staffed.startCheck (h : s.Staffed) (p : Prepared) : (s.startCheck p).1.Staffed := by
  unfold Session.startCheck
  cases p with
  | early v => exact h.begin.of_frame (frame_land ..) fun n hn => .inl (hints_land _ _ _ _ ▸ hn)
  | job j =>
    cases s.refusal? with
    | some f => exact h.begin
    | none => exact h.begin.of_frame (frame_entrust s.begin s.requests.length _) fun n hn => .inl hn

theorem Staffed.enqueue (h : s.Staffed) (j : HintJob) : (s.enqueue j).1.Staffed := by
  unfold Session.enqueue
  cases s.closed with
  | some x => exact h.begin
  | none =>
    intro n hn
    change n < s.begin.requests.length
    have hn : n ∈ s.hints ++ [s.requests.length] := by
      simpa [hints, Session.begin, List.append_assoc] using hn
    rcases List.mem_append.mp hn with hn | hn
    · exact h.begin n hn
    · rw [length_begin, List.mem_singleton.mp hn]
      exact Nat.lt_succ_self _

theorem Staffed.apply (h : s.Staffed) (e : Event ρ) : (s.apply e).Staffed := by
  cases e with
  | edit e => exact h
  | review c => exact h
  | configure c => exact h
  | submitCheck =>
    rw [Session.apply, submitCheck]
    split
    · exact h.cleared
    · exact h.cleared.startCheck _
  | submitHint goal =>
    rw [Session.apply, queueHint]
    split
    · exact h.cleared
    · exact h.cleared.enqueue _
  | cancel => exact h.of_frame (frame_cancel s) fun n hn => .inl (hints_cancel s ▸ hn)
  | look => exact h.of_frame (frame_look s) fun n hn => .inl (hints_look s ▸ hn)
  | report =>
    rw [Session.apply, liveReport]
    split
    · exact h
    · split <;> exact h
  | deliver n a =>
    refine h.of_frame (frame_receive s n a) fun m hm => (mem_hints_receive hm).imp_right ?_
    rintro ⟨rfl, w, hw⟩
    exact lt_length_of_task? hw
  | serve => exact h.of_frame (frame_serve s) fun n hn => .inl (mem_hints_serve hn)
  | giveUp n =>
    exact h.of_frame (frame_giveUp s n) fun m hm => .inl hm
  | close x =>
    have hcancelled : s.cancel.Staffed :=
      h.of_frame (frame_cancel s) fun n hn => .inl (hints_cancel s ▸ hn)
    exact hcancelled
  | shutDown x => exact h

theorem staffed_after (b : Board) (c : Settings) (es : List (Event ρ)) :
    ((new b c : Session ρ).after es).Staffed := by
  induction es using List.reverseRecOn with
  | nil => exact fun n hn => absurd hn (by simp [Session.after, new, hints])
  | append_singleton es e ih =>
    rw [after_append]
    exact ih.apply e

/-- The only request that may settle the session, if any, is one that nobody works on. -/
def Stuck (s : Session ρ) : Prop := ∀ n, s.mayClaim n = true → s.task? n = none ∧ n ∉ s.hints

theorem Stuck.receive (h : s.Stuck) (n : Nat) (a : Answer) :
    LooksLike s (s.receive n a) ∧ (s.receive n a).Stuck := by
  have hl : LooksLike s (s.receive n a) := by
    rcases receive_cases s n a with hl | ⟨j, c, htask, ha⟩
    · exact hl
    · exact ha.looksLike fun hclaim => by simp [(h n hclaim).1] at htask
  refine ⟨hl, fun m hm => ?_⟩
  obtain ⟨htask, hhints⟩ := h m ((hl.mayClaim_iff m).mp hm)
  refine ⟨by rw [task?_receive, htask, ite_self], fun hmem => ?_⟩
  rcases mem_hints_receive hmem with hmem | ⟨rfl, w, hw⟩
  · exact hhints hmem
  · simp [htask] at hw

theorem Stuck.serve (h : s.Stuck) : LooksLike s s.serve ∧ s.serve.Stuck := by
  have hl : LooksLike s s.serve := by
    rcases serve_cases s with hl | ⟨n, hn, ha⟩
    · exact hl
    · exact ha.looksLike fun hclaim => (h n hclaim).2 (List.mem_of_head? hn)
  refine ⟨hl, fun m hm => ?_⟩
  obtain ⟨htask, hhints⟩ := h m ((hl.mayClaim_iff m).mp hm)
  refine ⟨Option.eq_none_iff_forall_ne_some.mpr fun w hw => ?_, fun hmem =>
    hhints (mem_hints_serve hmem)⟩
  rcases task?_serve hw with hw | ⟨hmem, -⟩
  · simp [htask] at hw
  · exact hhints hmem

/-- Nothing can be seen of the work that goes on in a session that is stuck. -/
theorem Stuck.looksLike (h : s.Stuck) (hs' : WorksTo s s') : LooksLike s s' := by
  obtain ⟨es, hes, rfl⟩ := hs'
  induction es generalizing s with
  | nil => exact .refl s
  | cons e es ih =>
    have he : LooksLike s (s.apply e) ∧ (s.apply e).Stuck := by
      cases e with
      | deliver n a => exact h.receive n a
      | serve => exact h.serve
      | _ => exact absurd (hes _ List.mem_cons_self) (by simp [Event.isWork])
    exact he.1.trans (ih he.2 fun e' he' => hes e' (List.mem_cons_of_mem _ he'))

/-- A request is in flight, and whatever the solver answers and the worker does, it stays there. -/
def Abandoned (s : Session ρ) : Prop :=
  ∃ n, s.inflight = some n ∧ s.state = .checking ∧ s.future? n = some .pending ∧
    ∀ s', WorksTo s s' → LooksLike s s'

theorem Tracked.abandoned_begin (h : s.Tracked) (hstaffed : s.Staffed) :
    s.cleared.begin.Abandoned := by
  have hfresh := h.fresh_begin
  refine ⟨_, hfresh.inflight, hfresh.tracked.checking_iff.mpr ⟨_, hfresh.inflight⟩, hfresh.future,
    fun s' hs' => Stuck.looksLike (fun n hn => ?_) hs'⟩
  obtain rfl := Option.some.inj (hfresh.inflight.symm.trans ((mayClaim_iff _ n).mp hn).1)
  refine ⟨Option.eq_none_iff_forall_ne_some.mpr fun w hw => ?_, fun hmem => ?_⟩
  · rw [task?_begin, task?_cleared] at hw
    exact Nat.lt_irrefl _ (lt_length_of_task? hw)
  · rw [hints_begin, hints_cleared] at hmem
    exact Nat.lt_irrefl _ (hstaffed _ hmem)

theorem refusal?_eq_some_iff {f : Fault ρ} : s.refusal? = some f ↔
    (∃ e, judgeTimeout s.settings.solver.checkTimeout = .error e ∧ f = e.weaken) ∨
      judgeTimeout s.settings.solver.checkTimeout = .ok () ∧ ∃ x, s.stopped = some x ∧
        f = .shutDown x := by
  unfold refusal?
  cases judgeTimeout s.settings.solver.checkTimeout with
  | error e => simp [eq_comm]
  | ok u => simp [eq_comm]

/-- A request that fails leaves the session settled, also once the state is read, unless it has got
as far as the solver, which refuses its time limit or has been shut down, or as far as the worker, whose
pool has been closed; then it stays in flight, and nothing makes an end of it that the solver answers
or the worker does. -/
theorem settled_or_abandoned (b : Board) (c : Settings) (es : List (Event ρ)) (s' : Session ρ)
    (f : Fault ρ) :
    let s := (new b c).after es
    (∀ goal, s.queueHint goal = (s', .error f) →
      (∃ d, s.board.prepareHint s.settings.checker goal = .error d ∧ f = .defect d) ∧
          s'.Settled ∧ s'.look.Settled ∨
        (∃ j, s.board.prepareHint s.settings.checker goal = .ok j) ∧
          (∃ x, s.closed = some x ∧ f = .shutDown x) ∧ s'.Abandoned) ∧
    (s.submitCheck = (s', .error f) →
      (∃ e, s.board.prepareCheck s.settings = .error e ∧ f = e.weaken) ∧
          s'.Settled ∧ s'.look.Settled ∨
        (∃ j, s.board.prepareCheck s.settings = .ok (.job j)) ∧
          ((∃ e, judgeTimeout s.settings.solver.checkTimeout = .error e ∧ f = e.weaken) ∨
            judgeTimeout s.settings.solver.checkTimeout = .ok () ∧
              ∃ x, s.stopped = some x ∧ f = .shutDown x) ∧ s'.Abandoned) := by
  intro s
  have htracked : s.Tracked := (traced_after b c es).tracked
  have hsettled : s.cleared.Settled ∧ s.cleared.look.Settled :=
    ⟨htracked.cleared.1, htracked.cleared.1.look⟩
  have habandoned := htracked.abandoned_begin (staffed_after b c es)
  refine ⟨fun goal hs' => ?_, fun hs' => ?_⟩
  · unfold queueHint enqueue at hs'
    split at hs'
    · next d hd =>
      obtain ⟨rfl, hf⟩ := Prod.mk.inj hs'
      exact .inl ⟨⟨d, hd, (Except.error.inj hf).symm⟩, hsettled⟩
    · next j hj =>
      split at hs'
      · next x hx =>
        obtain ⟨rfl, hf⟩ := Prod.mk.inj hs'
        exact .inr ⟨⟨j, hj⟩, ⟨x, closed_cleared s ▸ hx, (Except.error.inj hf).symm⟩, habandoned⟩
      · exact absurd (congrArg Prod.snd hs') (by simp)
  · unfold submitCheck startCheck at hs'
    split at hs'
    · next e he =>
      obtain ⟨rfl, hf⟩ := Prod.mk.inj hs'
      exact .inl ⟨⟨e, he, (Except.error.inj hf).symm⟩, hsettled⟩
    · next p hp =>
      cases p with
      | early v => exact absurd (congrArg Prod.snd hs') (by simp)
      | job j =>
        simp only at hs'
        split at hs'
        · next f' hf' =>
          obtain ⟨rfl, hf⟩ := Prod.mk.inj hs'
          obtain rfl := Except.error.inj hf
          rw [refusal?_eq_some_iff, settings_cleared, stopped_cleared] at hf'
          exact .inr ⟨⟨j, hp⟩, hf', habandoned⟩
        · exact absurd (congrArg Prod.snd hs') (by simp)

/-- The edit that puts a piece on the board. -/
def placing (kind : String) (cell : Int × Int) (ps : List (String × ParamValue)) : Event Unit :=
  .edit (.add (.text kind) (some (.cell cell)) ps)

/-- A hint that waits for the solver, and then a proof with two uses of one symbol. -/
def clashing : List (Event Unit) :=
  [.submitHint (some (.atom "Q" [])), .serve,
    placing "assumption" (0, 0) [("formula", .formula (some (.atom "P" [])))],
    placing "assumption" (1, 0) [("formula", .formula (some (.atom "P" ["a"])))],
    placing "and_intro" (0, 1) [], placing "goal" (0, 2) [], .edit (.wire 3 0 1),
    .edit (.wire 3 1 2), .edit (.wire 4 0 3)]

theorem settled_of_clashing :
    let s := (new (.empty (some (.conj (.atom "P" []) (.atom "P" ["a"]))) none none Palette.full)
      .standard).after clashing
    s.future? 0 = some .pending ∧
      ∃ s' c, s.submitCheck = (s', .error (.query (.clash c (some 2)))) ∧ s'.Settled ∧
        s'.future? 0 = some .cancelled := by
  intro s
  have hseen : (s.future? 0, s.submitCheck.2, s.submitCheck.1.future? 0) =
      (some .pending, .error (.query (.clash ⟨"P", .predicate 0, .predicate 1⟩ (some 2))),
        some .cancelled) := by
    decide_cbv
  simp only [Prod.mk.injEq] at hseen
  obtain ⟨hpending, hfault, hcancelled⟩ := hseen
  refine ⟨hpending, s.submitCheck.1, _, Prod.ext rfl hfault, ?_, hcancelled⟩
  rcases (settled_or_abandoned _ _ _ _ _).2 (Prod.ext rfl hfault) with
    ⟨-, hsettled, -⟩ | ⟨-, ⟨e, hlimit, -⟩ | ⟨-, x, hstopped, -⟩, -⟩
  · exact hsettled
  · exact absurd hlimit (by decide_cbv)
  · exact absurd hstopped (by decide_cbv)

/-- An assumption wired into the goal. -/
def direct : List (Event Unit) :=
  [placing "assumption" (0, 0) [("formula", .formula (some (.atom "P" [])))],
    placing "goal" (0, 1) [], .edit (.wire 2 0 1)]

/-- The solver refuses to spend no time on a query. -/
def hasty : Settings :=
  { Settings.standard with solver := { SolverSettings.standard with checkTimeout := .int 0 } }

/-- The request of a check without time, of a check once the solver has been shut down, and of a hint
once the session has been closed. -/
theorem abandoned_of_hasty :
    let start (c : Settings) (es : List (Event Unit)) :=
      (new (.empty (some (.atom "P" [])) none none Palette.full) c).after (direct ++ es)
    (∃ s', (start hasty []).submitCheck = (s', .error .timeoutNotPositive) ∧ ¬ s'.Settled ∧
      s'.look.state = .checking ∧ s'.look.future? 0 = some .pending) ∧
    (∃ s', (start .standard [.shutDown ()]).submitCheck = (s', .error (.shutDown ())) ∧
      ¬ s'.Settled ∧ s'.look.state = .checking ∧ s'.look.future? 0 = some .pending) ∧
    ∃ s', (start .standard [.close ()]).queueHint none = (s', .error (.shutDown ())) ∧
      ¬ s'.Settled ∧ s'.look.state = .checking ∧ s'.look.future? 0 = some .pending := by
  have hunsettled : ∀ (x : Session Unit × Except (Fault Unit) Nat) (f : Fault Unit),
      (x.2, x.1.inflight, x.1.look.state, x.1.look.future? 0) =
        (.error f, some 0, .checking, some .pending) →
      ∃ s', x = (s', .error f) ∧ ¬ s'.Settled ∧ s'.look.state = .checking ∧
        s'.look.future? 0 = some .pending := by
    intro x f hseen
    simp only [Prod.mk.injEq] at hseen
    obtain ⟨hfault, hinflight, hlook⟩ := hseen
    refine ⟨x.1, Prod.ext rfl hfault, fun hsettled => ?_, hlook⟩
    exact absurd (hinflight.symm.trans hsettled.inflight) (by simp)
  exact ⟨hunsettled _ _ (by decide_cbv), hunsettled _ _ (by decide_cbv),
    hunsettled _ _ (by decide_cbv)⟩

/-! ### Futures that are given up -/

theorem isStale_giveUp (s : Session ρ) (n : Nat) : (s.giveUp n).isStale = s.isStale := by
  rw [isStale, isStale, show (s.giveUp n).inflight = s.inflight from rfl,
    show (s.giveUp n).board = s.board from rfl]
  cases s.inflight with
  | none => rfl
  | some m =>
    rw [Option.bind_some, Option.bind_some, giveUp, request?_update, Option.any_map]
    congr 1
    funext q
    split <;> rfl

theorem Tracked.future?_giveUp (h : s.Tracked) (hn : s.inflight = some n) :
    (s.giveUp n).future? n = some .cancelled := by
  rw [Session.future?_giveUp]
  rcases h.flight n hn with hf | hf <;> simp [hf, Future.cancel]

/-- Once its future has been given up, nobody may settle the session. -/
theorem Tracked.stuck_giveUp (h : s.Tracked) (hn : s.inflight = some n) : (s.giveUp n).Stuck := by
  intro m hm
  obtain ⟨hinflight, f, hf, hne⟩ := (mayClaim_iff _ m).mp hm
  obtain rfl : n = m := Option.some.inj (hn.symm.trans hinflight)
  exact absurd (Option.some.inj (hf.symm.trans (h.future?_giveUp hn))) hne

/-- A session reads `checking` only after a request. Where the last request did not fail and its
future was not given up, it reads `checking` exactly as long as that future is pending. Once the
future in flight is given up, nothing makes an end of `checking` that the solver answers or the worker
does. -/
theorem checking_iff_pending (b : Board) (c : Settings) (es : List (Event ρ)) :
    (((new b c).after es).look.state = .checking → ∃ o, (new b c).lastOutcome? es = some o) ∧
    (∀ n, (new b c).lastOutcome? es = some (.ok n) → .giveUp n ∉ es →
      (((new b c).after es).look.state = .checking ↔
        ((new b c).after es).look.future? n = some .pending)) ∧
    (∀ n, ((new b c).after es).look.inflight = some n →
      ∀ s', WorksTo (((new b c).after es).look.giveUp n) s' →
        s'.look.state = .checking ∧ s'.look.future? n = some .cancelled) := by
  -- a look at the state is one more event of the run
  have htraced := traced_after b c (es ++ [.look])
  have hlast : (new b c).lastOutcome? (es ++ [.look]) = (new b c).lastOutcome? es := by
    rw [lastOutcome?_concat]
    rfl
  obtain ⟨htracked, hreturned, hheld⟩ := htraced
  rw [hlast] at hreturned
  rw [after_append] at htracked hreturned hheld
  change ((new b c).after es).look.Tracked at htracked
  refine ⟨fun hchecking => ?_, fun n hn hgiven => ?_, fun n hn s' hs' => ?_⟩
  · obtain ⟨n, hn⟩ := htracked.checking_iff.mp hchecking
    rcases hreturned n hn with hok | ⟨f, hf⟩
    · exact ⟨_, hok⟩
    · exact ⟨_, hf⟩
  · refine ⟨fun hchecking => ?_, fun hpending => ?_⟩
    · obtain ⟨m, hm⟩ := htracked.checking_iff.mp hchecking
      rcases hreturned m hm with hok | ⟨f, hf⟩
      · obtain rfl : n = m := by simpa using hn.symm.trans hok
        exact hheld n hm (by simpa using hgiven)
      · exact absurd (hn.symm.trans hf) (by simp)
    · exact htracked.checking_iff.mpr ⟨n, htracked.pending n hpending⟩
  · have hlooks := (htracked.stuck_giveUp hn).looksLike hs'
    have hafter := (htracked.giveUp n).1.of_looksLike hlooks
    have hinflight : s'.look.inflight = some n := by
      rw [inflight_look, hlooks.isStale, isStale_giveUp, isStale_look, if_neg Bool.false_ne_true,
        hlooks.inflight]
      exact hn
    refine ⟨hafter.look.1.checking_iff.mpr ⟨n, hinflight⟩, ?_⟩
    rw [future?_look hinflight, hlooks.future]
    exact htracked.future?_giveUp hn

theorem checking_of_direct :
    let start := new (.empty (some (.atom "P" [])) none none Palette.full) .standard
    let es := direct ++ [.submitCheck]
    start.lastOutcome? es = some (.ok 0) ∧ .giveUp 0 ∉ es ∧
      (start.after es).look.state = .checking ∧
      (start.after es).look.future? 0 = some .pending ∧
      (((start.after es).look.giveUp 0).deliver 0 (.plain "z3" .unknown "")).look.state =
        .checking := by
  intro start es
  have hseen : (start.lastOutcome? es, (start.after es).look.inflight,
      (start.after es).look.future? 0) = (some (.ok 0), some 0, some .pending) := by
    decide_cbv
  simp only [Prod.mk.injEq] at hseen
  obtain ⟨hlast, hinflight, hpending⟩ := hseen
  have hheld : .giveUp 0 ∉ es := by simp [es, direct, placing]
  obtain ⟨-, hiff, hgiven⟩ := checking_iff_pending
    (.empty (some (.atom "P" [])) none none Palette.full) .standard es
  exact ⟨hlast, hheld, (hiff 0 hlast hheld).mpr hpending, hpending,
    (hgiven 0 hinflight _ (worksTo_deliver ..)).1⟩

/-- A session reads `checking` although its last request was given up and has been answered, and
although its last request was refused and the one before is done. -/
theorem checking_without_pending :
    let start := new (.empty (some (.atom "P" [])) none none Palette.full) .standard
    (∃ s, start.after
        (direct ++ [.submitCheck, .giveUp 0, .deliver 0 (.plain "z3" .unknown "")]) = s ∧
        s.look.state = .checking ∧ s.look.future? 0 = some .cancelled) ∧
      ∃ s, start.after (direct ++ [.submitHint none, .serve, .configure hasty, .submitCheck]) = s ∧
        s.look.state = .checking ∧
        s.look.future? 0 = some (.done (.hint Hint.complete)) := by
  intro start
  refine ⟨⟨_, rfl, Prod.mk.inj ?_⟩, ⟨_, rfl, Prod.mk.inj ?_⟩⟩
  · decide_cbv
  · decide_cbv

end Session

end DeductionBoard
