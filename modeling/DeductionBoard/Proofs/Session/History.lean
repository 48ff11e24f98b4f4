import DeductionBoard.Proofs.Derivation.History
import DeductionBoard.Proofs.Session.Requests

/-! Sessions over a whole run. The solver may answer late and for any request, and a hint that has been
superseded may keep the worker from the one in flight. A check that a run has submitted waits for its
first answer. What every event keeps: the checks that are at the solver, and the verdict, come from
checks of the run. Main result: a verdict that is read is about the revision of the board and comes
from a check that was submitted at that revision; an answer to a request that is no longer in flight,
and what the worker does for it, change nothing; and the state that is read tells whether a request is
in flight. -/

namespace DeductionBoard

open Solver

/-- What a check comes to with an answer, if there is one. -/
def Prepared.outcome? (c : EncoderSettings) (a : Option Answer) : Prepared → Option Verdict
  | .early v => some v
  | .job j => a.map (j.verdict c)

/-- A check comes to a verdict on the revision that it was prepared for. -/
theorem revision_of_outcome? {b : Board} {c : Settings} {p : Prepared} {a : Option Answer}
    {v : Verdict} (hp : b.prepareCheck c = .ok p) (hv : p.outcome? c.encoder a = some v) :
    v.revision = b.revision := by
  unfold Board.prepareCheck at hp
  split at hp
  · exact absurd hp (by simp)
  next r hr =>
  rw [← Board.revision_of_review hr]
  split at hp
  · exact absurd hp (by simp)
  next p' hp' =>
  obtain rfl := Except.ok.inj hp
  unfold Board.prepareFrom at hp'
  split at hp'
  · split at hp'
    · exact absurd hp' (by simp)
    · obtain rfl := Except.ok.inj hp'
      obtain ⟨a, -, rfl⟩ := Option.map_eq_some_iff.mp hv
      rfl
  · obtain rfl := Except.ok.inj hp'
    rw [← Option.some.inj hv]

namespace Session

variable {ρ : Type} {s₀ s s' : Session ρ} {m n r : Nat} {c : Settings} {j : CheckJob} {k : Kept}
  {e : Event ρ} {es later : List (Event ρ)} {v : Verdict} {p : Prepared} {a : Answer}

/-! ### Where verdicts come from -/

/-- The first answer to a request. -/
def answer? (n : Nat) (es : List (Event ρ)) : Option Answer :=
  es.findSome? fun e => match e with
    | .deliver m a => if m = n then some a else none
    | _ => none

/-- A run has submitted a check as request `n`, at a revision and under some settings, with what was
prepared for it and the events that came after it. -/
def Submitted (s₀ : Session ρ) (es : List (Event ρ)) (n revision : Nat) (c : Settings)
    (p : Prepared) (later : List (Event ρ)) : Prop :=
  ∃ before, es = before ++ .submitCheck :: later ∧ (s₀.after before).submitCheck.2 = .ok n ∧
    (s₀.after before).board.revision = revision ∧ (s₀.after before).settings = c ∧
    (s₀.after before).board.prepareCheck c = .ok p

/-- A verdict is what some check has come to that the run has submitted at the revision: at once, or with
the first answer to its own query. -/
def Judged (s₀ : Session ρ) (es : List (Event ρ)) (v : Verdict) (revision : Nat) : Prop :=
  ∃ n c p later, Submitted s₀ es n revision c p later ∧
    p.outcome? c.encoder (answer? n later) = some v

/-- A check of the run that has no answer yet. -/
def Outstanding (s₀ : Session ρ) (es : List (Event ρ)) (n revision : Nat) (c : Settings)
    (j : CheckJob) : Prop :=
  ∃ later, Submitted s₀ es n revision c (.job j) later ∧ answer? n later = none

/-- What every event keeps. -/
structure Recorded (s₀ : Session ρ) (es : List (Event ρ)) (s : Session ρ) : Prop where
  work : ∀ n q j c, s.request? n = some q → q.work = some (.check j c) →
    Outstanding s₀ es n q.revision c j
  kept : ∀ k, s.kept = some k → Judged s₀ es k.verdict k.revision

theorem answer?_append (n : Nat) (es es' : List (Event ρ)) :
    answer? n (es ++ es') = (answer? n es).or (answer? n es') := List.findSome?_append

theorem Submitted.append (h : Submitted s₀ es n r c p later) (es' : List (Event ρ)) :
    Submitted s₀ (es ++ es') n r c p (later ++ es') := by
  obtain ⟨before, rfl, hrest⟩ := h
  exact ⟨before, by simp, hrest⟩

theorem Judged.append (h : Judged s₀ es v r) (es' : List (Event ρ)) :
    Judged s₀ (es ++ es') v r := by
  obtain ⟨n, c, p, later, hp, hv⟩ := h
  refine ⟨n, c, p, later ++ es', hp.append es', ?_⟩
  cases p with
  | early w => exact hv
  | job j =>
    obtain ⟨a, ha, hv⟩ := Option.map_eq_some_iff.mp hv
    rw [answer?_append, ha, Option.some_or, Prepared.outcome?, Option.map_some, hv]

/-- A check stays outstanding over an event that does not answer it. -/
theorem Outstanding.concat (h : Outstanding s₀ es n r c j) (he : answer? n [e] = none) :
    Outstanding s₀ (es ++ [e]) n r c j := by
  obtain ⟨later, hp, ha⟩ := h
  exact ⟨later ++ [e], hp.append [e], by rw [answer?_append, ha, he]; rfl⟩

/-- An answer to an outstanding check makes its verdict one of the run. -/
theorem Outstanding.judged (h : Outstanding s₀ es n r c j) (a : Answer) :
    Judged s₀ (es ++ [.deliver n a]) (j.verdict c.encoder a) r := by
  obtain ⟨later, hp, ha⟩ := h
  refine ⟨n, c, .job j, later ++ [.deliver n a], hp.append _, ?_⟩
  have hanswer : answer? n [(.deliver n a : Event ρ)] = some a := by simp [answer?]
  rw [answer?_append, ha, hanswer]
  rfl

theorem Judged.revision_eq (h : Judged s₀ es v r) : v.revision = r := by
  obtain ⟨n, c, p, later, ⟨before, -, -, rfl, rfl, hp⟩, hv⟩ := h
  exact revision_of_outcome? hp hv

/-! ### From one event to the next -/

/-- A request whose work is a check, seen from a session that it has come from. -/
theorem exists_request?_of_task? (hframe : Frame s s') {q : Request ρ} {w : Work}
    (hq : s'.request? n = some q) (hw : s.task? n = some w) :
    ∃ q', s.request? n = some q' ∧ q'.work = some w ∧ q'.revision = q.revision := by
  obtain ⟨q', hq', hw⟩ := Option.bind_eq_some_iff.mp hw
  have hrevision := hframe.revision n
  rw [hq, hq', Option.map_some, Option.map_some, Option.some.injEq] at hrevision
  exact ⟨q', hq', hw, hrevision.symm⟩

theorem task?_of_work {q : Request ρ} {w : Work} (hq : s.request? n = some q)
    (hw : q.work = some w) : s.task? n = some w := by
  rw [task?, hq, Option.bind_some, hw]

/-- An event after which no check is at the solver, and no verdict there, that were not before. -/
theorem Recorded.of_frame (h : Recorded s₀ es s) (hframe : Frame s s')
    (hwork : ∀ n j c, s'.task? n = some (.check j c) → s.task? n = some (.check j c))
    (hkept : ∀ k, s'.kept = some k → s.kept = some k) : Recorded s₀ es s' where
  work n q j c hq hw := by
    obtain ⟨q', hq', hw', hrevision⟩ :=
      exists_request?_of_task? hframe hq (hwork n j c (task?_of_work hq hw))
    exact hrevision ▸ h.work n q' j c hq' hw'
  kept k hk := h.kept k (hkept k hk)

theorem Recorded.concat (h : Recorded s₀ es s) (he : ∀ n, answer? n [e] = none) :
    Recorded s₀ (es ++ [e]) s where
  work n q j c hq hw := (h.work n q j c hq hw).concat (he n)
  kept k hk := (h.kept k hk).append [e]

theorem Recorded.cleared (h : Recorded s₀ es s) : Recorded s₀ es s.cleared := by
  have hcancel : Recorded s₀ es s.look.cancel :=
    h.of_frame ((frame_look s).trans (frame_cancel _)) (fun n j c hw => by simpa using hw)
      fun k hk => kept_of_kept_look (by simpa using hk)
  exact ⟨hcancel.work, hcancel.kept⟩

theorem Recorded.begin (h : Recorded s₀ es s) : Recorded s₀ es s.begin where
  work n q j c hq hw := by
    rw [request?_begin] at hq
    split at hq
    · obtain rfl := Option.some.inj hq
      exact absurd hw (by simp)
    · exact h.work n q j c hq hw
  kept := h.kept

theorem kept_land (s : Session ρ) (n : Nat) (f : Future ρ) (kept : Option Kept) :
    (s.land n f kept).kept = s.kept ∨ (s.land n f kept).kept = kept := by
  rcases land_cases s n f kept with ⟨-, hl⟩ | ⟨-, -, hk⟩
  · exact .inl hl.kept
  · exact .inr hk

theorem Recorded.land (h : Recorded s₀ es s) (n : Nat) (f : Future ρ) {kept : Option Kept}
    (hkept : ∀ k, kept = some k → Judged s₀ es k.verdict k.revision) :
    Recorded s₀ es (s.land n f kept) where
  work m q j c hq hw := by
    have htask := task?_of_work hq hw
    rw [task?_land] at htask
    split at htask
    · exact absurd htask (by simp)
    · obtain ⟨q', hq', hw', hrevision⟩ := exists_request?_of_task? (frame_land ..) hq htask
      exact hrevision ▸ h.work m q' j c hq' hw'
  kept k hk := by
    rcases kept_land s n f kept with hsame | hsame
    · exact h.kept k (hsame ▸ hk)
    · exact hkept k (hsame ▸ hk)

theorem kept_serve (s : Session ρ) : s.serve.kept = s.kept := by
  rcases serve_cases s with hl | ⟨n, -, hl | ⟨f, -, -, -, hk⟩⟩
  · exact hl.kept
  · exact hl.kept
  · exact hk

theorem Recorded.receive (h : Recorded s₀ es s) (n : Nat) (a : Answer) :
    Recorded s₀ (es ++ [.deliver n a]) (s.receive n a) where
  work m q j c hq hw := by
    have htask := task?_of_work hq hw
    rw [task?_receive] at htask
    split at htask
    · exact absurd htask (by simp)
    · next hnm =>
      obtain ⟨q', hq', hw', hrevision⟩ := exists_request?_of_task? (frame_receive s n a) hq htask
      exact hrevision ▸ (h.work m q' j c hq' hw').concat (by simp [answer?, hnm])
  kept k hk := by
    rcases receive_cases s n a with hl | ⟨j, c, htask, hl | ⟨f, -, -, -, hkept⟩⟩
    · exact (h.kept k (hl.kept ▸ hk)).append _
    · exact (h.kept k (hl.kept ▸ hk)).append _
    · obtain ⟨q, hq, rfl⟩ := Option.map_eq_some_iff.mp (hkept.symm.trans hk)
      obtain ⟨q', hq', hw'⟩ := Option.bind_eq_some_iff.mp htask
      obtain rfl := Option.some.inj (hq.symm.trans hq')
      exact (h.work n q j c hq hw').judged a

theorem Recorded.submitCheck (h : Recorded s₀ es s) (hs : s = s₀.after es) :
    Recorded s₀ (es ++ [.submitCheck]) s.submitCheck.1 := by
  have hsubmitted : ∀ p, s.board.prepareCheck s.settings = .ok p →
      s.submitCheck.2 = .ok s.requests.length → Submitted s₀ (es ++ [.submitCheck])
        s.requests.length s.board.revision s.settings p [] :=
    fun p hp hok => ⟨es, rfl, by rw [← hs, hok], by rw [← hs], by rw [← hs], by rw [← hs, hp]⟩
  have hbegin := (h.concat (e := .submitCheck) fun _ => rfl).cleared.begin
  unfold Session.submitCheck startCheck at hsubmitted ⊢
  cases hp : s.board.prepareCheck s.settings with
  | error f => exact (h.concat fun _ => rfl).cleared
  | ok p =>
    simp only [hp, length_cleared] at hsubmitted ⊢
    cases p with
    | early v =>
      refine hbegin.land _ _ fun k hk => ?_
      obtain ⟨q, hq, rfl⟩ := Option.map_eq_some_iff.mp hk
      rw [request?_begin, length_cleared, if_pos rfl, Option.some.injEq] at hq
      rw [← hq]
      exact ⟨_, _, .early v, [], revision_cleared s ▸ hsubmitted (.early v) rfl rfl, rfl⟩
    | job j =>
      cases hrefusal : s.cleared.refusal? with
      | some f => exact hbegin
      | none =>
        simp only [hrefusal, settings_cleared] at hsubmitted ⊢
        refine ⟨fun n q j' c hq hw => ?_, hbegin.kept⟩
        rcases task?_entrust (task?_of_work hq hw) with htask | ⟨rfl, heq⟩
        · obtain ⟨q', hq', hw', hrevision⟩ :=
            exists_request?_of_task? (frame_entrust ..) hq htask
          exact hrevision ▸ hbegin.work n q' j' c hq' hw'
        · obtain ⟨rfl, rfl⟩ := Work.check.inj heq
          have hrevision := (frame_entrust s.cleared.begin s.requests.length
            (.check j' s.settings)).revision s.requests.length
          rw [hq, request?_begin, length_cleared, if_pos rfl] at hrevision
          have hrevision : q.revision = s.board.revision := by simpa using hrevision
          rw [hrevision]
          exact ⟨[], hsubmitted (.job j') rfl trivial, rfl⟩

theorem Recorded.queueHint (h : Recorded s₀ es s) (goal : Option Formula) :
    Recorded s₀ es (s.queueHint goal).1 := by
  unfold Session.queueHint enqueue
  split
  · exact h.cleared
  · have hbegin := h.cleared.begin
    cases s.cleared.closed with
    | some x => exact hbegin
    | none => exact ⟨hbegin.work, hbegin.kept⟩

theorem Recorded.liveReport (h : Recorded s₀ es s) : Recorded s₀ es s.liveReport.1 := by
  unfold Session.liveReport
  split
  · exact h
  · split <;> exact ⟨h.work, h.kept⟩

theorem Recorded.apply (h : Recorded s₀ es s) (hs : s = s₀.after es) (e : Event ρ) :
    Recorded s₀ (es ++ [e]) (s.apply e) := by
  cases e with
  | deliver n a => exact h.receive n a
  | submitCheck => exact h.submitCheck hs
  | edit e => exact ⟨(h.concat fun _ => rfl).work, (h.concat fun _ => rfl).kept⟩
  | review c => exact ⟨(h.concat fun _ => rfl).work, (h.concat fun _ => rfl).kept⟩
  | configure c => exact ⟨(h.concat fun _ => rfl).work, (h.concat fun _ => rfl).kept⟩
  | shutDown x => exact ⟨(h.concat fun _ => rfl).work, (h.concat fun _ => rfl).kept⟩
  | submitHint goal => exact (h.concat fun _ => rfl).queueHint goal
  | report => exact (h.concat fun _ => rfl).liveReport
  | cancel =>
    exact (h.concat fun _ => rfl).of_frame (frame_cancel s) (fun n _ _ hw => task?_cancel s n ▸ hw)
      fun k hk => kept_cancel s ▸ hk
  | close x =>
    have hcancel := (h.concat (e := .close x) fun _ => rfl).of_frame (frame_cancel s)
      (fun n j c hw => by simpa using hw) fun k hk => by simpa using hk
    exact ⟨hcancel.work, hcancel.kept⟩
  | look =>
    exact (h.concat fun _ => rfl).of_frame (frame_look s) (fun n _ _ hw => task?_look s n ▸ hw)
      fun k hk => kept_of_kept_look hk
  | serve =>
    refine (h.concat fun _ => rfl).of_frame (frame_serve s) (fun n j c hw => ?_)
      fun k hk => kept_serve s ▸ hk
    exact (task?_serve hw).resolve_right (by simp)
  | giveUp n =>
    exact (h.concat fun _ => rfl).of_frame (frame_giveUp s n)
      (fun m j c hw => task?_update (g := fun r => { r with future := r.future.cancel })
        (fun _ => rfl) m ▸ hw) fun k hk => hk

theorem recorded_after (b : Board) (c : Settings) (es : List (Event ρ)) :
    Recorded (new b c) es ((new b c).after es) := by
  -- from the end, since a check of the run is still one of it after one event more
  induction es using List.reverseRecOn with
  | nil =>
    exact ⟨fun n q j c hq => absurd hq (by simp [after, new, request?]),
      fun k hk => absurd hk (by simp [after, new])⟩
  | append_singleton es e ih =>
    rw [after_append]
    exact ih.apply rfl e

/-! ### Whole runs -/

theorem LooksLike.kept_look (h : LooksLike s s') : s'.look.kept = s.look.kept := by
  rw [Session.kept_look, Session.kept_look, h.kept, h.board]

theorem LooksLike.state_look (h : LooksLike s s') (hs : s.Tracked) :
    s'.look.state = s.look.state := by
  rw [(hs.of_looksLike h).look.1.state, hs.look.1.state, settled, settled, h.kept_look,
    inflight_look, inflight_look, h.isStale, h.inflight]

/-- What holds of a session after any run. A verdict that is read is of the current revision and comes
from a check of that revision. An answer to a request that is not in flight is not seen, and neither
is a turn of the worker for a hint that is not; only one for the request in flight is. One future is
pending at most, and those that are resolved stay so. The state tells whether a request is in flight,
which is pending unless some holder has given up its future, and else which verdict there is. -/
theorem safe_of_run (b : Board) (c : Settings) (es : List (Event ρ)) :
    let s := (new b c).after es
    (∀ k, s.look.kept = some k →
      k.verdict.revision = s.board.revision ∧ Judged (new b c) es k.verdict s.board.revision) ∧
    (∀ n a, s.inflight ≠ some n → LooksLike s (s.receive n a) ∧
      (s.receive n a).look.state = s.look.state ∧ (s.receive n a).look.kept = s.look.kept) ∧
    ((∀ n, s.inflight = some n → s.hints.head? ≠ some n) → LooksLike s s.serve ∧
      s.serve.look.state = s.look.state ∧ s.serve.look.kept = s.look.kept) ∧
    (∀ m n, s.future? m = some .pending → s.future? n = some .pending → m = n) ∧
    (∀ es', KeepsResolved s (s.after es')) ∧
    ((∀ n, .giveUp n ∉ es) →
      ∀ n, s.look.inflight = some n ↔ s.look.future? n = some .pending) ∧
    (s.look.state = .checking ↔ ∃ n, s.look.inflight = some n) ∧
    (s.look.inflight = none → s.look.state = match s.look.kept with
      | some k => .judged k.verdict.kind
      | none => .editing) := by
  intro s
  have htracked : s.Tracked := (traced_after b c es).tracked
  have hseen : ∀ {s'}, LooksLike s s' →
      LooksLike s s' ∧ s'.look.state = s.look.state ∧ s'.look.kept = s.look.kept :=
    fun hl => ⟨hl, hl.state_look htracked, hl.kept_look⟩
  refine ⟨fun k hk => ?_, fun n a hn => hseen ?_, fun hn => hseen ?_, fun m n hm hn => ?_,
    fun es' => (htracked.after es').2, fun hheld n => ?_, htracked.look.1.checking_iff,
    fun hn => ?_⟩
  · have hrevision : k.revision = s.board.revision := by
      rw [kept_look] at hk
      exact of_decide_eq_true (Option.filter_eq_some_iff.mp hk).2
    have hjudged := (recorded_after b c es).kept k (kept_of_kept_look hk)
    rw [hrevision] at hjudged
    exact ⟨hjudged.revision_eq, hjudged⟩
  · rcases receive_cases s n a with hl | ⟨j, c, -, ha⟩
    · exact hl
    · exact ha.looksLike fun hclaim => hn ((mayClaim_iff s n).mp hclaim).1
  · rcases serve_cases s with hl | ⟨n, hhead, ha⟩
    · exact hl
    · exact ha.looksLike fun hclaim => hn n ((mayClaim_iff s n).mp hclaim).1 hhead
  · exact Option.some.inj ((htracked.pending m hm).symm.trans (htracked.pending n hn))
  · have hlook := traced_after b c (es ++ [.look])
    rw [after_append] at hlook
    exact ⟨fun hn => hlook.held n hn (by simpa using hheld n), fun hn => hlook.tracked.pending n hn⟩
  · rw [htracked.look.1.state, hn]
    rfl

/-- A hint whose query is not answered, a proof, and a second hint, which has to wait for the worker. -/
def supersededHint : List (Event Unit) :=
  [.submitHint none, .serve] ++ direct ++ [.submitHint none]

/-- The late answer to the first hint, the turns of the worker for both, and a check with its answer. -/
def caughtUp : List (Event Unit) :=
  [.deliver 0 (.plain "z3" .unknown ""), .serve, .serve, .submitCheck,
    .deliver 2 (.plain "z3" .unknown "incomplete")]

/-- The session after the superseded hint and some of the events that come then. -/
def caughtUpSession (k : Nat) : Session Unit :=
  (new (.empty (some (.atom "P" [])) none none Palette.full) .standard).after
    (supersededHint ++ caughtUp.take k)

/-- Neither the late answer nor the worker's turn with it is seen; the turn after that lands the second
hint. -/
theorem safe_of_supersededHint :
    let start := new (.empty (some (.atom "P" [])) none none Palette.full) .standard
    (caughtUpSession 0).look.state = .checking ∧ (caughtUpSession 0).hints = [0, 1] ∧
      (caughtUpSession 0).future? 1 = some .pending ∧
      LooksLike (caughtUpSession 0) (caughtUpSession 1) ∧
      LooksLike (caughtUpSession 1) (caughtUpSession 2) ∧
      (caughtUpSession 3).look.state = .editing ∧
      (caughtUpSession 3).future? 1 = some (.done (.hint Hint.complete)) ∧
      ∃ k, (caughtUpSession 5).look.kept = some k ∧ k.verdict.kind = .unknown ∧
        Judged start (supersededHint ++ caughtUp) k.verdict (caughtUpSession 5).board.revision := by
  intro start
  have hbefore : ((caughtUpSession 0).look.inflight, (caughtUpSession 0).hints,
      (caughtUpSession 0).future? 1, (caughtUpSession 1).inflight, (caughtUpSession 1).hints) =
      (some 1, [0, 1], some .pending, some 1, [0, 1]) := by
    decide_cbv
  have hafter : ((caughtUpSession 3).look.state, (caughtUpSession 3).future? 1,
      (caughtUpSession 5).look.kept.map (·.verdict.kind)) =
      (.editing, some (.done (.hint Hint.complete)), some .unknown) := by
    decide_cbv
  simp only [Prod.mk.injEq] at hbefore hafter
  obtain ⟨hlook, hhints, hpending, hinflight, hlate⟩ := hbefore
  obtain ⟨hediting, hdone, hkept⟩ := hafter
  have hsafe := fun k => safe_of_run (.empty (some (.atom "P" [])) none none Palette.full) .standard
    (supersededHint ++ caughtUp.take k)
  obtain ⟨-, hanswer, -, -, -, -, hchecking, -⟩ := hsafe 0
  obtain ⟨-, -, hturn, -⟩ := hsafe 1
  obtain ⟨hread, -⟩ := hsafe 5
  have hlate : ∀ n, (caughtUpSession 1).inflight = some n →
      (caughtUpSession 1).hints.head? ≠ some n := by
    intro n hn
    obtain rfl := Option.some.inj (hinflight.symm.trans hn)
    simp [hlate]
  obtain ⟨k, hk, hkind⟩ := Option.map_eq_some_iff.mp hkept
  exact ⟨hchecking.mpr ⟨1, hlook⟩, hhints, hpending, (hanswer 0 _ (by decide_cbv)).1,
    (hturn hlate).1, hediting, hdone, k, hk, hkind, (hread k hk).2⟩

end Session

end DeductionBoard
