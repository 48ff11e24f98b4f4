import DeductionBoard.Session

/-! What the operations of a session do and what they leave alone. Withdrawing a request, or ending its
work while it is in flight, lands the request: nothing is in flight then, and the state is that of the
verdict. Every other operation on work is invisible. Main results: an answer, and a turn of the worker,
land the request in flight or change nothing that can be seen (`receive_cases`, `serve_cases`). -/

namespace DeductionBoard

open Solver

theorem revision_review (b : Board) (c : CheckerSettings) :
    (b.review c).2.revision = b.revision := by
  rw [Board.review]
  cases b.defective? <;> rfl

namespace Session

variable {ρ : Type} {s s' s'' : Session ρ} {m n : Nat} {f : Future ρ} {kept : Option Kept}
  {g : Request ρ → Request ρ} {w : Work} {d : Dialogue Hint}

/-- The future of a request. -/
def future? (s : Session ρ) (n : Nat) : Option (Future ρ) := (s.request? n).map (·.future)

/-- The hints that the worker has not done yet, its own first. -/
def hints (s : Session ρ) : List Nat :=
  (match s.worker with
    | .idle => []
    | .waiting n => [n]
    | .ready n _ => [n]) ++ s.queue.map (·.1)

/-! ### Updates of a request -/

theorem request?_update (s : Session ρ) (n m : Nat) (g : Request ρ → Request ρ) :
    (s.update n g).request? m = (s.request? m).map fun r => if n = m then g r else r := by
  simp only [request?, update, List.getElem?_modify]
  by_cases h : n = m <;> simp [h]

theorem request?_update_of_ne (h : n ≠ m) : (s.update n g).request? m = s.request? m := by
  rw [request?_update]
  simp [h]

theorem future?_update_of_ne (h : n ≠ m) : (s.update n g).future? m = s.future? m := by
  rw [future?, future?, request?_update_of_ne h]

/-- An update that leaves futures alone. -/
theorem future?_update (hg : ∀ r, (g r).future = r.future) (m : Nat) :
    (s.update n g).future? m = s.future? m := by
  rw [future?, future?, request?_update, Option.map_map]
  congr 1
  funext r
  rw [Function.comp_apply]
  split
  · exact hg r
  · rfl

/-- An update that gives the future of the request away. -/
theorem future?_update_self (h : ∀ r, (g r).future = f) (hn : (s.future? n).isSome) :
    (s.update n g).future? n = some f := by
  obtain ⟨f', hf'⟩ := Option.isSome_iff_exists.mp hn
  obtain ⟨r, hr, -⟩ := Option.map_eq_some_iff.mp hf'
  rw [future?, request?_update, hr]
  simp [h]

/-- An update that leaves the work of requests alone. -/
theorem task?_update (hg : ∀ r, (g r).work = r.work) (m : Nat) :
    (s.update n g).task? m = s.task? m := by
  rw [task?, task?, request?_update, Option.bind_map]
  congr 1
  funext r
  rw [Function.comp_apply]
  split
  · exact hg r
  · rfl

@[simp] theorem task?_finished (s : Session ρ) (n m : Nat) :
    (s.finished n).task? m = if n = m then none else s.task? m := by
  rw [task?, task?, finished, request?_update]
  cases hr : s.request? m with
  | none => simp
  | some r => by_cases h : n = m <;> simp [h]

/-- Work that is at the solver was there before, or has just gone there. -/
theorem task?_entrust {w' : Work} (h : (s.entrust n w).task? m = some w') :
    s.task? m = some w' ∨ m = n ∧ w' = w := by
  rw [task?, entrust, request?_update] at h
  obtain ⟨r', hr', hw'⟩ := Option.bind_eq_some_iff.mp h
  obtain ⟨r, hr, rfl⟩ := Option.map_eq_some_iff.mp hr'
  by_cases hnm : n = m
  · rw [if_pos hnm] at hw'
    exact .inr ⟨hnm.symm, (Option.some.inj hw').symm⟩
  · rw [if_neg hnm] at hw'
    exact .inl (by rw [task?, hr]; exact hw')

theorem map_revision_update (hg : ∀ r, (g r).revision = r.revision) :
    (s.update n g).requests.map (·.revision) = s.requests.map (·.revision) := by
  refine List.ext_getElem? fun m => ?_
  simp only [update, List.getElem?_map, List.getElem?_modify, Option.map_eq_map, Option.map_map]
  congr 1
  funext r
  rw [Function.comp_apply]
  split
  · exact hg r
  · rfl

/-! ### What stays -/

/-- Everything but the verdict, the state, and how far the requests have come. -/
structure Frame (s s' : Session ρ) : Prop where
  board : s'.board = s.board
  settings : s'.settings = s.settings
  report : s'.report = s.report
  closed : s'.closed = s.closed
  stopped : s'.stopped = s.stopped
  revisions : s'.requests.map (·.revision) = s.requests.map (·.revision)

theorem Frame.refl (s : Session ρ) : Frame s s := ⟨rfl, rfl, rfl, rfl, rfl, rfl⟩

theorem Frame.trans (h : Frame s s') (h' : Frame s' s'') : Frame s s'' where
  board := h'.board.trans h.board
  settings := h'.settings.trans h.settings
  report := h'.report.trans h.report
  closed := h'.closed.trans h.closed
  stopped := h'.stopped.trans h.stopped
  revisions := h'.revisions.trans h.revisions

theorem Frame.length (h : Frame s s') : s'.requests.length = s.requests.length := by
  simpa using congrArg List.length h.revisions

theorem Frame.revision (h : Frame s s') (m : Nat) :
    (s'.request? m).map (·.revision) = (s.request? m).map (·.revision) := by
  simpa [request?] using congrArg (·[m]?) h.revisions

theorem frame_update (hg : ∀ r, (g r).revision = r.revision) : Frame s (s.update n g) :=
  ⟨rfl, rfl, rfl, rfl, rfl, map_revision_update hg⟩

theorem frame_entrust (s : Session ρ) (n : Nat) (w : Work) : Frame s (s.entrust n w) :=
  frame_update (g := fun r => { r with work := some w }) fun _ => rfl

theorem frame_finished (s : Session ρ) (n : Nat) : Frame s (s.finished n) :=
  frame_update (g := fun r => { r with work := none }) fun _ => rfl

theorem frame_giveUp (s : Session ρ) (n : Nat) : Frame s (s.giveUp n) :=
  frame_update (g := fun r => { r with future := r.future.cancel }) fun _ => rfl

theorem frame_cancel (s : Session ρ) : Frame s s.cancel := by
  unfold cancel
  split
  · exact .refl s
  · exact ⟨rfl, rfl, rfl, rfl, rfl, map_revision_update
      (s := { s with inflight := none, state := s.settled })
      (g := fun r => { r with withdrawn := true, future := r.future.cancel }) fun _ => rfl⟩

theorem frame_discard (s : Session ρ) : Frame s s.discard := by
  unfold discard
  split
  · exact .refl s
  · split <;> exact ⟨rfl, rfl, rfl, rfl, rfl, rfl⟩

theorem frame_look (s : Session ρ) : Frame s s.look := by
  unfold look
  split
  · exact (frame_discard s).trans (frame_cancel _)
  · exact frame_discard s

theorem frame_land (s : Session ρ) (n : Nat) (f : Future ρ) (kept : Option Kept) :
    Frame s (s.land n f kept) := by
  have hfinished := frame_finished s n
  unfold land settle
  split
  · exact hfinished.trans ⟨rfl, rfl, rfl, rfl, rfl, map_revision_update
      (s := s.finished n) (g := fun r => { r with future := f }) fun _ => rfl⟩
  · exact hfinished

theorem frame_pursue (s : Session ρ) (n : Nat) (d : Dialogue Hint) : Frame s (s.pursue n d) := by
  unfold pursue
  split
  · exact frame_land ..
  · exact frame_land ..
  · split
    · exact frame_land ..
    · split
      · exact frame_land ..
      · next q t next _ _ _ =>
        have h := frame_entrust s n (.hint q t next)
        exact ⟨h.1, h.2, h.3, h.4, h.5, h.6⟩

/-- The worker waits for the solver or has nothing to do, or it goes on with the first of its hints. -/
theorem serve_eq (s : Session ρ) : s.serve = s ∨ ∃ n d q, s.hints = n :: q.map (·.1) ∧
    s.serve = { s with worker := .idle, queue := q }.pursue n d := by
  obtain ⟨_, c, _, _, _, _, _, queue, worker, _, _⟩ := s
  cases worker with
  | waiting n => exact .inl rfl
  | ready n d => exact .inr ⟨n, d, queue, rfl, rfl⟩
  | idle =>
    cases queue with
    | nil => exact .inl rfl
    | cons x rest => exact .inr ⟨x.1, x.2.run c, rest, rfl, rfl⟩

theorem frame_serve (s : Session ρ) : Frame s s.serve := by
  rcases s.serve_eq with h | ⟨n, d, q, -, h⟩ <;> rw [h]
  · exact .refl s
  · have hpursue := frame_pursue { s with worker := .idle, queue := q } n d
    exact ⟨hpursue.1, hpursue.2, hpursue.3, hpursue.4, hpursue.5, hpursue.6⟩

theorem frame_receive (s : Session ρ) (n : Nat) (a : Answer) : Frame s (s.receive n a) := by
  unfold receive
  split
  · exact .refl s
  · exact frame_land ..
  · have h := frame_finished s n
    exact ⟨h.1, h.2, h.3, h.4, h.5, h.6⟩

/-! ### The work at the solver and the hints of the worker -/

@[simp] theorem task?_land (s : Session ρ) (n : Nat) (f : Future ρ) (kept : Option Kept) (m : Nat) :
    (s.land n f kept).task? m = if n = m then none else s.task? m := by
  rw [← task?_finished]
  unfold land settle
  split
  · exact task?_update (s := { s.finished n with inflight := none, kept, state := _ })
      (g := fun r => { r with future := f }) (fun _ => rfl) m
  · rfl

@[simp] theorem hints_land (s : Session ρ) (n : Nat) (f : Future ρ) (kept : Option Kept) :
    (s.land n f kept).hints = s.hints := by
  unfold land settle
  split <;> rfl

/-- Work that is at the solver after an answer was there before. -/
theorem task?_receive (s : Session ρ) (n : Nat) (a : Answer) (m : Nat) :
    (s.receive n a).task? m = if n = m then none else s.task? m := by
  unfold receive
  split
  · next h =>
    split
    · next hnm => rw [← hnm, h]
    · rfl
  · exact task?_land ..
  · exact task?_finished s n m

/-- After an answer the worker has to do with the same hints, and with the one that has been answered. -/
theorem mem_hints_receive {a : Answer} (h : m ∈ (s.receive n a).hints) :
    m ∈ s.hints ∨ m = n ∧ ∃ w, s.task? n = some w := by
  unfold receive at h
  split at h
  · exact .inl h
  · exact .inl (by simpa using h)
  · next hn =>
    rcases List.mem_cons.mp h with rfl | h
    · exact .inr ⟨rfl, _, hn⟩
    · exact .inl (List.mem_append_right _ h)

/-- Work that is at the solver while a hint goes on was there before, or it is that hint's. -/
theorem task?_pursue {w : Work} (h : (s.pursue n d).task? m = some w) :
    s.task? m = some w ∨ m = n ∧ ∃ q t next, w = .hint q t next := by
  have hland : ∀ f kept, (s.land n f kept).task? m = some w → s.task? m = some w := by
    intro f kept h
    rw [task?_land] at h
    split at h
    · simp at h
    · exact h
  unfold pursue at h
  split at h
  · exact .inl (hland _ _ h)
  · exact .inl (hland _ _ h)
  · split at h
    · exact .inl (hland _ _ h)
    · split at h
      · exact .inl (hland _ _ h)
      · exact (task?_entrust h).imp_right fun ⟨hm, hw⟩ => ⟨hm, _, _, _, hw⟩

theorem mem_hints_pursue (h : m ∈ (s.pursue n d).hints) : m ∈ s.hints ∨ m = n := by
  unfold pursue at h
  split at h
  · exact .inl (by simpa using h)
  · exact .inl (by simpa using h)
  · split at h
    · exact .inl (by simpa using h)
    · split at h
      · exact .inl (by simpa using h)
      · exact (List.mem_cons.mp h).symm.imp_left (List.mem_append_right _)

/-- Work that is at the solver after a turn of the worker was there before, or it is that of the hint that
the turn was about. -/
theorem task?_serve {w : Work} (h : s.serve.task? m = some w) :
    s.task? m = some w ∨ m ∈ s.hints ∧ ∃ q t next, w = .hint q t next := by
  rcases s.serve_eq with heq | ⟨n, d, q, hhints, heq⟩ <;> rw [heq] at h
  · exact .inl h
  · refine (task?_pursue h).imp_right fun ⟨hm, hw⟩ => ⟨?_, hw⟩
    rw [hhints, hm]
    exact List.mem_cons_self

theorem mem_hints_serve (h : m ∈ s.serve.hints) : m ∈ s.hints := by
  rcases s.serve_eq with heq | ⟨n, d, q, hhints, heq⟩ <;> rw [heq] at h
  · exact h
  · rw [hhints]
    rcases mem_hints_pursue h with h | rfl
    · exact List.mem_cons_of_mem _ h
    · exact List.mem_cons_self

/-! ### The fields -/

@[simp] theorem board_cancel (s : Session ρ) : s.cancel.board = s.board := (frame_cancel s).board

@[simp] theorem board_discard (s : Session ρ) : s.discard.board = s.board := (frame_discard s).board

@[simp] theorem board_look (s : Session ρ) : s.look.board = s.board := (frame_look s).board

@[simp] theorem kept_cancel (s : Session ρ) : s.cancel.kept = s.kept := by
  unfold cancel
  split <;> rfl

@[simp] theorem inflight_cancel (s : Session ρ) : s.cancel.inflight = none := by
  unfold cancel
  split
  · next h => exact h
  · rfl

@[simp] theorem inflight_discard (s : Session ρ) : s.discard.inflight = s.inflight := by
  unfold discard
  split
  · rfl
  · split <;> rfl

@[simp] theorem requests_discard (s : Session ρ) : s.discard.requests = s.requests := by
  unfold discard
  split
  · rfl
  · split <;> rfl

@[simp] theorem kept_discard (s : Session ρ) :
    s.discard.kept = s.kept.filter fun k => k.revision = s.board.revision := by
  unfold discard
  split
  · next h => rw [h]; rfl
  · next k h =>
    split
    · next hk => rw [h, Option.filter_some_pos (by simpa using hk)]
    · next hk => rw [h, Option.filter_some_neg (by simpa using hk)]

@[simp] theorem future?_discard (s : Session ρ) (n : Nat) : s.discard.future? n = s.future? n := by
  simp [future?, request?]

@[simp] theorem task?_discard (s : Session ρ) (n : Nat) : s.discard.task? n = s.task? n := by
  simp [task?, request?]

@[simp] theorem kept_look (s : Session ρ) :
    s.look.kept = s.kept.filter fun k => k.revision = s.board.revision := by
  unfold look
  split <;> simp

theorem kept_of_kept_look {k : Kept} (h : s.look.kept = some k) : s.kept = some k := by
  rw [kept_look] at h
  exact (Option.filter_eq_some_iff.mp h).1

@[simp] theorem task?_cancel (s : Session ρ) (m : Nat) : s.cancel.task? m = s.task? m := by
  unfold cancel
  split
  · rfl
  · exact task?_update (s := { s with inflight := none, state := s.settled })
      (g := fun r => { r with withdrawn := true, future := r.future.cancel }) (fun _ => rfl) m

@[simp] theorem task?_look (s : Session ρ) (m : Nat) : s.look.task? m = s.task? m := by
  unfold look
  split <;> simp

@[simp] theorem hints_cancel (s : Session ρ) : s.cancel.hints = s.hints := by
  unfold cancel
  split <;> rfl

@[simp] theorem hints_discard (s : Session ρ) : s.discard.hints = s.hints := by
  unfold discard
  split
  · rfl
  · split <;> rfl

@[simp] theorem hints_look (s : Session ρ) : s.look.hints = s.hints := by
  unfold look
  split <;> simp

@[simp] theorem isStale_discard (s : Session ρ) : s.discard.isStale = s.isStale := by
  simp only [isStale, inflight_discard, board_discard]
  congr 2
  funext n
  simp [request?]

theorem inflight_look (s : Session ρ) :
    s.look.inflight = if s.isStale then none else s.inflight := by
  unfold look
  rw [isStale_discard]
  split <;> simp

/-- Nothing happens to the futures as long as the request in flight stays there. -/
theorem future?_look (hn : s.look.inflight = some n) (m : Nat) :
    s.look.future? m = s.future? m := by
  unfold look at hn ⊢
  split at hn
  · simp at hn
  · next hfresh => simp [hfresh]

@[simp] theorem isStale_look (s : Session ρ) : s.look.isStale = false := by
  unfold look
  split
  · simp [isStale]
  · next hfresh => exact Bool.eq_false_iff.mpr hfresh

/-! ### The session before a new request -/

@[simp] theorem settings_cleared (s : Session ρ) : s.cleared.settings = s.settings :=
  ((frame_look s).trans (frame_cancel _)).settings

@[simp] theorem report_cleared (s : Session ρ) : s.cleared.report = s.report :=
  ((frame_look s).trans (frame_cancel _)).report

@[simp] theorem closed_cleared (s : Session ρ) : s.cleared.closed = s.closed :=
  ((frame_look s).trans (frame_cancel _)).closed

@[simp] theorem stopped_cleared (s : Session ρ) : s.cleared.stopped = s.stopped :=
  ((frame_look s).trans (frame_cancel _)).stopped

@[simp] theorem length_cleared (s : Session ρ) :
    s.cleared.requests.length = s.requests.length :=
  ((frame_look s).trans (frame_cancel _)).length

@[simp] theorem revision_cleared (s : Session ρ) : s.cleared.board.revision = s.board.revision :=
  revision_review ..

@[simp] theorem task?_cleared (s : Session ρ) (m : Nat) : s.cleared.task? m = s.task? m :=
  (task?_cancel s.look m).trans (task?_look s m)

@[simp] theorem hints_cleared (s : Session ρ) : s.cleared.hints = s.hints :=
  (hints_cancel s.look).trans (hints_look s)

theorem request?_length (s : Session ρ) : s.request? s.requests.length = none :=
  List.getElem?_eq_none (Nat.le_refl _)

theorem request?_begin (s : Session ρ) (n : Nat) :
    s.begin.request? n =
      if n = s.requests.length then some ⟨s.board.revision, .pending, none, false⟩
      else s.request? n := by
  simp only [request?, begin, List.getElem?_append, List.getElem?_singleton]
  rcases Nat.lt_trichotomy n s.requests.length with h | h | h
  · rw [if_pos h, if_neg (Nat.ne_of_lt h)]
  · simp [h]
  · have hnone : s.requests[n]? = none := List.getElem?_eq_none (Nat.le_of_lt h)
    rw [if_neg (Nat.not_lt.mpr (Nat.le_of_lt h)), if_neg (Nat.sub_ne_zero_of_lt h),
      if_neg (Nat.ne_of_gt h), hnone]

theorem future?_begin_of_ne (h : n ≠ s.requests.length) : s.begin.future? n = s.future? n := by
  rw [future?, future?, request?_begin, if_neg h]

@[simp] theorem future?_begin (s : Session ρ) :
    s.begin.future? s.requests.length = some .pending := by
  simp [future?, request?_begin]

@[simp] theorem task?_begin (s : Session ρ) (n : Nat) : s.begin.task? n = s.task? n := by
  rw [task?, task?, request?_begin]
  split
  · next h => rw [h, request?_length]; rfl
  · rfl

/-! ### Requests that land -/

/-- A request that was in flight has got another future, and nothing is in flight. -/
structure Lands (s s' : Session ρ) (n : Nat) (f : Future ρ) : Prop where
  before : s.inflight = some n
  inflight : s'.inflight = none
  state : s'.state = s'.settled
  future : s'.future? n = some f
  other : ∀ m, n ≠ m → s'.future? m = s.future? m

/-- Withdrawing cancels the future of the request in flight. -/
theorem cancel_cases (s : Session ρ) (hflight : ∀ n, s.inflight = some n → (s.future? n).isSome) :
    s.inflight = none ∧ s.cancel = s ∨
      ∃ n f, s.future? n = some f ∧ Lands s s.cancel n f.cancel := by
  cases hs : s.inflight with
  | none => exact .inl ⟨rfl, by rw [cancel, hs]⟩
  | some n =>
    obtain ⟨f, hf⟩ := Option.isSome_iff_exists.mp (hflight n hs)
    refine .inr ⟨n, f, hf, hs, inflight_cancel s, ?_, ?_, fun m hm => ?_⟩ <;> rw [cancel, hs]
    · rfl
    · obtain ⟨r, hr, rfl⟩ := Option.map_eq_some_iff.mp hf
      rw [future?, request?_update]
      have hr : request? { s with inflight := none, state := s.settled } n = some r := hr
      simp [hr]
    · exact future?_update_of_ne hm

theorem mayClaim_iff (s : Session ρ) (n : Nat) :
    s.mayClaim n = true ↔ s.inflight = some n ∧ ∃ f, s.future? n = some f ∧ f ≠ .cancelled := by
  have hcancelled : ∀ f : Future ρ, (!f.isCancelled) = true ↔ f ≠ .cancelled := by
    intro f
    cases f <;> simp [Future.isCancelled]
  rw [mayClaim, future?, Bool.and_eq_true, decide_eq_true_iff]
  cases s.request? n <;> simp [hcancelled]

/-- Nothing that can be seen of a session differs. -/
structure LooksLike (s s' : Session ρ) : Prop where
  board : s'.board = s.board
  state : s'.state = s.state
  kept : s'.kept = s.kept
  inflight : s'.inflight = s.inflight
  future : ∀ m, s'.future? m = s.future? m
  revision : ∀ m, (s'.request? m).map (·.revision) = (s.request? m).map (·.revision)

theorem LooksLike.refl (s : Session ρ) : LooksLike s s :=
  ⟨rfl, rfl, rfl, rfl, fun _ => rfl, fun _ => rfl⟩

theorem LooksLike.trans (h : LooksLike s s') (h' : LooksLike s' s'') : LooksLike s s'' where
  board := h'.board.trans h.board
  state := h'.state.trans h.state
  kept := h'.kept.trans h.kept
  inflight := h'.inflight.trans h.inflight
  future m := (h'.future m).trans (h.future m)
  revision m := (h'.revision m).trans (h.revision m)

theorem looksLike_update (hg : ∀ r, (g r).future = r.future ∧ (g r).revision = r.revision)
    (n : Nat) : LooksLike s (s.update n g) :=
  ⟨rfl, rfl, rfl, rfl, future?_update fun r => (hg r).1, (frame_update fun r => (hg r).2).revision⟩

theorem looksLike_finished (s : Session ρ) (n : Nat) : LooksLike s (s.finished n) :=
  looksLike_update (g := fun r => { r with work := none }) (fun _ => ⟨rfl, rfl⟩) n

theorem looksLike_entrust (s : Session ρ) (n : Nat) (w : Work) : LooksLike s (s.entrust n w) :=
  looksLike_update (g := fun r => { r with work := some w }) (fun _ => ⟨rfl, rfl⟩) n

/-- The queue and the worker cannot be seen. -/
theorem LooksLike.withWorker (h : LooksLike s s') (q : List (Nat × HintJob)) (w : Worker) :
    LooksLike s { s' with queue := q, worker := w } := ⟨h.1, h.2, h.3, h.4, h.5, h.6⟩

theorem LooksLike.mayClaim_iff (h : LooksLike s s') (n : Nat) :
    s'.mayClaim n = true ↔ s.mayClaim n = true := by
  rw [Session.mayClaim_iff, Session.mayClaim_iff, h.inflight, h.future]

theorem LooksLike.isStale (h : LooksLike s s') : s'.isStale = s.isStale := by
  simp only [Session.isStale, h.inflight, h.board]
  cases s.inflight with
  | none => rfl
  | some n =>
    have hany : ∀ s'' : Session ρ, ((some n).bind s''.request?).any
        (fun q => decide (q.revision ≠ s.board.revision)) =
        ((s''.request? n).map (·.revision)).any fun r => decide (r ≠ s.board.revision) := by
      intro s''
      rw [Option.bind_some, Option.any_map]
    rw [hany, hany, h.revision]

/-- Work that ends lands the request where it may claim the session, and is not seen otherwise. -/
theorem land_cases (s : Session ρ) (n : Nat) (f : Future ρ) (kept : Option Kept) :
    s.mayClaim n ≠ true ∧ LooksLike s (s.land n f kept) ∨
      s.mayClaim n = true ∧ Lands s (s.land n f kept) n f ∧ (s.land n f kept).kept = kept := by
  have hfinished := looksLike_finished s n
  by_cases hclaim : s.mayClaim n = true
  · refine .inr ⟨hclaim, ?_⟩
    obtain ⟨hn, f', hf', -⟩ := (mayClaim_iff s n).mp hclaim
    rw [land, settle, if_pos ((hfinished.mayClaim_iff n).mpr hclaim)]
    refine ⟨⟨hn, rfl, rfl, ?_, fun m hm => ?_⟩, rfl⟩
    · refine future?_update_self (s := { s.finished n with inflight := none, kept, state := _ })
        (fun _ => rfl) ?_
      change ((s.finished n).future? n).isSome
      rw [hfinished.future, hf']
      rfl
    · exact (future?_update_of_ne (s := { s.finished n with inflight := none, kept, state := _ })
        hm).trans (hfinished.future m)
  · refine .inl ⟨hclaim, ?_⟩
    rwa [land, settle, if_neg fun h => hclaim ((hfinished.mayClaim_iff n).mp h)]

/-- The work of a request goes on: it lands, which it may while nobody has given it up, or nothing can be
seen of it. -/
def Advances (s s' : Session ρ) (n : Nat) (kept : Option Kept) : Prop :=
  LooksLike s s' ∨ ∃ f, f ≠ .pending ∧ s.mayClaim n = true ∧ Lands s s' n f ∧ s'.kept = kept

theorem advances_land (hf : f ≠ .pending) (n : Nat) (kept : Option Kept) :
    Advances s (s.land n f kept) n kept := by
  rcases land_cases s n f kept with ⟨-, hlooks⟩ | ⟨hclaim, hlands, hkept⟩
  · exact .inl hlooks
  · exact .inr ⟨f, hf, hclaim, hlands, hkept⟩

theorem Advances.looksLike (h : Advances s s' n kept) (hn : s.mayClaim n ≠ true) : LooksLike s s' :=
  h.resolve_right fun ⟨_, _, hclaim, _⟩ => hn hclaim

theorem advances_pursue (s : Session ρ) (n : Nat) (d : Dialogue Hint) :
    Advances s (s.pursue n d) n s.kept := by
  unfold pursue
  split
  · exact advances_land (by simp) ..
  · exact advances_land (by simp) ..
  · split
    · exact advances_land (by simp) ..
    · split
      · exact advances_land (by simp) ..
      · next q t next _ _ _ =>
        exact .inl ((looksLike_entrust s n (.hint q t next)).withWorker s.queue (.waiting n))

/-- An answer lands the check that it is for, or nothing can be seen of it. -/
theorem receive_cases (s : Session ρ) (n : Nat) (a : Answer) :
    LooksLike s (s.receive n a) ∨ ∃ j c, s.task? n = some (.check j c) ∧
      Advances s (s.receive n a) n (s.keep n (j.verdict c.encoder a)) := by
  unfold receive
  split
  · exact .inl (.refl s)
  · next j c h => exact .inr ⟨j, c, h, advances_land (by simp) ..⟩
  · next next _ => exact .inl ((looksLike_finished s n).withWorker s.queue (.ready n (next a)))

/-- A turn of the worker is about the first of its hints, if any: that one lands, or nothing can be seen of
the turn. -/
theorem serve_cases (s : Session ρ) :
    LooksLike s s.serve ∨ ∃ n, s.hints.head? = some n ∧ Advances s s.serve n s.kept := by
  rcases s.serve_eq with h | ⟨n, d, q, hhints, h⟩ <;> rw [h]
  · exact .inl (.refl s)
  · rw [hhints]
    refine .inr ⟨n, rfl, ?_⟩
    exact (advances_pursue { s with worker := .idle, queue := q } n d).imp
      (fun h => ⟨h.1, h.2, h.3, h.4, h.5, h.6⟩)
      fun ⟨f, hf, hc, hl, hk⟩ => ⟨f, hf, hc, ⟨hl.1, hl.2, hl.3, hl.4, hl.5⟩, hk⟩

end Session

end DeductionBoard
