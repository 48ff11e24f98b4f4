import DeductionBoard.Export
import DeductionBoard.Proofs.Board.Revision
import DeductionBoard.Proofs.Session.History

/-! Verdicts, reports and exports that are about the board as it is. A session and an export compare
revisions and nothing else. While a session lasts, its board may be edited and reviewed by anybody,
its settings may change, and requests may be refused, superseded, given up or answered late. Every event
does to the board what edits and reviews do, and only a look at the report files one. Main result:
equal revisions mean equal boards, so a verdict that is read from a session, or that an export
accepts, is what a check of the current board comes to. -/

namespace DeductionBoard

open Solver

namespace Session

variable {ρ : Type} {s₀ s s' : Session ρ} {e : Event ρ} {es : List (Event ρ)} {m n r : Nat} {p : Prepared}
  {v : Verdict} {k : Kept}

/-! ### The board and the report from one event to the next -/

/-- A request reviews the board, and leaves the report alone. -/
theorem board_startCheck (s : Session ρ) (p : Prepared) :
    (s.startCheck p).1.board = s.board ∧ (s.startCheck p).1.report = s.report := by
  unfold startCheck
  cases p with
  | early v => exact ⟨(frame_land ..).board, (frame_land ..).report⟩
  | job j => cases s.refusal? <;> exact ⟨rfl, rfl⟩

theorem board_submitCheck (s : Session ρ) :
    s.submitCheck.1.board = (s.board.review s.settings.checker).2 ∧
      s.submitCheck.1.report = s.report := by
  rw [submitCheck]
  split
  · exact ⟨rfl, report_cleared s⟩
  · next p _ =>
    obtain ⟨hboard, hreport⟩ := board_startCheck s.cleared p
    exact ⟨hboard, hreport.trans (report_cleared s)⟩

theorem board_queueHint (s : Session ρ) (goal : Option Formula) :
    (s.queueHint goal).1.board = (s.board.review s.settings.checker).2 ∧
      (s.queueHint goal).1.report = s.report := by
  rw [queueHint]
  split
  · exact ⟨rfl, report_cleared s⟩
  · rw [enqueue]
    split <;> exact ⟨rfl, report_cleared s⟩

theorem board_liveReport (s : Session ρ) :
    s.liveReport.1.board = s.board ∨
      s.liveReport.1.board = (s.board.review s.settings.checker).2 := by
  unfold liveReport
  split
  · exact .inl rfl
  · split <;> next h => exact .inr (congrArg Prod.snd h).symm

/-- An event does to the board what some actions do. -/
theorem board_apply (s : Session ρ) (e : Event ρ) :
    ∃ as, (s.apply e).board = Action.runAll s.board as := by
  cases e with
  | edit e => exact ⟨[.edit e], rfl⟩
  | review c => exact ⟨[.check c], rfl⟩
  | configure c => exact ⟨[], rfl⟩
  | submitCheck => exact ⟨[.check s.settings.checker], (board_submitCheck s).1⟩
  | submitHint goal => exact ⟨[.check s.settings.checker], (board_queueHint s goal).1⟩
  | cancel => exact ⟨[], board_cancel s⟩
  | look => exact ⟨[], board_look s⟩
  | report =>
    rcases board_liveReport s with hsame | hreview
    · exact ⟨[], hsame⟩
    · exact ⟨[.check s.settings.checker], hreview⟩
  | deliver n a => exact ⟨[], (frame_receive s n a).board⟩
  | serve => exact ⟨[], (frame_serve s).board⟩
  | giveUp n => exact ⟨[], rfl⟩
  | close x => exact ⟨[], board_cancel s⟩
  | shutDown x => exact ⟨[], rfl⟩

theorem board_after (s : Session ρ) (es : List (Event ρ)) :
    ∃ as, (s.after es).board = Action.runAll s.board as := by
  induction es generalizing s with
  | nil => exact ⟨[], rfl⟩
  | cons e es ih =>
    obtain ⟨as, has⟩ := board_apply s e
    obtain ⟨as', has'⟩ := ih (s.apply e)
    exact ⟨as ++ as', by rw [Action.runAll_append, ← has]; exact has'⟩

/-- A check was asked for at some event, at the revision and under the settings, and this is what was
prepared for it. -/
def Asked (s₀ : Session ρ) (es : List (Event ρ)) (r : Nat) (c : Settings) (p : Prepared) : Prop :=
  ∃ before after, es = before ++ .submitCheck :: after ∧
    (s₀.after before).board.revision = r ∧ (s₀.after before).settings = c ∧
    (s₀.after before).board.prepareCheck c = .ok p

theorem Judged.asked (h : Judged s₀ es v r) :
    ∃ c p a, Asked s₀ es r c p ∧ p.outcome? c.encoder a = some v := by
  obtain ⟨n, c, p, later, ⟨before, hes, -, hrest⟩, hv⟩ := h
  exact ⟨c, p, _, ⟨before, later, hes, hrest⟩, hv⟩

/-! ### Reports -/

/-- A report was looked at in some event, and this is what the review found under the settings. -/
def Filed (s₀ : Session ρ) (es : List (Event ρ)) (c : Settings) (r : Report) : Prop :=
  ∃ before after, es = before ++ .report :: after ∧ (s₀.after before).settings = c ∧
    ((s₀.after before).board.review c.checker).1 = .ok r

theorem Filed.append {c : Settings} {r : Report} (h : Filed s₀ es c r) (es' : List (Event ρ)) :
    Filed s₀ (es ++ es') c r := by
  obtain ⟨before, after, rfl, hrest⟩ := h
  exact ⟨before, after ++ es', by simp, hrest⟩

/-- Only a look at the report changes the report. -/
theorem report_apply (s : Session ρ) (he : e ≠ .report) : (s.apply e).report = s.report := by
  cases e with
  | submitCheck => exact (board_submitCheck s).2
  | submitHint goal => exact (board_queueHint s goal).2
  | cancel => exact (frame_cancel s).report
  | look => exact (frame_look s).report
  | report => exact absurd rfl he
  | deliver n a => exact (frame_receive s n a).report
  | serve => exact (frame_serve s).report
  | close x => exact (frame_cancel s).report
  | edit _ | review _ | configure _ | giveUp _ | shutDown _ => rfl

/-- A look at the report leaves the report that is there, or files what the review finds. -/
theorem report_liveReport (s : Session ρ) :
    s.liveReport.1.report = s.report ∨ ∃ r, s.liveReport.1.report = some r ∧
      (s.board.review s.settings.checker).1 = .ok r := by
  unfold liveReport
  split
  · exact .inl rfl
  · split
    · next r b hreview => exact .inr ⟨r, rfl, congrArg Prod.fst hreview⟩
    · exact .inl rfl

theorem filed_after (b : Board) (c : Settings) (es : List (Event ρ)) (r : Report)
    (h : ((new b c).after es).report = some r) : ∃ c', Filed (new b c) es c' r := by
  induction es using List.reverseRecOn with
  | nil => exact absurd h (by simp [after, new])
  | append_singleton es e ih =>
    rw [after_append] at h
    by_cases he : e = .report
    · subst he
      rcases report_liveReport ((new b c).after es) with hsame | ⟨r', hr', hreview⟩
      · obtain ⟨c', hfiled⟩ := ih (hsame.symm.trans h)
        exact ⟨c', hfiled.append _⟩
      · obtain rfl : r' = r := Option.some.inj (hr'.symm.trans h)
        exact ⟨_, es, [], rfl, rfl, hreview⟩
    · obtain ⟨c', hfiled⟩ := ih ((report_apply _ he).symm.trans h)
      exact ⟨c', hfiled.append _⟩

/-- What a look at the report returns was there with the revision of the board, or is new. -/
theorem liveReport_of_ok {r : Report} (h : s.liveReport.2 = .ok r) :
    s.report = some r ∧ r.revision = s.board.revision ∨
      (s.board.review s.settings.checker).1 = .ok r := by
  unfold liveReport at h
  split at h
  · next r' hr' =>
    obtain rfl := Except.ok.inj h
    obtain ⟨hsome, hrevision⟩ := Option.filter_eq_some_iff.mp hr'
    exact .inl ⟨hsome, of_decide_eq_true hrevision⟩
  · split at h
    · next hreview =>
      obtain rfl := Except.ok.inj h
      exact .inr (congrArg Prod.fst hreview)
    · exact absurd h (by simp)

/-! ### What is read is about the board as it is -/

variable {b : Board} {c : Settings}

/-- Between two events with the same revision, nothing about the board has changed. -/
theorem board_of_revision_eq (hb : b.WellFormed ∧ b.Current) (before after : List (Event ρ))
    (hr : ((new b c).after before).board.revision =
      ((new b c).after (before ++ after)).board.revision) :
    (∀ st, ((((new b c).after (before ++ after)).board.review st).1 =
        (((new b c).after before).board.review st).1)) ∧
      ∀ st, ((new b c).after (before ++ after)).board.prepareCheck st =
        ((new b c).after before).board.prepareCheck st := by
  obtain ⟨as, has⟩ := board_after (new b c) before
  obtain ⟨as', has'⟩ := board_after ((new b c).after before) after
  have hbefore : ((new b c).after before).board.WellFormed ∧
      ((new b c).after before).board.Current := has ▸ Board.invariant_runAll hb as
  rw [after_append] at hr ⊢
  rw [has'] at hr ⊢
  have hlater := Board.later_runAll hbefore.1 as'
  have hafter := Board.invariant_runAll hbefore as'
  exact ⟨hlater.review_eq hbefore hafter hr.symm, hlater.prepareCheck_eq hbefore hafter hr.symm⟩

/-- A verdict that is read is what the check of the current board comes to that was asked for at its
revision. -/
theorem kept_current (hb : b.WellFormed ∧ b.Current) (es : List (Event ρ))
    (hk : ((new b c).after es).look.kept = some k) :
    ∃ c' p a, Asked (new b c) es ((new b c).after es).board.revision c' p ∧
      ((new b c).after es).board.prepareCheck c' = .ok p ∧
      p.outcome? c'.encoder a = some k.verdict := by
  have hrevision : k.revision = ((new b c).after es).board.revision := by
    rw [kept_look] at hk
    exact of_decide_eq_true (Option.filter_eq_some_iff.mp hk).2
  obtain ⟨c', p, a, hasked, hv⟩ := ((recorded_after b c es).kept k (kept_of_kept_look hk)).asked
  rw [hrevision] at hasked
  refine ⟨c', p, a, hasked, ?_, hv⟩
  obtain ⟨before, after, rfl, hr, -, hp⟩ := hasked
  rw [(board_of_revision_eq hb before (.submitCheck :: after) hr).2 c', hp]

/-- A report that is looked at is what the review of the current board finds under the settings that
it was made with. -/
theorem reported_current (hb : b.WellFormed ∧ b.Current) (es : List (Event ρ)) {r : Report}
    (h : ((new b c).after es).liveReport.2 = .ok r) :
    ∃ c', Filed (new b c) (es ++ [.report]) c' r ∧
      (((new b c).after es).board.review c'.checker).1 = .ok r := by
  rcases liveReport_of_ok h with ⟨hreport, hrevision⟩ | hreview
  · obtain ⟨c', before, after, rfl, hc', hr⟩ := filed_after b c es r hreport
    refine ⟨c', Filed.append ⟨before, after, rfl, hc', hr⟩ _, ?_⟩
    have hsame := (Board.revision_of_review hr).symm.trans hrevision
    rw [(board_of_revision_eq hb before (.report :: after) hsame).1 c'.checker, hr]
  · exact ⟨_, ⟨es, [], rfl, rfl, hreview⟩, hreview⟩

/-- An export accepts a verdict on an earlier state only where a check of the current one prepares the
same. -/
theorem exported_current {o : Origin} {as : List Action} {a : Option Answer}
    (hp : (Board.moment o as m).prepareCheck c = .ok p) (hv : p.outcome? c.encoder a = some v)
    {st : CheckerSettings} {level player : String} {seconds : Value} {sub : Submission}
    (hsub : v.submission (Board.moment o as n) st level player seconds = .ok sub) :
    (Board.moment o as n).prepareCheck c = .ok p := by
  have hrevision : v.revision = (Board.moment o as n).revision := by
    by_contra hne
    rw [Verdict.submission, if_pos hne] at hsub
    exact absurd hsub (by simp)
  have hsame := (revision_of_outcome? hp hv).symm.trans hrevision
  rw [← (Board.moment_of_revision_eq hsame).2.2 c, hp]

/-- Along a history, each action counts the revision up by one at most, and moments with the same
revision look and are judged the same. So a verdict on one moment that an export accepts at another is
what the check comes to there; and whatever happens while a session lasts, the verdict and the report
that are read from it are those of the current board. -/
theorem revision_identifies (o : Origin) (as : List Action) :
    (∀ n, (Board.moment o as (n + 1)).revision = (Board.moment o as n).revision ∨
      (Board.moment o as (n + 1)).revision = (Board.moment o as n).revision + 1) ∧
    (∀ m n, (Board.moment o as m).revision = (Board.moment o as n).revision →
      (Board.moment o as m).snapshot = (Board.moment o as n).snapshot ∧
        ∀ st, ((Board.moment o as m).review st).1 = ((Board.moment o as n).review st).1) ∧
    (∀ m n c p a v st level player seconds sub, (Board.moment o as m).prepareCheck c = .ok p →
      p.outcome? c.encoder a = some v →
      v.submission (Board.moment o as n) st level player seconds = .ok sub →
      v.revision = (Board.moment o as n).revision ∧
        (Board.moment o as n).prepareCheck c = .ok p) ∧
    ∀ c (es : List (Event ρ)), let s := (new (Action.runAll o.board as) c).after es
      (∀ k, s.look.kept = some k → k.verdict.revision = s.board.revision ∧
        ∃ c' p a, Asked (new (Action.runAll o.board as) c) es s.board.revision c' p ∧
          s.board.prepareCheck c' = .ok p ∧ p.outcome? c'.encoder a = some k.verdict) ∧
      ∀ r, s.liveReport.2 = .ok r →
        ∃ c', Filed (new (Action.runAll o.board as) c) (es ++ [.report]) c' r ∧
          (s.board.review c'.checker).1 = .ok r := by
  have hb := Board.invariant_runAll (Board.invariant_origin o) as
  refine ⟨Board.revision_moment_succ o as, fun m n hr => ?_,
    fun m n c p a v st level player seconds sub hp hv hsub => ?_, fun c es => ⟨fun k hk => ?_,
    fun r hr => reported_current hb es hr⟩⟩
  · obtain ⟨hsnapshot, hreview, -⟩ := Board.moment_of_revision_eq hr
    exact ⟨hsnapshot, hreview⟩
  · have hnow := exported_current hp hv hsub
    exact ⟨revision_of_outcome? hnow hv, hnow⟩
  · obtain ⟨c', p, a, hasked, hp, hv⟩ := kept_current hb es hk
    exact ⟨revision_of_outcome? hp hv, c', p, a, hasked, hp, hv⟩

/-- An assumption wired into the goal, a review of that, and a wire that is refused. -/
def refusedOnce : List Action := Action.wiredOnce ++ [.edit (.wire 2 0 2)]

/-- The board of that history after some of its actions. -/
def refusedBoard (n : Nat) : Board :=
  Board.moment (.fresh (some (.atom "P" [])) none none Palette.full) refusedOnce n

/-- A check, a review by somebody else, and the answer to the check. -/
def askedOnce : List (Event Unit) :=
  [.submitCheck, .review .standard, .deliver 0 (.plain "z3" .unknown "incomplete")]

def askedSession : Session Unit := (new (refusedBoard 5) .standard).after askedOnce

theorem revision_identifies_refusedOnce :
    (refusedBoard 3).snapshot = (refusedBoard 5).snapshot ∧
      (∃ p v sub, (refusedBoard 3).prepareCheck .standard = .ok p ∧
        p.outcome? EncoderSettings.standard (some (.plain "z3" .sat "")) = some v ∧
        v.submission (refusedBoard 5) .standard "l" "p" (.int 3) = .ok sub ∧
        (refusedBoard 5).prepareCheck .standard = .ok p) ∧
      ∃ k c p a, askedSession.look.kept = some k ∧ k.verdict.kind = .unknown ∧
        askedSession.board.prepareCheck c = .ok p ∧ p.outcome? c.encoder a = some k.verdict := by
  obtain ⟨-, hsame, hexport, hsession⟩ :=
    @revision_identifies Unit (.fresh (some (.atom "P" [])) none none Palette.full) refusedOnce
  refine ⟨(hsame 3 5 (by decide_cbv)).1, ?_, ?_⟩
  · have hseen : ((refusedBoard 3).prepareCheck .standard).toOption.any (fun p =>
        (p.outcome? EncoderSettings.standard (some (.plain "z3" .sat ""))).any fun v =>
          (v.submission (refusedBoard 5) .standard "l" "p" (.int 3)).isOk) = true := by
      decide_cbv
    cases hp : (refusedBoard 3).prepareCheck .standard with
    | error f => simp [hp, Except.toOption] at hseen
    | ok p =>
      rw [hp, Except.toOption, Option.any_some] at hseen
      obtain ⟨v, hv, hok⟩ := (Option.any_eq_true _ _).mp hseen
      cases hsub : v.submission (refusedBoard 5) .standard "l" "p" (.int 3) with
      | error f => simp [hsub, Except.isOk, Except.toBool] at hok
      | ok sub => exact ⟨p, v, sub, rfl, hv, hsub, (hexport 3 5 _ p _ v _ _ _ _ sub hp hv hsub).2⟩
  · have hkept : askedSession.look.kept.map (·.verdict.kind) = some .unknown := by decide_cbv
    obtain ⟨k, hk, hkind⟩ := Option.map_eq_some_iff.mp hkept
    obtain ⟨-, c, p, a, -, hp, hv⟩ := (hsession .standard askedOnce).1 k hk
    exact ⟨k, c, p, a, hk, hkind, hp, hv⟩

end Session

end DeductionBoard
