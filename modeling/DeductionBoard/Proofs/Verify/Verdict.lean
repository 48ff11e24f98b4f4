import DeductionBoard.Proofs.Derivation.Policy
import DeductionBoard.Proofs.Query.Signature
import DeductionBoard.Verify.Check

/-! The verdict on a board. The rules come first: a board with violations is invalid, and no solver is
asked. On every other board the goal is derived, so that there is something to ask, and the answer
decides between a valid board and one about which nothing is known. -/

namespace DeductionBoard

open Solver

variable {b : Board} {r : Report}

/-- Queries fail over names that clash. -/
theorem Query.Entailment.exists_clash {o : Query.Options} {e : Query.Entailment} {f : Query.Fault}
    (h : e.query o = .error f) : ∃ c piece, f = .clash c piece := by
  rw [query] at h
  split at h
  · next hs =>
    obtain rfl := Except.error.inj h
    obtain ⟨-, -, piece, -, -, c, -, -, -, hf⟩ := signatureFrom_error hs
    exact ⟨c, piece, hf⟩
  · exact absurd h (by simp)

/-- The query of a derived goal does not fail for want of a goal. -/
theorem Report.queryUnder_ne_goalNotDerived {d : Derivation.Conclusion} {st : EncoderSettings}
    {title : Option String} (hd : r.goalConclusion = some d) (g : Option PieceId) :
    r.queryUnder st title ≠ .error (.goalNotDerived g) := by
  intro h
  rw [queryUnder, hd] at h
  cases ho : st.options with
  | error f =>
    simp only [ho, Except.error.injEq] at h
    rw [EncoderSettings.options] at ho
    split at ho
    · exact absurd ho (by simp)
    · exact absurd ((Except.error.inj ho).trans h) (by simp)
  | ok o =>
    simp only [ho, query, hd] at h
    obtain ⟨c, piece, hclash⟩ := Query.Entailment.exists_clash h
    exact absurd hclash (by simp)

/-- A query is put to the solver, or its time limit is of no use. -/
theorem Solver.Dialogue.submit_eq_or (q : Query) (t : Value) :
    Dialogue.submit q t = .ask q t .done ∨
      ∃ f, Dialogue.submit q t = .fail f ∧ ∀ g, f ≠ .query g := by
  have hjudge : judgeTimeout t = .ok () ∨ ∃ f, judgeTimeout t = .error f ∧ ∀ g, f ≠ .query g := by
    rw [judgeTimeout]
    split
    · exact .inr ⟨_, rfl, by simp⟩
    · split
      · exact .inr ⟨_, rfl, by simp⟩
      · exact .inl rfl
  rw [submit]
  rcases hjudge with h | ⟨f, h, hf⟩ <;> rw [h]
  · exact .inl rfl
  · exact .inr ⟨f, rfl, hf⟩

theorem CheckJob.kind_verdict (j : CheckJob) (st : EncoderSettings) (a : Answer) :
    (j.verdict st a).kind = if a.status = .unsat then .valid else .unknown := by
  rw [Verdict.kind, verdict, judgement]
  cases a.status <;> rfl

namespace Board

section Equations

variable {st : Settings}

theorem verify_of_violations (hr : (b.review st.checker).1 = .ok r) (h : r.violations ≠ []) :
    b.verify st = .done ⟨.invalid r.violations, r.revision⟩ := by
  simp only [verify, prepareCheck, hr, prepareFrom, List.isEmpty_iff, if_neg h, Prepared.verify]

theorem verify_of_fault (hr : (b.review st.checker).1 = .ok r) (h : r.violations = [])
    {f : Query.Fault}
    (hq : r.queryUnder st.encoder (some (b.proofName ++ " rev " ++ toString r.revision)) =
      .error f) : b.verify st = .fail (.query f) := by
  simp only [verify, prepareCheck, hr, prepareFrom, List.isEmpty_iff, if_pos h, hq]

theorem verify_of_query (hr : (b.review st.checker).1 = .ok r) (h : r.violations = []) {q : Query}
    (hq : r.queryUnder st.encoder (some (b.proofName ++ " rev " ++ toString r.revision)) = .ok q) :
    b.verify st = (Dialogue.submit q st.solver.checkTimeout).bind fun a =>
      .done (CheckJob.verdict ⟨r.revision, q, b.proofName⟩ st.encoder a) := by
  simp only [verify, prepareCheck, hr, prepareFrom, List.isEmpty_iff, if_pos h, hq, Prepared.verify]

/-- What a report decides about a board under settings. -/
def decided (b : Board) (st : Settings) (r : Report) : Dialogue VerdictKind :=
  if r.violations = [] then
    match r.queryUnder st.encoder (some (b.proofName ++ " rev " ++ toString r.revision)) with
    | .error f => .fail (.query f)
    | .ok q => (Dialogue.submit q st.solver.checkTimeout).bind fun a =>
      .done (if a.status = .unsat then .valid else .unknown)
  else .done .invalid

theorem kind_verify (hr : (b.review st.checker).1 = .ok r) :
    (b.verify st).bind (fun v => .done v.kind) = b.decided st r := by
  rw [decided]
  by_cases h : r.violations = []
  · rw [if_pos h]
    cases hq : r.queryUnder st.encoder (some (b.proofName ++ " rev " ++ toString r.revision)) with
    | error f =>
      rw [verify_of_fault hr h hq]
      rfl
    | ok q =>
      rw [verify_of_query hr h hq]
      dsimp only
      rcases Dialogue.submit_eq_or q st.solver.checkTimeout with hs | ⟨f, hs, -⟩ <;> rw [hs]
      · simp only [Dialogue.bind, CheckJob.kind_verdict]
      · rfl
  · rw [if_neg h, verify_of_violations hr h]
    rfl

end Equations

/-- How the report on a board under settings and the answer of the solver decide about it. -/
structure Decided (b : Board) (st : Settings) (r : Report) : Prop where
  /-- There are no violations exactly when the goal is proved. -/
  proved : r.violations = [] ↔ b.Proved st.checker
  /-- A piece in violation contributes the violation of its status and no other. -/
  own : ∀ i v, b.statuses.status? i = some (.violated v) →
    v.piece = some i ∧ r.violationsFor i = [v]
  ordered : r.violations.Pairwise Violation.Before
  /-- The only violation of the board as a whole is the lack of a goal. -/
  whole : r.violations.filter (fun v => v.piece = none) =
    if b.goal = none then [⟨none, .noGoal⟩] else []
  ready : r.isSound = r.isReady
  verdict : (b.verify st).bind (fun v => .done v.kind) = b.decided st r
  invalid : ∀ v, b.verify st = .done v → v = ⟨.invalid r.violations, r.revision⟩

/-- A check never finds that a query is wanted of a goal that is not derived. -/
theorem run_verify_ne_goalNotDerived (h : b.WellFormed) (st : Settings) {σ : Type}
    (solve : Query → Value → σ → Answer × σ) (x : σ) (g : Option PieceId) :
    ((b.verify st).run solve x).1 ≠ .error (.query (.goalNotDerived g)) := by
  intro hrun
  cases hr : (b.review st.checker).1 with
  | error d =>
    simp [verify, prepareCheck, hr, Dialogue.run] at hrun
  | ok r =>
    by_cases hsound : r.violations = []
    · obtain ⟨d, hd⟩ := goalConclusion_of_no_violations h hr hsound
      cases hq : r.queryUnder st.encoder
          (some (b.proofName ++ " rev " ++ toString r.revision)) with
      | error f =>
        rw [verify_of_fault hr hsound hq] at hrun
        obtain rfl : f = .goalNotDerived g := by simpa [Dialogue.run] using hrun
        exact Report.queryUnder_ne_goalNotDerived hd g hq
      | ok q =>
        rw [verify_of_query hr hsound hq] at hrun
        rcases Dialogue.submit_eq_or q st.solver.checkTimeout with hs | ⟨f, hs, hf⟩ <;>
          rw [hs] at hrun
        · exact absurd hrun (by simp [Dialogue.bind, Dialogue.run])
        · exact hf _ (Except.error.inj hrun)
    · rw [verify_of_violations hr hsound] at hrun
      exact absurd hrun (by simp [Dialogue.run])

/-- The verdict on a board is decided by the report of its rules and the status that the solver
answers with. -/
theorem verdict_decided (hb : b.Reachable) :
    (b.Typed → ∀ c, ∃ r, (b.review c).1 = .ok r) ∧
    (∀ st r, (b.review st.checker).1 = .ok r → b.Decided st r) ∧
    ∀ st g (σ : Type) (solve : Query → Value → σ → Answer × σ) (x : σ),
      ((b.verify st).run solve x).1 ≠ .error (.query (.goalNotDerived g)) := by
  obtain ⟨hwf, hcurrent⟩ := hb.invariant
  refine ⟨fun ht c => ht.exists_review hcurrent c, fun st r hr => ?_,
    fun st g σ solve x => run_verify_ne_goalNotDerived hwf st solve x g⟩
  refine ⟨violations_eq_nil_iff hwf hcurrent hr, fun i v => violationsFor_of_violated hwf hcurrent hr,
    ?_, violations_without_piece hwf hcurrent hr, ?_, kind_verify hr, fun v hv => ?_⟩
  · rw [violations_of_review hr]
    exact pairwise_sortViolations _
  · rw [Report.isReady]
    cases hsound : r.isSound with
    | false => rfl
    | true =>
      have hnil := List.isEmpty_iff.mp hsound
      obtain ⟨d, hd⟩ := goalConclusion_of_no_violations hwf hr hnil
      have htarget : r.target = some d.formula := by
        rw [(report_of_review hr).2]
        exact (target_of_no_violations hr hnil hd).2.1
      simp [Report.goalMatches, hd, htarget]
  · by_cases h : r.violations = []
    · cases hq : r.queryUnder st.encoder (some (b.proofName ++ " rev " ++ toString r.revision)) with
      | error f => exact absurd (hv.symm.trans (verify_of_fault hr h hq)) (by simp)
      | ok q =>
        rw [verify_of_query hr h hq] at hv
        rcases Dialogue.submit_eq_or q st.solver.checkTimeout with hs | ⟨f, hs, -⟩ <;>
          rw [hs] at hv <;> exact absurd hv (by simp [Dialogue.bind])
    · exact Dialogue.done.inj (hv.symm.trans (verify_of_violations hr h))

/-- A board without a goal on which a disjunction lacks its other disjunct. -/
def goalless : Board :=
  let f : Formula := .atom "P" []
  Action.runAll (empty (some f) (some [some f]) none Palette.full)
    [.edit (.add (.text "assumption") (some (.cell (0, 0))) [("formula", .formula (some f))]),
      .edit (.add (.text "or_intro") (some (.cell (0, 1))) []), .edit (.wire 2 0 1)]

theorem verdict_decided_goalless :
    (∃ r, (goalless.review .standard).1 = .ok r ∧
      r.violations = [⟨none, .noGoal⟩, ⟨some 2, .missingParameter .orIntro "other"⟩] ∧
      goalless.Decided .standard r ∧ ¬ goalless.Proved .standard) ∧
    ∃ r, (universalIdentity.review .standard).1 = .ok r ∧ universalIdentity.Decided .standard r ∧
      universalIdentity.Proved .standard ∧ r.isReady = true := by
  constructor
  · have hb : goalless.Reachable := ⟨_, _, _, _, _, rfl⟩
    obtain ⟨htyped, hdecided, -⟩ := verdict_decided hb
    have hparams : goalless.pieces.map Piece.params =
        [{ Params.empty with formula := some (.atom "P" []) }, Params.empty] := by decide_cbv
    have hnames : ∀ p ∈ goalless.pieces, p.params.TextNames := by
      rw [← List.forall_mem_map (P := Params.TextNames), hparams]
      simp [Params.TextNames, Params.empty]
    have hpremises : goalless.premises = some [some (.atom "P" [])] := by decide_cbv
    have hdeclared : ∀ fs, goalless.premises = some fs → ∀ f ∈ fs, f.isSome = true := by
      rintro fs hfs
      obtain rfl := Option.some.inj (hpremises.symm.trans hfs)
      simp
    obtain ⟨r, hr⟩ := htyped ⟨by decide_cbv, hdeclared, hnames⟩ .standard
    have hviolations : r.violations =
        [⟨none, .noGoal⟩, ⟨some 2, .missingParameter .orIntro "other"⟩] := by
      rw [(report_of_review hr).2]
      decide_cbv
    have hd := hdecided .standard r hr
    refine ⟨r, hr, hviolations, hd, fun hproved => ?_⟩
    exact absurd (hviolations.symm.trans (hd.proved.mpr hproved)) (by simp)
  · have hb : universalIdentity.Reachable := ⟨_, _, _, _, _, rfl⟩
    obtain ⟨-, hdecided, -⟩ := verdict_decided hb
    have hr : (universalIdentity.review .standard).1 = .ok (universalIdentity.check .standard).1 :=
      congrArg Prod.fst (review_eq_check (by decide_cbv) (by decide_cbv))
    have hd := hdecided .standard _ hr
    have hsound : (universalIdentity.check .standard).1.violations = [] := by decide_cbv
    exact ⟨_, hr, hd, hd.proved.mp hsound, hd.ready ▸ List.isEmpty_iff.mpr hsound⟩

end Board

end DeductionBoard
