import DeductionBoard.Proofs.Derivation.Incremental
import DeductionBoard.Proofs.Formula.Semantics
import DeductionBoard.Verify.Check
import Mathlib

/-! Soundness of the rules. What a piece derives holds in every structure and under every valuation
in which its open assumptions hold. Where the policy of the goal looks at the premises of a puzzle, a
board that is ready for the solver therefore proves its target from them, and so does every board
that is found valid. -/

namespace DeductionBoard

open DeductionBoard.Derivation

universe u

variable {b : Board} {i : PieceId} {d : Conclusion} {s : Statuses} {c : CheckerSettings} {r : Report}

/-! ### Rules -/

namespace Derivation.Context

variable {D : Type u} {M : Structure D} {ρ : String → D} {ps : List Conclusion}

/-- What a list of assumptions assumes holds. -/
def Satisfies (b : Board) (M : Structure D) (ρ : String → D) (open_ : List PieceId) : Prop :=
  ∀ a ∈ open_, ∀ g, b.assumed? a = some g → g.Holds M ρ

/-- Assumptions do not see a change of names that they keep apart from. -/
theorem Apart.satisfies_update {ctx : Context} {names : List String} {open_ : List PieceId}
    (h : ctx.Apart names open_) {x : String} (hx : x ∈ names) {e : D}
    (hs : Satisfies ctx.board M ρ open_) :
    Satisfies ctx.board M (Function.update ρ x e) open_ := fun a ha g hg =>
  (Formula.holds_update_of_notMem (h a ha g hg x hx) e).mpr (hs a ha g hg)

/-- A hypothesis that holds may stand open again. -/
theorem satisfies_of_discharge {ctx : Context} {h : Formula} {open_ : List PieceId}
    (hh : h.Holds M ρ) (hs : Satisfies ctx.board M ρ (ctx.discharge h open_)) :
    Satisfies ctx.board M ρ open_ := by
  intro a ha g hg
  by_cases hgh : g = h
  · exact hgh ▸ hh
  · refine hs a (List.mem_filter.mpr ⟨ha, ?_⟩) g hg
    rw [decide_eq_true_eq, hg]
    exact fun heq => hgh (Option.some.inj heq)

/-- A term may be renamed to a name that is not free, together with its value. -/
theorem holds_abstracted {f body : Formula} {v t : String} (hfree : t ≠ v → v ∉ f.freeVars)
    (hbody : f.substitute t v = some body) :
    body.Holds M (Function.update ρ v (ρ t)) ↔ f.Holds M ρ := by
  rw [Formula.holds_substitute hbody, Function.update_self]
  refine Formula.holds_congr fun x hx => ?_
  by_cases hxt : x = t
  · rw [hxt, Function.update_self]
  · have hxv : x ≠ v := by
      rintro rfl
      exact hfree (Ne.symm hxt) hx
    rw [Function.update_of_ne hxt, Function.update_of_ne hxv]

/-- Every rule keeps what holds under all valuations. -/
theorem Derives.holds {ctx : Context} (h : ctx.Derives ps d)
    (hself : ctx.board.assumed? ctx.piece.id = ctx.piece.params.formula)
    (hps : ∀ p ∈ ps, ∀ ρ : String → D, Satisfies ctx.board M ρ p.assumptions → p.formula.Holds M ρ)
    (hs : Satisfies ctx.board M ρ d.assumptions) : d.formula.Holds M ρ := by
  cases h with
  | @assumption _ f _ hf => exact hs _ List.mem_cons_self f (hself.trans hf)
  | goal _ => exact hps _ List.mem_cons_self ρ hs
  | conjunction _ =>
    constructor
    · exact hps _ List.mem_cons_self ρ fun a ha => hs a (Ascending.mem_union.mpr (.inl ha))
    · exact hps _ (List.mem_cons_of_mem _ List.mem_cons_self) ρ fun a ha =>
        hs a (Ascending.mem_union.mpr (.inr ha))
  | disjunctionLeft _ _ _ => exact .inl (hps _ List.mem_cons_self ρ hs)
  | disjunctionRight _ _ _ => exact .inr (hps _ List.mem_cons_self ρ hs)
  | implication _ _ =>
    intro hh
    exact hps _ List.mem_cons_self ρ (satisfies_of_discharge hh hs)
  | @negation p q h _ _ hq =>
    intro hh
    have hopen := satisfies_of_discharge hh hs
    have hp : p.formula.Holds M ρ := hps p List.mem_cons_self ρ fun a ha =>
      hopen a (Ascending.mem_union.mpr (.inl ha))
    have hnp : q.formula.Holds M ρ := hps q (List.mem_cons_of_mem _ List.mem_cons_self) ρ
      fun a ha => hopen a (Ascending.mem_union.mpr (.inr ha))
    rw [hq] at hnp
    exact hnp hp
  | @quantification p q v t body _ _ _ _ _ hfree hbody hapart =>
    cases q with
    | all =>
      intro e
      -- the premise holds whatever the term and the variable stand for
      have hv := hapart.satisfies_update (x := v) (e := e) (by simp [eigenNames]) hs
      have ht := hapart.satisfies_update (x := t) (e := e) (by simp [eigenNames]) hv
      rw [Formula.holds_substitute hbody, Function.update_self]
      exact hps p List.mem_cons_self _ ht
    | exist =>
      exact ⟨ρ t, (holds_abstracted hfree hbody).mpr (hps p List.mem_cons_self ρ hs)⟩
  | @vacuous p v _ _ _ _ _ _ _ =>
    have hp : p.formula.Holds M (Function.update ρ v (ρ v)) := by
      rw [Function.update_eq_self]
      exact hps p List.mem_cons_self ρ hs
    exact ⟨ρ v, hp⟩

end Derivation.Context

namespace Board

open Derivation.Context

/-- What a table that follows the rules derives holds where its open assumptions hold. -/
theorem holds_of_conclusion? (h : b.WellFormed)
    (hs : ∀ i p, b.piece? i = some p → s.status? i = some (statusOf b p s)) (hi : i ∈ b.ids)
    (hd : s.conclusion? i = some d) {D : Type u} {M : Structure D} {ρ : String → D}
    (hopen : Satisfies b M ρ d.assumptions) : d.formula.Holds M ρ := by
  induction i using h.wellFounded.induction generalizing d ρ with
  | _ i ih =>
  obtain ⟨p, hp⟩ := exists_piece? hi
  refine (derives_of_conclusion? hs hp hd).2.holds ?_ (fun e he σ hσ => ?_) hopen
  · obtain rfl := id_of_piece? hp
    rw [assumed?, hp, Option.bind_some]
  · obtain ⟨j, hj, hje⟩ := List.mem_filterMap.mp he
    have hji := feeds_of_mem_premises hp hj
    exact ih j hji (h.wired j i hji) hje hσ

/-! ### The policy of the goal -/

theorem report_of_review (h : (b.review c).1 = .ok r) :
    b.lacksFormula c = false ∧ r = b.reportOf c b.statuses := by
  rw [review] at h
  split at h
  · exact absurd h (by simp)
  · cases hl : b.lacksFormula c with
    | true =>
      rw [hl] at h
      exact absurd h (by simp)
    | false =>
      rw [hl] at h
      exact ⟨rfl, (Except.ok.inj h).symm⟩

theorem statuses_of_review (h : (b.review c).1 = .ok r) : r.statuses = b.statuses := by
  rw [(report_of_review h).2]
  rfl

/-- A review names every piece that it finds in violation. -/
theorem mem_violations_of_review (hr : (b.review c).1 = .ok r) {v : Violation}
    (hi : r.statuses.status? i = some (.violated v)) : v ∈ r.violations := by
  obtain ⟨-, rfl⟩ := report_of_review hr
  refine List.mem_mergeSort.mpr (List.mem_append_left _ (List.mem_filterMap.mpr ?_))
  exact ⟨(i, .violated v), Statuses.mem_of_status? hi, rfl⟩

theorem sortViolations_eq_nil_iff {vs : List Violation} : sortViolations vs = [] ↔ vs = [] := by
  constructor
  · intro h
    have hlength := congrArg List.length h
    rw [sortViolations, List.length_mergeSort] at hlength
    exact List.length_eq_zero_iff.mp hlength
  · rintro rfl
    exact List.mergeSort_nil

/-- A board without violations whose goal is derived derives its target, and only premises are open
where the policy looks at them. -/
theorem target_of_no_violations (hr : (b.review c).1 = .ok r) (hsound : r.violations = [])
    (hd : r.goalConclusion = some d) :
    (∃ g, b.goal = some g ∧ b.statuses.conclusion? g = some d) ∧ b.target = some d.formula ∧
      (b.judgesPremises c = true → ∀ a ∈ d.assumptions, ∀ f, b.assumed? a = some f →
        f ∈ b.declared) := by
  obtain ⟨hlacks, rfl⟩ := report_of_review hr
  obtain ⟨g, hg, hgd⟩ := Option.bind_eq_some_iff.mp hd
  have hg : b.goal = some g := hg
  have hgd : b.statuses.conclusion? g = some d := hgd
  have hstatus := Statuses.conclusion?_eq_some_iff.mp hgd
  have hgoal : b.goalMismatch g d.formula = [] ∧
      (b.judgesPremises c = true → b.undeclared d.assumptions = []) := by
    have hnone := (List.append_eq_nil_iff.mp (sortViolations_eq_nil_iff.mp hsound)).2
    rw [goalViolations, hg] at hnone
    simp only [hstatus, Conclusion.status, List.append_eq_nil_iff] at hnone
    refine ⟨hnone.1, fun hjudges => ?_⟩
    simpa [hjudges] using hnone.2
  refine ⟨⟨g, hg, hgd⟩, ?_, fun hjudges a ha f hf => ?_⟩
  · have hmismatch := hgoal.1
    rw [goalMismatch] at hmismatch
    split at hmismatch
    · assumption
    · cases htarget : b.target with
      | some t =>
        rw [htarget] at hmismatch
        exact absurd hmismatch (by simp)
      | none => simp [lacksFormula, hg, hstatus, Conclusion.status, htarget] at hlacks
  · by_contra hnot
    have hopen := List.filterMap_eq_nil_iff.mp (hgoal.2 hjudges) a ha
    simp [hf, hnot] at hopen

/-- Such a board proves its target from its premises. -/
theorem entails_of_no_violations (hwf : b.WellFormed) (hcurrent : b.Current)
    (hjudges : b.judgesPremises c = true) (hr : (b.review c).1 = .ok r) (hsound : r.violations = [])
    (hd : r.goalConclusion = some d) :
    ∃ t, b.target = some t ∧ Formula.Entails.{u} b.declared t := by
  obtain ⟨⟨g, hg, hgd⟩, htarget, hdeclared⟩ := target_of_no_violations hr hsound hd
  refine ⟨d.formula, htarget, fun D M ρ hρ => ?_⟩
  obtain ⟨p, hp, -⟩ := hwf.goal g hg
  refine holds_of_conclusion? hwf (fun i p hp => hcurrent.status?_statuses hwf hp)
    (mem_ids_of_piece? hp) hgd fun a ha f hf => hρ f (hdeclared hjudges a ha f hf)

/-- Only a board without violations whose goal is derived is found valid. -/
theorem sound_of_isValid {st : Settings} {σ : Type} {solve : Query → Value → σ → Solver.Answer × σ}
    {x : σ} {v : Verdict} (h : ((b.verify st).run solve x).1 = .ok v) (hv : v.isValid = true) :
    ∃ r d, (b.review st.checker).1 = .ok r ∧ r.violations = [] ∧ r.goalConclusion = some d := by
  unfold verify prepareCheck at h
  cases hr : (b.review st.checker).1 with
  | error e =>
    simp only [hr] at h
    exact absurd h (by simp [Solver.Dialogue.run])
  | ok r =>
    simp only [hr, prepareFrom] at h
    cases hempty : r.violations.isEmpty with
    | false =>
      simp only [hempty, Bool.false_eq_true, if_false, Prepared.verify, Solver.Dialogue.run,
        Except.ok.injEq] at h
      rw [← h] at hv
      exact absurd hv (by simp [Verdict.isValid, Verdict.kind, Judgement.kind])
    | true =>
      cases hd : r.goalConclusion with
      | none =>
        simp only [hempty, if_true, Report.queryUnder, hd] at h
        exact absurd h (by simp [Solver.Dialogue.run])
      | some d => exact ⟨r, d, rfl, List.isEmpty_iff.mp hempty, hd⟩

/-- What the rules derive holds wherever its open assumptions hold. So a board that is ready for the
solver, or that is found valid with the help of any solver, proves its target from its premises. -/
theorem rules_sound (hb : b.Reachable) :
    (∀ i f S, b.statuses.status? i = some (.derived f S) →
      (∀ a ∈ S, ∃ p g, b.piece? a = some p ∧ p.kind = .assumption ∧ p.params.formula = some g) ∧
        ∀ (D : Type u) (M : Structure D) (ρ : String → D),
          (∀ a ∈ S, ∀ g, b.assumed? a = some g → g.Holds M ρ) → f.Holds M ρ) ∧
      ∀ c : CheckerSettings, c.requireDeclared.holds = true → b.premises.isSome = true →
        (∀ r, (b.review c).1 = .ok r → r.statuses = b.statuses ∧
          (r.isReady = true → ∃ t, b.target = some t ∧ Formula.Entails.{u} b.declared t)) ∧
        ∀ st : Settings, st.checker = c →
          ∀ (σ : Type) (solve : Query → Value → σ → Solver.Answer × σ) (x : σ) (v : Verdict),
            ((b.verify st).run solve x).1 = .ok v → v.isValid = true →
              ∃ t, b.target = some t ∧ Formula.Entails.{u} b.declared t := by
  obtain ⟨hwf, hcurrent⟩ := hb.invariant
  have hs : ∀ i p, b.piece? i = some p → b.statuses.status? i = some (statusOf b p b.statuses) :=
    fun i p hp => hcurrent.status?_statuses hwf hp
  refine ⟨fun i f S hi => ?_, fun c hrequire hpremises => ?_⟩
  · have hmem : i ∈ b.ids := by
      by_contra hnot
      rw [(status?_statuses_eq_none_iff hwf).mpr hnot] at hi
      exact absurd hi (by simp)
    have hd : b.statuses.conclusion? i = some ⟨f, S⟩ := Statuses.conclusion?_eq_some_iff.mpr hi
    exact ⟨fun a ha => exists_assumption hwf hs hmem hd ha,
      fun D M ρ hopen => holds_of_conclusion? hwf hs hmem hd hopen⟩
  · have hjudges : b.judgesPremises c = true := by
      rw [judgesPremises, hrequire, hpremises, Bool.and_self]
    refine ⟨fun r hr => ⟨by rw [(report_of_review hr).2]; rfl, fun hready => ?_⟩,
      fun st hst σ solve x v hrun hvalid => ?_⟩
    · rw [Report.isReady, Bool.and_eq_true, Report.isSound, Report.goalMatches,
        Option.any_eq_true] at hready
      obtain ⟨hsound, d, hd, -⟩ := hready
      exact entails_of_no_violations hwf hcurrent hjudges hr (List.isEmpty_iff.mp hsound) hd
    · obtain ⟨r, d, hr, hsound, hd⟩ := sound_of_isValid hrun hvalid
      exact entails_of_no_violations hwf hcurrent (hst ▸ hjudges) hr hsound hd

/-- An answer of the solver that a query is unsatisfiable makes the verdict valid. -/
theorem isValid_of_unsat (st : Settings) {q : Query} {a : Solver.Answer}
    (hr : (b.review st.checker).1 = .ok r) (hsound : r.violations = [])
    (hq : r.queryUnder st.encoder (some (b.proofName ++ " rev " ++ toString r.revision)) = .ok q)
    (ht : Solver.judgeTimeout st.solver.checkTimeout = .ok ()) (ha : a.status = .unsat) :
    ∃ v, ((b.verify st).run (fun _ _ _ => (a, ())) ()).1 = .ok v ∧ v.isValid = true := by
  simp only [verify, prepareCheck, hr, prepareFrom, hsound, List.isEmpty_nil, if_true, hq,
    Prepared.verify, Solver.Dialogue.submit, ht, Solver.Dialogue.bind, Solver.Dialogue.run]
  exact ⟨_, rfl, by simp [CheckJob.verdict, CheckJob.judgement, ha, Verdict.isValid, Verdict.kind,
    Judgement.kind]⟩

/-- A board that proves a universal over an implication from a formula to itself: the assumption is
discharged, and its term is abstracted once no assumption speaks about it any more. -/
def universalIdentity : Board :=
  let f : Formula := .atom "P" ["a"]
  let g : Formula := .atom "P" ["x"]
  Action.runAll (empty (some (.all "x" (.imp g g))) (some []) none Palette.full)
    [.edit (.add (.text "assumption") (some (.cell (0, 0))) [("formula", .formula (some f))]),
      .edit (.add (.text "implies_intro") (some (.cell (0, 1)))
        [("hypothesis", .formula (some f))]),
      .edit (.add (.text "forall_intro") (some (.cell (0, 2)))
        [("variable", .raw (.text "x")), ("term", .raw (.text "a"))]),
      .edit (.add (.text "goal") (some (.cell (0, 3))) []),
      .edit (.wire 2 0 1), .edit (.wire 3 0 2), .edit (.wire 4 0 3), .check .standard]

theorem rules_sound_universalIdentity :
    (∃ f S, universalIdentity.statuses.status? 3 = some (.derived f S) ∧
      ∀ (D : Type) (M : Structure D) (ρ : String → D), f.Holds M ρ) ∧
      (∃ r, (universalIdentity.review .standard).1 = .ok r ∧ r.isReady = true ∧
        ∃ t, universalIdentity.target = some t ∧
          Formula.Entails.{0} universalIdentity.declared t) ∧
      ∃ (a : Solver.Answer) (v : Verdict),
        ((universalIdentity.verify .standard).run (fun _ _ _ => (a, ())) ()).1 = .ok v ∧
          v.isValid = true ∧ ∃ t, universalIdentity.target = some t ∧
            Formula.Entails.{0} universalIdentity.declared t := by
  have hb : universalIdentity.Reachable := ⟨_, _, _, _, _, rfl⟩
  have hr : (universalIdentity.review .standard).1 = .ok (universalIdentity.check .standard).1 :=
    congrArg Prod.fst (review_eq_check (by decide_cbv) (by decide_cbv))
  have hready : (universalIdentity.check .standard).1.isReady = true := by decide_cbv
  obtain ⟨hderived, hpolicy⟩ := rules_sound.{0} hb
  obtain ⟨hreport, hverify⟩ := hpolicy .standard rfl (by decide_cbv)
  refine ⟨?_, ⟨_, hr, hready, (hreport _ hr).2 hready⟩, ?_⟩
  · have hstatus : universalIdentity.statuses.status? 3 =
        some (.derived (.all "x" (.imp (.atom "P" ["x"]) (.atom "P" ["x"]))) []) := by
      decide_cbv
    exact ⟨_, _, hstatus, fun D M ρ => (hderived 3 _ _ hstatus).2 D M ρ (by simp)⟩
  · obtain ⟨q, hq⟩ : ∃ q, (universalIdentity.check .standard).1.queryUnder .standard
        (some (universalIdentity.proofName ++ " rev " ++
          toString (universalIdentity.check .standard).1.revision)) = .ok q := by
      cases hq : (universalIdentity.check .standard).1.queryUnder .standard _ with
      | error e =>
        have hok : ((universalIdentity.check .standard).1.queryUnder .standard
            (some (universalIdentity.proofName ++ " rev " ++
              toString (universalIdentity.check .standard).1.revision))).isOk = true := by
          decide_cbv
        rw [hq] at hok
        exact absurd hok Bool.false_ne_true
      | ok q => exact ⟨q, rfl⟩
    obtain ⟨v, hv, hvalid⟩ := isValid_of_unsat .standard (a := .plain "z3" .unsat "")
      hr (by decide_cbv) hq (by decide_cbv) rfl
    exact ⟨_, v, hv, hvalid, hverify .standard rfl _ _ _ v hv hvalid⟩

end Board

end DeductionBoard
