import DeductionBoard.Proofs.Data.Steps
import DeductionBoard.Proofs.Formula.Semantics
import DeductionBoard.Proofs.Solver.Dialogue
import DeductionBoard.Verify.Hint
import Mathlib

/-! Countermodels of hints. A hint that the goal does not follow reports a model that the solver gave for
one of the queries before it. Main result: this is the query about everything that is available, unless
exactly one premise may still be placed; then it is the query without this premise, although the query
with it was asked too. -/

namespace DeductionBoard

open Solver Dialogue

namespace Query

/-- The query of a sketch is about the formulas of the sketch. -/
theorem of_sketch_query {o : Options} {s : Sketch} {label : Nat → String} {title : String} {q : Query}
    (h : s.query o label title = .ok q) :
    q.hypotheses.map some = s.hypotheses ∧ some q.conclusion = s.goal := by
  rw [Sketch.query] at h
  split at h
  · exact nomatch h
  next hs g hcomplete =>
  have hformulas : hs.map some = s.hypotheses ∧ some g = s.goal := by
    rw [Sketch.complete?] at hcomplete
    split at hcomplete
    · next hs' g' hhypotheses hgoal =>
      obtain ⟨rfl, rfl⟩ := Prod.mk.inj (Option.some.inj hcomplete)
      have hsame := mapM_eq_some_iff.mp hhypotheses
      rw [List.map_id'] at hsame
      exact ⟨hsame.symm, hgoal.symm⟩
    · exact nomatch hcomplete
  rw [Entailment.query] at h
  split at h
  · exact nomatch h
  · obtain rfl := Except.ok.inj h
    refine ⟨?_, hformulas.2⟩
    rw [← hformulas.1, Entailment.formulas]
    refine congrArg _ (List.ext_getElem (by simp) fun i hi hi' => ?_)
    simp

end Query

namespace HintJob

variable {j : HintJob} {s : Settings} {goal : Formula} {h : Hint} {es : List (Query × Answer)}
  {e : Query × Answer} {a : Answer} {m : Model} {hs ps : List (Option Formula)}

/-! ### Questions -/

/-- The solver was asked whether the hypotheses entail the goal of the job. -/
def Asked (j : HintJob) (hs : List (Option Formula)) (e : Query × Answer) : Prop :=
  e.1.hypotheses.map some = hs ∧ some e.1.conclusion = j.goal

/-- The solver found a model in which the hypotheses hold and the goal does not. -/
def Refuted (j : HintJob) (hs : List (Option Formula)) (e : Query × Answer) : Prop :=
  j.Asked hs e ∧ e.2.status = .sat

/-- A question is one exchange with the solver. -/
theorem exists_of_course_ask (h : (j.ask s hs).Course es a) :
    ∃ q, es = [(q, a)] ∧ j.Asked hs (q, a) := by
  obtain ⟨es₁, o, es', rfl, ho, hrest⟩ := exists_of_course_bind h
  obtain ⟨es₂, q, es₃, rfl, hq, hsubmit⟩ := exists_of_course_bind hrest
  obtain ⟨rfl, -⟩ := of_course_ofExcept ho
  obtain ⟨rfl, hquery⟩ := of_course_ofExcept hq
  obtain rfl := of_course_submit hsubmit
  exact ⟨q, rfl, Query.of_sketch_query hquery⟩

/-! ### Hints that the goal does not follow -/

theorem kind_of_suggest {s : SearchSettings} (hh : j.suggest s goal = .ok h) :
    h.kind ≠ .blockingConstraint := by
  obtain ⟨o, -, rfl⟩ := exists_of_map_eq_ok hh
  rw [hintOf.eq_def]
  split
  · split <;> exact fun hkind => nomatch hkind
  · split <;> exact fun hkind => nomatch hkind

/-- A premise that makes the goal follow is no obstacle: where the hint is one, the solver found a model
with each of the premises alone, and the hint comes from what is done next. -/
theorem exists_of_course_tryPremises {otherwise : Dialogue Hint}
    (hc : (j.tryPremises s otherwise ps).Course es h) (hkind : h.kind = .blockingConstraint) :
    ∃ es₁ es₂, es = es₁ ++ es₂ ∧ otherwise.Course es₂ h ∧
      ∀ p ∈ ps, ∃ e ∈ es₁, j.Refuted (j.given ++ [p]) e := by
  induction ps generalizing es with
  | nil => exact ⟨[], es, rfl, hc, fun p hp => absurd hp List.not_mem_nil⟩
  | cons p ps ih =>
    obtain ⟨es₁, a, es₂, rfl, hask, hrest⟩ := exists_of_course_bind hc
    obtain ⟨q, rfl, hasked⟩ := exists_of_course_ask hask
    split at hrest
    · cases p with
      | some f =>
        cases hrest
        exact nomatch hkind
      | none => exact nomatch hrest
    · next hsat =>
      obtain ⟨es₃, es₄, rfl, hother, hall⟩ := ih hrest
      refine ⟨(q, a) :: es₃, es₄, rfl, hother, List.forall_mem_cons.mpr ⟨?_, fun p' hp' => ?_⟩⟩
      · exact ⟨(q, a), List.mem_cons_self, hasked, hsat⟩
      · obtain ⟨e, he, hrefuted⟩ := hall p' hp'
        exact ⟨e, List.mem_cons_of_mem _ he, hrefuted⟩
    · cases hrest
      exact nomatch hkind

/-- The model that is reported is the one at hand, unless there are several premises; then it is the one
for all of them together. -/
theorem of_course_tryTogether (hc : (j.tryTogether s goal m).Course es h)
    (hkind : h.kind = .blockingConstraint) :
    (j.placeable.length ≤ 1 ∧ es = [] ∧ h.countermodel = m) ∨
      (1 < j.placeable.length ∧ ∃ e, es = [e] ∧ j.Refuted (j.given ++ j.placeable) e ∧
        h.countermodel = e.2.model) := by
  rw [tryTogether] at hc
  split at hc
  · next hseveral =>
    obtain ⟨es₁, a, es₂, rfl, hask, hrest⟩ := exists_of_course_bind hc
    obtain ⟨q, rfl, hasked⟩ := exists_of_course_ask hask
    split at hrest
    · exact absurd hkind (kind_of_suggest (of_course_ofDefect hrest).2)
    · next hsat =>
      cases hrest
      exact .inr ⟨hseveral, (q, a), rfl, ⟨hasked, hsat⟩, rfl⟩
    · cases hrest
      exact nomatch hkind
  · next hfew =>
    cases hc
    exact .inl ⟨Nat.le_of_not_lt hfew, rfl, rfl⟩

/-- What is available, as far as the reported model is concerned: a single premise is left out. -/
def reported (j : HintJob) : List (Option Formula) :=
  j.given ++ if j.placeable.length = 1 then [] else j.placeable

theorem exists_of_course_run (hearly : j.early = none) (hc : (j.run s).Course es h)
    (hkind : h.kind = .blockingConstraint) :
    (∃ e ∈ es, j.Refuted j.reported e ∧ h.countermodel = e.2.model) ∧
      ∀ p ∈ j.placeable, ∃ e ∈ es, j.Refuted (j.given ++ [p]) e := by
  rw [run, hearly] at hc
  obtain ⟨es₁, a, es₂, rfl, hask, hrest⟩ := exists_of_course_bind hc
  obtain ⟨q, rfl, hasked⟩ := exists_of_course_ask hask
  split at hrest
  swap
  · exact nomatch hrest
  rw [goOn.eq_def] at hrest
  split at hrest
  · exact absurd hkind (kind_of_suggest (of_course_ofDefect hrest).2)
  · next hsat =>
    obtain ⟨es₃, es₄, rfl, htogether, hall⟩ := exists_of_course_tryPremises hrest hkind
    refine ⟨?_, fun p hp => ?_⟩
    · rcases of_course_tryTogether htogether hkind with
        ⟨hfew, -, hmodel⟩ | ⟨hseveral, e, rfl, he, hmodel⟩
      · have hreported : j.reported = j.given := by
          rw [reported]
          split
          · exact List.append_nil _
          · next hone =>
            have hnone : j.placeable = [] := List.length_eq_zero_iff.mp (by omega)
            rw [hnone, List.append_nil]
        exact ⟨(q, a), List.mem_append_left _ List.mem_cons_self, hreported ▸ ⟨hasked, hsat⟩, hmodel⟩
      · have hreported : j.reported = j.given ++ j.placeable := by
          rw [reported, if_neg (Nat.ne_of_gt hseveral)]
        refine ⟨e, ?_, hreported ▸ he, hmodel⟩
        exact List.mem_append_right _ (List.mem_append_right _ List.mem_cons_self)
    · obtain ⟨e, he, hrefuted⟩ := hall p hp
      exact ⟨e, List.mem_append_right _ (List.mem_append_left _ he), hrefuted⟩
  · cases hrest
    exact nomatch hkind

end HintJob

namespace Board

variable {b : Board} {s : Settings} {goal : Option Formula} {σ : Type}
  {solve : Query → Value → σ → Answer × σ} {st : σ} {h : Hint}

/-- A hint that comes from the solver and says that the goal does not follow reports the model that the
solver gave for a query about the goal. Its hypotheses are the formulas at hand and all premises that may
still be placed, unless there is exactly one such premise: then they are the formulas at hand alone.
Each of these premises was asked about, and the solver gave a model in which it holds as well. -/
theorem countermodel_of_blocking (hh : ((b.hint s goal).run solve st).1 = .ok h)
    (hkind : h.kind = .blockingConstraint) (hasked : (b.hint s goal).exchanges solve st ≠ []) :
    ∃ j, b.prepareHint s.checker goal = .ok j ∧
      (∃ e ∈ (b.hint s goal).exchanges solve st,
        j.Refuted (j.given ++ if j.placeable.length = 1 then [] else j.placeable) e ∧
          h.countermodel = e.2.model) ∧
      ∀ p ∈ j.placeable, ∃ e ∈ (b.hint s goal).exchanges solve st, j.Refuted (j.given ++ [p]) e := by
  obtain ⟨es₁, j, es₂, hes, hprepare, hrun⟩ := exists_of_course_bind (course_of_run hh)
  obtain ⟨rfl, hj⟩ := of_course_ofDefect hprepare
  have hes : (b.hint s goal).exchanges solve st = es₂ := hes
  rw [hes] at hasked ⊢
  refine ⟨j, hj, HintJob.exists_of_course_run ?_ hrun hkind⟩
  cases hearly : j.early with
  | none => rfl
  | some h' =>
    rw [HintJob.run, hearly] at hrun
    cases hrun
    exact absurd rfl hasked

/-- An empty board with declared premises. -/
def openBoard (target : Formula) (premises : List Formula) : Board :=
  empty (some target) (some (premises.map some)) none Palette.full

/-- A hint on an empty board. -/
def openHint (target : Formula) (premises : List Formula) : Dialogue Hint :=
  (openBoard target premises).hint .standard none

/-- A solver that makes the propositions true that are hypotheses, and all others false. -/
def makeTrue (names : List String) (q : Query) (_ : Value) (st : Unit) : Answer × Unit :=
  ({ Answer.plain "oracle" .sat "" with
    model := names.map fun n => (n, if Formula.atom n [] ∈ q.hypotheses then "True" else "False") }, st)

theorem countermodel_of_two_premises :
    ∃ h, ((openHint (.atom "R" []) [.atom "P" [], .atom "Q" []]).run
        (makeTrue ["P", "Q", "R"]) ()).1 = .ok h ∧
      ∃ e ∈ (openHint (.atom "R" []) [.atom "P" [], .atom "Q" []]).exchanges (makeTrue ["P", "Q", "R"]) (),
        e.1.hypotheses.map some = [some (.atom "P" []), some (.atom "Q" [])] ∧
          h.countermodel = e.2.model := by
  have hh : ((openHint (.atom "R" []) [.atom "P" [], .atom "Q" []]).run
      (makeTrue ["P", "Q", "R"]) ()).1 = .ok (Hint.doesNotFollow (.atom "R" [])
        [("P", "True"), ("Q", "True"), ("R", "False")]) := by
    cbv
  have hasked : ((openHint (.atom "R" []) [.atom "P" [], .atom "Q" []]).exchanges
      (makeTrue ["P", "Q", "R"]) ()).length = 4 := by
    decide_cbv
  have havailable : ((openBoard (.atom "R" []) [.atom "P" [], .atom "Q" []]).prepareHint
      Settings.standard.checker none).map (fun j => (j.given, j.placeable)) =
        .ok ([], [some (.atom "P" []), some (.atom "Q" [])]) := by
    decide_cbv
  obtain ⟨j, hj, ⟨e, he, ⟨⟨hhypotheses, -⟩, -⟩, hmodel⟩, -⟩ :=
    countermodel_of_blocking hh rfl fun hnone =>
      absurd (hasked.symm.trans (congrArg List.length hnone)) (by decide)
  rw [hj] at havailable
  obtain ⟨hgiven, hplaceable⟩ := Prod.mk.inj (Except.ok.inj havailable)
  rw [hgiven, hplaceable] at hhypotheses
  exact ⟨_, hh, e, he, hhypotheses, hmodel⟩

/-- The propositions that are true in a model. -/
def truths (m : Model) : Structure Unit := ⟨fun n _ => (n, "True") ∈ m⟩

/-- A single premise that may still be placed is left out: the solver gives for each query a model of its
hypotheses in which the goal is false, and the model that is reported comes from no query about the
premise. -/
theorem countermodel_of_single_premise :
    ∃ h j, ((openHint (.conj (.atom "P" []) (.atom "Q" [])) [.atom "P" []]).run
        (makeTrue ["P", "Q"]) ()).1 = .ok h ∧ h.kind = .blockingConstraint ∧
      (openBoard (.conj (.atom "P" []) (.atom "Q" [])) [.atom "P" []]).prepareHint
        Settings.standard.checker none = .ok j ∧ j.placeable = [some (.atom "P" [])] ∧
      (∀ e ∈ (openHint (.conj (.atom "P" []) (.atom "Q" [])) [.atom "P" []]).exchanges
          (makeTrue ["P", "Q"]) (), e.2.status = .sat ∧
        (∀ f ∈ e.1.hypotheses, f.Holds (truths e.2.model) fun _ => ()) ∧
          ¬ e.1.conclusion.Holds (truths e.2.model) fun _ => ()) ∧
      ¬ ∃ e ∈ (openHint (.conj (.atom "P" []) (.atom "Q" [])) [.atom "P" []]).exchanges
          (makeTrue ["P", "Q"]) (),
        h.countermodel = e.2.model ∧ ∀ f, some f ∈ j.placeable → f ∈ e.1.hypotheses := by
  have hh : ((openHint (.conj (.atom "P" []) (.atom "Q" [])) [.atom "P" []]).run
      (makeTrue ["P", "Q"]) ()).1 = .ok (Hint.doesNotFollow (.conj (.atom "P" []) (.atom "Q" []))
        [("P", "False"), ("Q", "False")]) := by
    cbv
  have havailable : ((openBoard (.conj (.atom "P" []) (.atom "Q" [])) [.atom "P" []]).prepareHint
      Settings.standard.checker none).map HintJob.placeable = .ok [some (.atom "P" [])] := by
    decide_cbv
  have hexchanges : ((openHint (.conj (.atom "P" []) (.atom "Q" [])) [.atom "P" []]).exchanges
      (makeTrue ["P", "Q"]) ()).map (fun e => (e.1.hypotheses, e.1.conclusion, e.2.status, e.2.model)) =
      [([], .conj (.atom "P" []) (.atom "Q" []), .sat, [("P", "False"), ("Q", "False")]),
        ([.atom "P" []], .conj (.atom "P" []) (.atom "Q" []), .sat, [("P", "True"), ("Q", "False")])] := by
    decide_cbv
  have hexchange : ∀ e ∈ (openHint (.conj (.atom "P" []) (.atom "Q" [])) [.atom "P" []]).exchanges
      (makeTrue ["P", "Q"]) (),
      e.1.conclusion = .conj (.atom "P" []) (.atom "Q" []) ∧ e.2.status = .sat ∧
        (e.1.hypotheses = [] ∧ e.2.model = [("P", "False"), ("Q", "False")] ∨
          e.1.hypotheses = [.atom "P" []] ∧ e.2.model = [("P", "True"), ("Q", "False")]) := by
    intro e he
    have hmem := hexchanges ▸ List.mem_map_of_mem
      (f := fun e : Query × Answer => (e.1.hypotheses, e.1.conclusion, e.2.status, e.2.model)) he
    simp only [List.mem_cons, Prod.mk.injEq, List.not_mem_nil, or_false] at hmem
    tauto
  obtain ⟨j, hj, hplaceable⟩ := exists_of_map_eq_ok havailable
  refine ⟨_, j, hh, rfl, hj, hplaceable, fun e he => ?_, ?_⟩
  · obtain ⟨hgoal, hsat, ⟨hnone, hmodel⟩ | ⟨hpremise, hmodel⟩⟩ := hexchange e he
    · refine ⟨hsat, by simp [hnone], ?_⟩
      rw [hgoal, hmodel]
      simp [Formula.Holds, Connective.Joins, truths]
    · refine ⟨hsat, by simp [hpremise, hmodel, Formula.Holds, truths], ?_⟩
      rw [hgoal, hmodel]
      simp [Formula.Holds, Connective.Joins, truths]
  · rintro ⟨e, he, hreported, hall⟩
    have hpremise : .atom "P" [] ∈ e.1.hypotheses := hall _ (hplaceable ▸ List.mem_singleton_self _)
    obtain ⟨-, -, ⟨hnone, -⟩ | ⟨-, hmodel⟩⟩ := hexchange e he
    · rw [hnone] at hpremise
      exact List.not_mem_nil hpremise
    · rw [hmodel] at hreported
      exact absurd hreported (by decide)

end Board

end DeductionBoard
