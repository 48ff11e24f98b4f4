import DeductionBoard.Proofs.Solver.Propositional
import DeductionBoard.Proofs.Solver.Refutation
import DeductionBoard.Solver.Ground

/-! The built-in procedure. Main results: a query that it calls unsatisfiable has sentences that no
structure makes true, so that the hypotheses entail the goal; and without quantifiers it always says
which of the two is the case. -/

namespace DeductionBoard.Solver.Ground

open Query

universe u

@[simp] theorem Instances.formula_both (i j : Instances) :
    (i.both j).formula = .conjoin i.formula j.formula := rfl

@[simp] theorem Instances.formula_either (i j : Instances) :
    (i.either j).formula = .disjoin i.formula j.formula := rfl

/-- Instances that are taken together are true when each of them is. -/
theorem holds_foldl_both {α : Type} {f : α → Instances} {i : Instances} {xs : List α}
    {v : Term → Bool} : (xs.foldl (fun acc x => acc.both (f x)) i).formula.holds v = true ↔
      i.formula.holds v = true ∧ ∀ x ∈ xs, (f x).formula.holds v = true := by
  induction xs generalizing i with
  | nil => simp
  | cons x xs ih => simp [ih, and_assoc]

theorem holds_allInstances_iff {domain : List Term} {ss : List Sentence} {v : Term → Bool} :
    (allInstances domain ss).formula.holds v = true ↔
      ∀ s ∈ ss, (instances domain [] true s).formula.holds v = true :=
  holds_foldl_both.trans (and_iff_right rfl)

section Instances

variable {D : Type u} {I : Interpretation D} {ρ : Nat → Meaning D} {domain : List Term}

open Classical in
/-- Which atoms are true. -/
noncomputable def truths (I : Interpretation D) (ρ : Nat → Meaning D) (t : Term) : Bool :=
  Decidable.decide (t.meaning I ρ []).2

/-- A sentence that is true has true instances, whatever the terms at hand. -/
theorem holds_instances {s : Sentence} {around : Surroundings} {p : Bool}
    (h : s.Sides I p (around.values I ρ)) :
    (instances domain around p s).formula.holds (truths I ρ) = true := by
  induction s generalizing around p with
  | atom n args =>
    have hatom : ((around.atom n args).meaning I ρ []).2 ↔ p = true := by
      rw [Surroundings.meaning_atom]
      exact h
    cases p <;> simpa [instances, Literals.holds, truths] using hatom
  | neg f ih => exact ih (Sentence.sides_neg.mp h)
  | binary op l r ihl ihr =>
    rw [Sentence.sides_binary] at h
    rw [instances]
    split_ifs at h ⊢ with hop
    · simp [ihl h.1, ihr h.2]
    · rcases h with h | h
      · simp [ihl h]
      · simp [ihr h]
  | quantified q b f ih =>
    rw [Sentence.sides_quantified] at h
    rw [instances]
    split_ifs at h ⊢ with hq
    · refine holds_foldl_both.mpr ⟨rfl, fun t _ => ?_⟩
      have ht := h (t.value I ρ)
      rw [← Surroundings.values_cons] at ht
      exact ih ht
    · have ht := sides_chosen h
      rw [← Surroundings.value_ownTerm, ← Surroundings.values_cons] at ht
      exact ih ht

theorem holds_allInstances {ss : List Sentence} (h : ∀ s ∈ ss, s.TrueIn I) :
    (allInstances domain ss).formula.holds (truths I ρ) = true :=
  holds_allInstances_iff.mpr fun s hs => holds_instances (Sentence.sides_true.mpr (h s hs))

/-- Instances of true sentences are never contradictory. -/
theorem satisfy_allInstances_ne {ss : List Sentence} (h : ∀ s ∈ ss, s.TrueIn I)
    (branches : Option Nat) :
    (allInstances domain ss).formula.satisfy branches ≠ .contradictory := by
  intro hc
  have hright := Literals.right_search (f := (allInstances domain ss).formula)
    (allInstances domain ss).formula.size
    (branches.getD (allInstances domain ss).formula.size)
  rw [show Literals.search _ _ _ = _ from hc] at hright
  have hfalse := hright (truths I fun _ _ => (I.constant "", False))
  rw [holds_allInstances h] at hfalse
  exact absurd hfalse (by simp)

theorem widen_ne_unsatisfiable {e : Effort} {ss : List Sentence} (h : ∀ s ∈ ss, s.TrueIn I)
    (n : Nat) : widen e ss n domain ≠ .unsatisfiable := by
  induction n generalizing domain with
  | zero => simp [widen]
  | succ n ih =>
    unfold widen
    simp only
    split
    · next hc => exact absurd hc (satisfy_allInstances_ne h _)
    · simp
    · split_ifs
      · simp
      · exact ih
      · simp

/-- Sentences that are true in a structure are not called unsatisfiable. -/
theorem decide_ne_unsatisfiable {ss : List Sentence} (h : ∀ s ∈ ss, s.TrueIn I) :
    decide ss domain ≠ .unsatisfiable := by
  unfold decide
  split_ifs
  · split
    · next hc => exact absurd hc (Saturation.outcome_ne_contradiction h)
    · exact widen_ne_unsatisfiable h _
    · split
      · simp
      · exact widen_ne_unsatisfiable h _
  · unfold decideFree
    split
    · next hc => exact absurd hc (satisfy_allInstances_ne h none)
    · simp
    · simp

end Instances

section Free

/-- The structure of the terms themselves, with the atoms that are set to true. -/
def termStructure (as : Literals.Assignment Term) : Interpretation Term where
  constant n := .symbol (.name n)
  witness i ts := .ofSymbol (.witness i) ts
  holds n ts := as.value (.ofSymbol (.name n) ts) = true

variable {as : Literals.Assignment Term} {domain : List Term}

/-- In the structure of the terms every individual is its own term. -/
theorem value_termStructure (i : Individual) :
    i.value (termStructure as) (fun b => .symbol (.name b.text)) = Surroundings.term [] i := by
  cases i <;> rfl

/-- A sentence without quantifiers is true in the structure of the terms where its instances are. -/
theorem sides_of_instances {s : Sentence} {p : Bool} (hfree : s.hasQuantifier = false)
    (h : (instances domain [] p s).formula.holds as.value = true) :
    s.Sides (termStructure as) p fun b => .symbol (.name b.text) := by
  induction s generalizing p with
  | atom n args =>
    have hargs : args.map (Individual.value (termStructure as) fun b => .symbol (.name b.text)) =
        args.map (Surroundings.term []) := List.map_congr_left fun i _ => value_termStructure i
    rw [Sentence.Sides, Sentence.Holds, hargs]
    have hvalue : as.value (Surroundings.atom [] n args) = p := by
      simpa [instances, Literals.holds] using h
    exact iff_of_eq (congrArg (· = true) hvalue)
  | neg f ih => exact Sentence.sides_neg.mpr (ih hfree h)
  | binary op l r ihl ihr =>
    rw [Sentence.hasQuantifier, Bool.or_eq_false_iff] at hfree
    rw [Sentence.sides_binary]
    rw [instances] at h
    split_ifs at h ⊢ with hop
    · simp only [Instances.formula_both, Literals.holds_conjoin, Bool.and_eq_true] at h
      exact ⟨ihl hfree.1 h.1, ihr hfree.2 h.2⟩
    · simp only [Instances.formula_either, Literals.holds_disjoin, Bool.or_eq_true] at h
      exact h.imp (ihl hfree.1) (ihr hfree.2)
  | quantified q b f => exact absurd hfree (by simp [Sentence.hasQuantifier])

/-- Sentences without quantifiers are decided. -/
theorem decideFree_spec {ss : List Sentence} (hfree : ∀ s ∈ ss, s.hasQuantifier = false) :
    (∃ as, decideFree ss = .satisfiable as ∧ ∀ s ∈ ss, s.TrueIn (termStructure as)) ∨
      decideFree ss = .unsatisfiable := by
  unfold decideFree
  rcases Literals.satisfy_spec (allInstances [] ss).formula with ⟨as, has, hholds⟩ | ⟨hc, -⟩
  · rw [has]
    refine .inl ⟨as, rfl, fun s hs => Sentence.sides_true.mp ?_⟩
    exact sides_of_instances (hfree s hs) (holds_allInstances_iff.mp hholds s hs)
  · rw [hc]
    exact .inr rfl

end Free

section Answers

variable {q : Query}

theorem decide_of_unsat (h : (answer q).status = .unsat) :
    decide (q.script.assertions.map (·.1)) (startDomain q.script.declarations) =
      .unsatisfiable := by
  obtain ⟨names, hnames⟩ := Engine.status_answer_eq_unsat_iff.mp h
  unfold outcome at hnames
  split at hnames
  · next hd => exact hd
  · exact absurd hnames (by simp)
  · exact absurd hnames (by simp)

/-- No structure makes all assertions true of a query that is called unsatisfiable. -/
theorem not_trueIn_of_unsat (h : (answer q).status = .unsat) {D : Type u} (I : Interpretation D) :
    ¬ ∀ a ∈ q.script.assertions, a.1.TrueIn I := by
  intro htrue
  refine decide_ne_unsatisfiable (I := I) (fun s hs => ?_) (decide_of_unsat h)
  obtain ⟨a, ha, rfl⟩ := List.mem_map.mp hs
  exact htrue a ha

/-- The hypotheses of a query that is called unsatisfiable entail its goal. -/
theorem entails_of_unsat {o : Options} {e : Entailment} (ho : o.skolemize = false)
    (hq : e.query o = .ok q) (h : (answer q).status = .unsat) :
    Formula.Entails.{u} e.formulas e.goal := by
  unfold Entailment.query at hq
  split at hq
  · exact absurd hq (by simp)
  · obtain rfl := Except.ok.inj hq
    intro D M ρ hformulas
    by_contra hgoal
    refine not_trueIn_of_unsat h ⟨ρ, fun _ _ => ρ "", M.holds⟩ fun a ha => ?_
    exact Entailment.trueIn_sentences hformulas hgoal a.1
      (Entailment.mem_sentences_of_mem_assertions ho ha).1

/-- A query without quantifiers is called unsatisfiable or satisfiable, and both rightly. -/
theorem status_answer_of_free (hfree : ∀ a ∈ q.script.assertions, a.1.hasQuantifier = false) :
    ((answer q).status = .unsat ∧
      ∀ (D : Type u) (I : Interpretation D), ¬ ∀ a ∈ q.script.assertions, a.1.TrueIn I) ∨
    ((answer q).status = .sat ∧
      ∃ I : Interpretation Term, ∀ a ∈ q.script.assertions, a.1.TrueIn I) := by
  let ss := q.script.assertions.map (·.1)
  have hss : ∀ s ∈ ss, s.hasQuantifier = false := List.forall_mem_map.mpr hfree
  have hdecide : decide ss (startDomain q.script.declarations) = decideFree ss := by
    refine if_neg ?_
    simpa using fun s hs => hss s hs
  rcases decideFree_spec hss with ⟨as, has, htrue⟩ | hunsat
  · refine .inr ⟨?_, _, List.forall_mem_map.mp htrue⟩
    rw [answer, outcome, show decide _ _ = _ from hdecide.trans has]
    rfl
  · have hstatus : (answer q).status = .unsat := by
      rw [answer, outcome, show decide _ _ = _ from hdecide.trans hunsat]
      rfl
    exact .inl ⟨hstatus, fun D I => not_trueIn_of_unsat hstatus I⟩

end Answers

end DeductionBoard.Solver.Ground
