import DeductionBoard.Proofs.Formula.Name
import DeductionBoard.Proofs.Formula.Occurrence

/-! Substitution that watches for capture. Main result: putting one name for another fails exactly
when a quantifier would capture it; otherwise it changes the valuation, renames the free names one by
one, and can be taken back where the new name was not free before. -/

namespace DeductionBoard.Formula

universe u

variable {f g : Formula} {t r : String}

/-- Some free occurrence of `t` is in the scope of a quantifier that binds `r`. As the occurrence is
free, that quantifier does not bind `t`. -/
def Captures (t r : String) (f : Formula) : Prop :=
  ∃ o ∈ f.occurrences [], (o.name = t ∧ o.IsFree) ∧ r ∈ o.scope

theorem substitute_quantified_eq_none_iff {q : Quantifier} {v : String} :
    (quantified q v f).substitute t r = none ↔
      t ≠ v ∧ t ∈ f.freeVars ∧ (r = v ∨ f.substitute t r = none) := by
  rw [substitute]
  by_cases hfree : t = v ∨ t ∉ f.freeVars
  · rw [if_pos hfree]
    simp only [reduceCtorEq, false_iff]
    tauto
  · rw [if_neg hfree]
    rw [not_or, not_not] at hfree
    by_cases hr : r = v
    · simp [hr, hfree]
    · simp [hr, hfree]

/-- Inside quantifiers over `scope`, which do not bind `t`, an occurrence is captured by one of these
or by a quantifier of the formula. -/
theorem exists_captured_iff {scope : List String} (ht : t ∉ scope) :
    (∃ o ∈ f.occurrences scope, (o.name = t ∧ o.IsFree) ∧ r ∈ o.scope) ↔
      f.substitute t r = none ∨ r ∈ scope ∧ t ∈ f.freeVars := by
  induction f generalizing scope with
  | atom p args =>
    have hscope : ∀ o ∈ (atom p args).occurrences scope, o.scope = scope := by
      intro o ho
      rcases List.mem_cons.mp ho with rfl | ho
      · rfl
      · obtain ⟨a, -, rfl⟩ := List.mem_map.mp ho
        rfl
    have hfree : (∃ o ∈ (atom p args).occurrences scope, o.name = t ∧ o.IsFree) ↔
        t ∈ args ∧ t ∉ scope := exists_free_iff
    rw [substitute]
    simp only [reduceCtorEq, false_or]
    constructor
    · rintro ⟨o, ho, hot, hr⟩
      exact ⟨hscope o ho ▸ hr, (hfree.mp ⟨o, ho, hot⟩).1⟩
    · rintro ⟨hr, hmem⟩
      obtain ⟨o, ho, hot⟩ := hfree.mpr ⟨hmem, ht⟩
      exact ⟨o, ho, hot, (hscope o ho).symm ▸ hr⟩
  | neg f ih =>
    rw [occurrences, ih ht, substitute, freeVars, Option.map_eq_none_iff]
  | binary op l r' ihl ihr =>
    have hnone : (binary op l r').substitute t r = none ↔
        l.substitute t r = none ∨ r'.substitute t r = none := by
      rw [substitute]
      cases l.substitute t r <;> cases r'.substitute t r <;> simp
    simp only [occurrences, freeVars, List.mem_append, or_and_right, exists_or, ihl ht, ihr ht, hnone]
    tauto
  | quantified q v f ih =>
    by_cases htv : t = v
    · -- the quantifier takes every occurrence for itself
      subst htv
      rw [substitute_quantified_eq_none_iff, occurrences]
      constructor
      · rintro ⟨o, ho, ⟨rfl, -, hnot⟩, -⟩
        exact absurd ((suffix_scope ho).subset List.mem_cons_self) hnot
      · rintro (⟨hne, -⟩ | ⟨-, hmem⟩)
        · exact absurd rfl hne
        · exact absurd hmem (by simp [freeVars])
    · have hnone : f.substitute t r = none → t ∈ f.freeVars := by
        intro h
        by_contra hnot
        rw [substitute_of_notMem hnot] at h
        exact absurd h (by simp)
      rw [occurrences, ih (by simp [htv, ht]), substitute_quantified_eq_none_iff, freeVars,
        List.mem_filter, decide_eq_true_eq, List.mem_cons]
      tauto

/-- Substitution fails exactly when it would capture an occurrence. -/
theorem substitute_eq_none_iff : f.substitute t r = none ↔ f.Captures t r := by
  rw [Captures, exists_captured_iff List.not_mem_nil]
  simp

/-- The free names of the result are those of the formula, renamed where they stand. -/
theorem freeVars_substitute (h : f.substitute t r = some g) :
    g.freeVars = f.freeVars.map fun a => if a = t then r else a := by
  induction f generalizing g with
  | atom p args =>
    obtain rfl := Option.some.inj h
    rfl
  | neg f ih =>
    obtain ⟨f', hf', rfl⟩ := Option.map_eq_some_iff.mp h
    rw [freeVars, freeVars, ih hf']
  | binary op l r' ihl ihr =>
    rw [substitute] at h
    split at h
    · next l' r'' hl hr =>
      obtain rfl := Option.some.inj h
      rw [freeVars, freeVars, List.map_append, ihl hl, ihr hr]
    · exact absurd h (by simp)
  | quantified q v f ih =>
    rcases substitute_quantified h with ⟨rfl, hnot⟩ | ⟨ht, -, hr, f', hf', rfl⟩
    · conv_lhs => rw [← List.map_id (quantified q v f).freeVars]
      refine List.map_congr_left fun a ha => (if_neg ?_).symm
      rintro rfl
      exact hnot ha
    · -- the variable of the quantifier is neither renamed nor a new name
      have hkeep : ((fun a => decide (a ≠ v)) ∘ fun a => if a = t then r else a) =
          fun a => decide (a ≠ v) := by
        funext a
        by_cases hat : a = t
        · simp [hat, ht, hr]
        · simp [hat]
      rw [freeVars, freeVars, ih hf', List.filter_map, hkeep]

/-- Substitution of a usable name fails exactly on capture. Otherwise the result holds where the
formula holds with the value of the new name for the old one, its free names are those of the formula
with the old name renamed, it is the formula itself where the old name is not free, and a new name
that was not free gives the formula back. -/
theorem substituteText_captures_or_renames (hf : f.WellNamed) (hr : isUsableName r = true) :
    (f.substituteText t r = .ok none ↔ f.Captures t r) ∧
      (¬ f.Captures t r → ∃ g, f.substituteText t r = .ok (some g) ∧
        (∀ (D : Type u) (M : Structure D) (ρ : String → D),
          g.Holds M ρ ↔ f.Holds M (Function.update ρ t (ρ r))) ∧
        g.freeVars = (f.freeVars.map fun a => if a = t then r else a) ∧
        (t ∉ f.freeVars → g = f) ∧
        (r ∉ f.freeVars → g.substituteText r t = .ok (some f))) := by
  have hname : ∀ {g : Formula} {t r : String}, (t ∈ g.freeVars → isUsableName r = true) →
      g.substituteText t r = .ok (g.substitute t r) := by
    intro g t r h
    rw [substituteText]
    split
    · next ht => rw [checkName_eq_ok_iff.mpr (h ht)]
    · rfl
  have hok := hname (g := f) (t := t) fun _ => hr
  rw [hok, Except.ok.injEq, substitute_eq_none_iff]
  refine ⟨Iff.rfl, fun hnot => ?_⟩
  obtain ⟨g, hg⟩ := Option.ne_none_iff_exists'.mp (mt substitute_eq_none_iff.mp hnot)
  refine ⟨g, by rw [hg], fun D M ρ => holds_substitute hg, freeVars_substitute hg, fun ht => ?_,
    fun hfree => ?_⟩
  · exact Option.some.inj (hg.symm.trans (substitute_of_notMem ht))
  · have hback : r ∈ g.freeVars → isUsableName t = true := by
      intro hmem
      rcases (mem_freeVars_substitute hg).mp hmem with ⟨hmem, -⟩ | ⟨ht, -⟩
      · exact absurd hmem hfree
      · exact hf.of_mem_freeVars ht
    rw [hname hback, substitute_back hg hfree]

/-- A name that is free beside a quantifier over it and below another one. -/
def twiceBound : Formula := .conj (.all "y" (.atom "P" ["t", "y"])) (.exist "t" (.atom "Q" ["t"]))

theorem substituteText_captures_or_renames_twiceBound :
    twiceBound.WellNamed ∧ isUsableName "y" = true ∧ isUsableName "z" = true ∧
      twiceBound.substituteText "t" "y" = .ok none ∧
      ∃ g, twiceBound.substituteText "t" "z" = .ok (some g) ∧ g.freeVars = ["z"] ∧
        (∀ (D : Type) (M : Structure D) (ρ : String → D),
          g.Holds M ρ ↔ twiceBound.Holds M (Function.update ρ "t" (ρ "z"))) ∧
        g.substituteText "z" "t" = .ok (some twiceBound) := by
  have hf : twiceBound.WellNamed := wellNamed_iff.mpr (by decide)
  obtain ⟨hnone, -⟩ := substituteText_captures_or_renames.{0} (t := "t") hf (r := "y") (by decide)
  obtain ⟨-, hsome⟩ := substituteText_captures_or_renames.{0} (t := "t") hf (r := "z") (by decide)
  have hcaptured : twiceBound.Captures "t" "y" :=
    ⟨⟨"t", .argument, ["y"]⟩, by decide, ⟨rfl, rfl, by decide⟩, by decide⟩
  have hfree : ¬ twiceBound.Captures "t" "z" := by
    rw [← substitute_eq_none_iff]
    decide
  obtain ⟨g, hg, hholds, hvars, -, hback⟩ := hsome hfree
  exact ⟨hf, by decide, by decide, hnone.mpr hcaptured, g, hg, hvars, hholds, hback (by decide)⟩

end DeductionBoard.Formula
