import DeductionBoard.Formula.Basic
import Mathlib.Logic.Function.Basic
import Mathlib.Tactic.Conv
import Mathlib.Tactic.Tauto

/-! What formulas mean. A structure says of which lists of individuals each predicate name holds; a
valuation gives every name of an individual its value. Main results: the meaning of a formula depends
on its free names alone, substitution without capture is a change of the valuation, and a fresh name
that was put for another one can be replaced by it again. -/

namespace DeductionBoard

universe u

/-- A first-order structure over the domain `D`. Equal predicate names with different numbers of
arguments are different predicates. -/
structure Structure (D : Type u) where
  holds : String → List D → Prop

/-- The truth of a compound from the truth of its parts. -/
def Connective.Joins : Connective → Prop → Prop → Prop
  | .and, p, q => p ∧ q
  | .or, p, q => p ∨ q
  | .implies, p, q => p → q

/-- The truth of a quantified statement over a domain. -/
def Quantifier.Ranges {D : Type u} : Quantifier → (D → Prop) → Prop
  | .all, p => ∀ d, p d
  | .exist, p => ∃ d, p d

theorem Connective.joins_congr (op : Connective) {p p' q q' : Prop} (hp : p ↔ p') (hq : q ↔ q') :
    op.Joins p q ↔ op.Joins p' q' := by
  rw [propext hp, propext hq]

theorem Quantifier.ranges_congr {D : Type u} (q : Quantifier) {p p' : D → Prop}
    (h : ∀ d, p d ↔ p' d) : q.Ranges p ↔ q.Ranges p' := by
  rw [funext fun d => propext (h d)]

namespace Formula

variable {D : Type u} {M : Structure D} {ρ σ : String → D} {f g : Formula} {t r v : String}

/-- The formula is true in a structure under a valuation. -/
def Holds (M : Structure D) : Formula → (String → D) → Prop
  | .atom n args, ρ => M.holds n (args.map ρ)
  | .neg g, ρ => ¬ g.Holds M ρ
  | .binary op l r, ρ => op.Joins (l.Holds M ρ) (r.Holds M ρ)
  | .quantified q v g, ρ => q.Ranges fun d => g.Holds M (Function.update ρ v d)

/-- Every structure and valuation that make the formulas of `Γ` true make `f` true. A valuation is a
value for every name, so it shows that the domain is not empty. -/
def Entails (Γ : List Formula) (f : Formula) : Prop :=
  ∀ (D : Type u) (M : Structure D) (ρ : String → D), (∀ g ∈ Γ, g.Holds M ρ) → f.Holds M ρ

/-- Valuations that agree on the free names of a formula make it true together. -/
theorem holds_congr (h : ∀ x ∈ f.freeVars, ρ x = σ x) : f.Holds M ρ ↔ f.Holds M σ := by
  induction f generalizing ρ σ with
  | atom n args =>
    have : args.map ρ = args.map σ := List.map_congr_left h
    rw [Holds, Holds, this]
  | neg g ih =>
    rw [Holds, Holds, ih h]
  | binary op l r ihl ihr =>
    simp only [freeVars, List.mem_append] at h
    exact op.joins_congr (ihl fun x hx => h x (.inl hx)) (ihr fun x hx => h x (.inr hx))
  | quantified q v g ih =>
    refine q.ranges_congr fun d => ih fun x hx => ?_
    by_cases hv : x = v
    · rw [hv, Function.update_self, Function.update_self]
    · rw [Function.update_of_ne hv, Function.update_of_ne hv]
      exact h x (by simp [freeVars, hx, hv])

theorem holds_update_of_notMem (h : v ∉ f.freeVars) (d : D) :
    f.Holds M (Function.update ρ v d) ↔ f.Holds M ρ := by
  refine holds_congr fun x hx => Function.update_of_ne ?_ _ _
  rintro rfl
  exact h hx

/-- Where the term does not occur free, substitution changes nothing. -/
theorem substitute_of_notMem (h : t ∉ f.freeVars) : f.substitute t r = some f := by
  induction f with
  | atom n args =>
    have : args.map (fun a => if a = t then r else a) = args := by
      conv_rhs => rw [← List.map_id args]
      refine List.map_congr_left fun a ha => if_neg ?_
      rintro rfl
      exact h ha
    rw [substitute, this]
  | neg g ih => rw [substitute, ih h, Option.map_some]
  | binary op l r ihl ihr =>
    simp only [freeVars, List.mem_append, not_or] at h
    rw [substitute, ihl h.1, ihr h.2]
  | quantified q v g =>
    have : t = v ∨ t ∉ g.freeVars := by
      by_contra hc
      rw [not_or, not_not] at hc
      exact h (by simp [freeVars, hc])
    rw [substitute, if_pos this]

/-- The ways in which a substitution below a quantifier succeeds. -/
theorem substitute_quantified {q : Quantifier} (h : (quantified q v f).substitute t r = some g) :
    (g = .quantified q v f ∧ t ∉ (quantified q v f).freeVars) ∨
      (t ≠ v ∧ t ∈ f.freeVars ∧ r ≠ v ∧ ∃ f', f.substitute t r = some f' ∧ g = .quantified q v f') := by
  rw [substitute] at h
  split at h
  · next hfree =>
    refine .inl ⟨(Option.some.inj h).symm, ?_⟩
    simp only [freeVars, List.mem_filter, decide_eq_true_eq]
    rintro ⟨hmem, hne⟩
    exact hfree.elim hne fun hnot => hnot hmem
  · next hfree =>
    rw [not_or, not_not] at hfree
    split at h
    · exact absurd h (by simp)
    · next hr =>
      obtain ⟨f', hf', rfl⟩ := Option.map_eq_some_iff.mp h
      exact .inr ⟨hfree.1, hfree.2, hr, f', hf', rfl⟩

/-- Putting `r` for `t` gives the meaning under the valuation that maps `t` to the value of `r`. -/
theorem holds_substitute (h : f.substitute t r = some g) :
    g.Holds M ρ ↔ f.Holds M (Function.update ρ t (ρ r)) := by
  induction f generalizing g ρ with
  | atom n args =>
    rw [substitute] at h
    cases h
    rw [Holds, Holds, List.map_map]
    have : (ρ ∘ fun a => if a = t then r else a) = Function.update ρ t (ρ r) := by
      funext a
      by_cases ha : a = t <;> simp [ha]
    rw [this]
  | neg f ih =>
    obtain ⟨f', hf', rfl⟩ := Option.map_eq_some_iff.mp h
    rw [Holds, Holds, ih hf']
  | binary op l r' ihl ihr =>
    rw [substitute] at h
    split at h
    · next l' r'' hl hr =>
      cases h
      exact op.joins_congr (ihl hl) (ihr hr)
    · exact absurd h (by simp)
  | quantified q v f ih =>
    rcases substitute_quantified h with ⟨rfl, hnot⟩ | ⟨ht, -, hr, f', hf', rfl⟩
    · exact (holds_update_of_notMem hnot _).symm
    · refine q.ranges_congr fun d => ?_
      rw [ih hf', Function.update_of_ne hr, Function.update_comm ht]

/-- The free names after a substitution: a free `t` gives way to `r`. -/
theorem mem_freeVars_substitute (h : f.substitute t r = some g) {x : String} :
    x ∈ g.freeVars ↔ (x ∈ f.freeVars ∧ x ≠ t) ∨ (t ∈ f.freeVars ∧ x = r) := by
  induction f generalizing g with
  | atom n args =>
    rw [substitute] at h
    cases h
    simp only [freeVars, List.mem_map]
    constructor
    · rintro ⟨a, ha, rfl⟩
      by_cases hat : a = t
      · exact .inr ⟨hat ▸ ha, if_pos hat⟩
      · exact .inl ⟨by rwa [if_neg hat], by rwa [if_neg hat]⟩
    · rintro (⟨hx, hxt⟩ | ⟨ht, rfl⟩)
      · exact ⟨x, hx, if_neg hxt⟩
      · exact ⟨t, ht, if_pos rfl⟩
  | neg f ih =>
    obtain ⟨f', hf', rfl⟩ := Option.map_eq_some_iff.mp h
    rw [freeVars, freeVars, ih hf']
  | binary op l r' ihl ihr =>
    rw [substitute] at h
    split at h
    · next l' r'' hl hr =>
      cases h
      simp only [freeVars, List.mem_append, ihl hl, ihr hr]
      tauto
    · exact absurd h (by simp)
  | quantified q v f ih =>
    rcases substitute_quantified h with ⟨rfl, hnot⟩ | ⟨ht, hmem, hr, f', hf', rfl⟩
    · constructor
      · intro hx
        exact .inl ⟨hx, fun hxt => hnot (hxt ▸ hx)⟩
      · rintro (⟨hx, -⟩ | ⟨ht, -⟩)
        · exact hx
        · exact absurd ht hnot
    · simp only [freeVars, List.mem_filter, decide_eq_true_eq, ih hf', ne_eq]
      constructor
      · rintro ⟨⟨hx, hxt⟩ | ⟨hx, rfl⟩, hxv⟩
        · exact .inl ⟨⟨hx, hxv⟩, hxt⟩
        · exact .inr ⟨⟨hx, ht⟩, rfl⟩
      · rintro (⟨⟨hx, hxv⟩, hxt⟩ | ⟨⟨hx, -⟩, rfl⟩)
        · exact ⟨.inl ⟨hx, hxt⟩, hxv⟩
        · exact ⟨.inr ⟨hx, rfl⟩, hr⟩

/-- A name that does not occur free can be put for another one and taken back. -/
theorem substitute_back (h : f.substitute t r = some g) (hr : r ∉ f.freeVars) :
    g.substitute r t = some f := by
  induction f generalizing g with
  | atom n args =>
    rw [substitute] at h
    cases h
    rw [substitute, List.map_map]
    have : args.map ((fun a => if a = r then t else a) ∘ fun a => if a = t then r else a) = args := by
      conv_rhs => rw [← List.map_id args]
      refine List.map_congr_left fun a ha => ?_
      have har : a ≠ r := by
        rintro rfl
        exact hr ha
      by_cases hat : a = t <;> simp [hat, har]
    rw [this]
  | neg f ih =>
    obtain ⟨f', hf', rfl⟩ := Option.map_eq_some_iff.mp h
    rw [substitute, ih hf' hr, Option.map_some]
  | binary op l r' ihl ihr =>
    simp only [freeVars, List.mem_append, not_or] at hr
    rw [substitute] at h
    split at h
    · next l' r'' hl hr' =>
      cases h
      rw [substitute, ihl hl hr.1, ihr hr' hr.2]
    · exact absurd h (by simp)
  | quantified q v f ih =>
    rcases substitute_quantified h with ⟨rfl, -⟩ | ⟨ht, hmem, hrv, f', hf', rfl⟩
    · exact substitute_of_notMem hr
    · have hrf : r ∉ f.freeVars := fun hrf => hr (by simp [freeVars, hrf, hrv])
      have hrf' : r ∈ f'.freeVars := (mem_freeVars_substitute hf').mpr (.inr ⟨hmem, rfl⟩)
      rw [substitute, if_neg (by simp [hrv, hrf']), if_neg ht, ih hf' hrf, Option.map_some]

end Formula

end DeductionBoard
