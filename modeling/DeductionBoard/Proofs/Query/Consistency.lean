import DeductionBoard.Proofs.Formula.Occurrence
import DeductionBoard.Proofs.Query.Signature
import Mathlib.Data.String.Basic

/-! Consistent use of names. In formulas that go together every name stands for one thing: for an
individual, or for a predicate with one number of arguments. Main result: an entailment has a query
unless its formulas do not go together, and then the piece to blame is that of the first formula that
does not go with those before it. -/

namespace DeductionBoard

open Query (Use Clash)

/-- What a name stands for in a formula: a predicate with some number of arguments, or an individual
where no quantifier binds it. -/
def Formula.UsedAs (f : Formula) (n : String) : Use → Prop
  | .individual => ∃ o ∈ f.occurrences [], o.name = n ∧ o.IsFree
  | .predicate k => ∃ args, .atom n args ∈ f.subformulas ∧ args.length = k

namespace Query

def UsedIn (fs : List Formula) (n : String) (u : Use) : Prop := ∃ f ∈ fs, f.UsedAs n u

/-- Some name stands for two things. -/
inductive Inconsistent (fs : List Formula) : Prop where
  | arities {n : String} {j k : Nat} (hne : j ≠ k) (hj : UsedIn fs n (.predicate j))
      (hk : UsedIn fs n (.predicate k))
  | kinds {n : String} {k : Nat} (hk : UsedIn fs n (.predicate k)) (hi : UsedIn fs n .individual)

variable {f : Formula} {fs : List Formula} {n : String} {k : Nat} {u v : Use}
  {bound : List String} {s : Signature} {us : List (String × Use)} {c : Clash}

theorem inconsistent_iff :
    Inconsistent fs ↔ ∃ n u v, u ≠ v ∧ UsedIn fs n u ∧ UsedIn fs n v := by
  constructor
  · rintro (⟨hne, hj, hk⟩ | ⟨hk, hi⟩)
    · exact ⟨_, _, _, fun h => hne (Use.predicate.inj h), hj, hk⟩
    · exact ⟨_, _, _, Use.noConfusion, hk, hi⟩
  · rintro ⟨n, u, v, hne, hu, hv⟩
    cases u with
    | individual =>
      cases v with
      | individual => exact absurd rfl hne
      | predicate k => exact .kinds hv hu
    | predicate j =>
      cases v with
      | individual => exact .kinds hu hv
      | predicate k => exact .arities (fun h => hne (congrArg _ h)) hu hv

theorem mem_uses_predicate :
    (n, .predicate k) ∈ uses bound f ↔ ∃ args, .atom n args ∈ f.subformulas ∧ args.length = k := by
  induction f generalizing bound with
  | atom p args =>
    have hno : (n, Use.predicate k) ∉ (args.filter fun a => a ∉ bound).map fun a =>
        (a, Use.individual) := by
      simp
    rw [uses, List.mem_cons, or_iff_left hno, Prod.mk.injEq, Use.predicate.injEq]
    constructor
    · rintro ⟨rfl, rfl⟩
      exact ⟨args, List.mem_singleton_self _, rfl⟩
    · rintro ⟨args', hmem, rfl⟩
      obtain ⟨rfl, rfl⟩ := Formula.atom.inj (List.mem_singleton.mp hmem)
      exact ⟨rfl, rfl⟩
  | neg f ih =>
    rw [uses, ih]
    simp [Formula.subformulas]
  | binary op l r ihl ihr =>
    simp [uses, Formula.subformulas, ihl, ihr, or_and_right, exists_or]
  | quantified q v f ih =>
    rw [uses, ih]
    simp [Formula.subformulas]

theorem mem_uses_individual :
    (n, .individual) ∈ uses bound f ↔ ∃ o ∈ f.occurrences bound, o.name = n ∧ o.IsFree := by
  induction f generalizing bound with
  | atom p args =>
    rw [Formula.exists_free_iff]
    simp [uses, Formula.freeVars]
  | neg f ih => exact ih
  | binary op l r ihl ihr =>
    simp only [uses, Formula.occurrences, List.mem_append, or_and_right, exists_or, ihl, ihr]
  | quantified q v f ih => exact ih

theorem mem_uses_iff : (n, u) ∈ uses [] f ↔ f.UsedAs n u := by
  cases u with
  | individual => exact mem_uses_individual
  | predicate k => exact mem_uses_predicate

namespace Signature

/-- A clash is between a use that is declared already and the one to be declared. -/
theorem declare_error {w : String × Use} (h : s.declare w = .error c) :
    c.known ≠ c.used ∧ (c.name, c.known) ∈ s ∧ (c.name, c.used) = w := by
  unfold declare at h
  split at h
  · exact absurd h (by simp)
  · next known hknown =>
    split at h
    · exact absurd h (by simp)
    · next hne =>
      obtain rfl := Except.error.inj h
      exact ⟨hne, mem_of_use? hknown, rfl⟩

theorem declareAll_error (h : s.declareAll us = .error c) :
    c.known ≠ c.used ∧ ((c.name, c.known) ∈ s ∨ (c.name, c.known) ∈ us) ∧ (c.name, c.used) ∈ us := by
  induction us generalizing s with
  | nil => exact absurd h (by simp [declareAll])
  | cons w us ih =>
    unfold declareAll at h
    split at h
    · next hw =>
      obtain rfl := Except.error.inj h
      obtain ⟨hne, hknown, hused⟩ := declare_error hw
      exact ⟨hne, .inl hknown, hused ▸ List.mem_cons_self⟩
    · next s₁ hs₁ =>
      obtain ⟨hne, hknown, hused⟩ := ih h
      refine ⟨hne, ?_, List.mem_cons_of_mem _ hused⟩
      rw [(declare_extends hs₁).mem_iff, List.mem_singleton] at hknown
      rwa [List.mem_cons, ← or_assoc]

theorem Once.use_eq (h : s.Once) (hu : (n, u) ∈ s) (hv : (n, v) ∈ s) : u = v :=
  (Prod.mk.inj (List.inj_on_of_nodup_map h hu hv rfl)).2

/-- The names in order, each of them once. -/
theorem Once.pairwise_sorted (h : s.Once) : (s.sorted.map (·.1)).Pairwise (· < ·) := by
  have hsorted : s.sorted.Pairwise fun u v => ¬ v.1 < u.1 := by
    refine (List.pairwise_mergeSort (fun u v w huv hvw => ?_) (fun u v => ?_) s).imp of_decide_eq_true
    · simp only [not_lt, decide_eq_true_eq] at huv hvw ⊢
      exact huv.trans hvw
    · simp only [Bool.or_eq_true, decide_eq_true_eq, not_lt]
      exact le_total u.1 v.1
  exact (List.pairwise_map.mpr hsorted).imp₂ (fun m n hmn hne => (not_lt.mp hmn).lt_of_ne hne) h.sorted

end Signature

namespace Entailment

theorem mem_iff_usedIn {gs : List (Formula × Option Int)} (h : signatureFrom [] gs = .ok s) :
    (n, u) ∈ s ↔ UsedIn (gs.map (·.1)) n u := by
  simp only [(signatureFrom_spec h).2, UsedIn, mem_uses_iff]

/-- Formulas that have a signature go together. -/
theorem not_inconsistent_of_signatureFrom {gs : List (Formula × Option Int)}
    (h : signatureFrom [] gs = .ok s) : ¬ Inconsistent (gs.map (·.1)) := by
  rw [inconsistent_iff]
  rintro ⟨n, u, v, hne, hu, hv⟩
  exact hne ((signatureFrom_spec h).1.use_eq ((mem_iff_usedIn h).mpr hu) ((mem_iff_usedIn h).mpr hv))

/-- The clash `c`, of which `piece` is to blame: the formulas before that of `piece` go together, but
not with it, since it uses the name of `c` as something else than they do or than it does itself. -/
def FirstClash (e : Entailment) (c : Clash) (piece : Option Int) : Prop :=
  ∃ before f after, e.sourced = before ++ (f, piece) :: after ∧
    ¬ Inconsistent (before.map (·.1)) ∧ Inconsistent (before.map (·.1) ++ [f]) ∧
    c.known ≠ c.used ∧ UsedIn (before.map (·.1) ++ [f]) c.name c.known ∧ f.UsedAs c.name c.used

theorem firstClash_of_error {o : Options} {e : Entailment} {fault : Fault}
    (h : e.query o = .error fault) : ∃ c piece, fault = .clash c piece ∧ e.FirstClash c piece := by
  rw [query] at h
  split at h
  case h_2 => exact absurd h (by simp)
  next hs =>
  obtain rfl := Except.error.inj h
  obtain ⟨before, f, piece, after, s, c, hsplit, hbefore, hc, hfault⟩ := signatureFrom_error hs
  obtain ⟨hne, hknown, hused⟩ := Signature.declareAll_error hc
  have hf : f.UsedAs c.name c.used := mem_uses_iff.mp hused
  -- The known use may also be an earlier one in `f` itself.
  have hearlier : UsedIn (before.map (·.1) ++ [f]) c.name c.known := by
    rcases hknown with hknown | hknown
    · obtain ⟨g, hg, hgu⟩ := (mem_iff_usedIn hbefore).mp hknown
      exact ⟨g, List.mem_append_left _ hg, hgu⟩
    · exact ⟨f, List.mem_append_right _ List.mem_cons_self, mem_uses_iff.mp hknown⟩
  have hlater : UsedIn (before.map (·.1) ++ [f]) c.name c.used :=
    ⟨f, List.mem_append_right _ List.mem_cons_self, hf⟩
  exact ⟨c, piece, hfault, before, f, after, hsplit, not_inconsistent_of_signatureFrom hbefore,
    inconsistent_iff.mpr ⟨c.name, c.known, c.used, hne, hearlier, hlater⟩, hne, hearlier, hf⟩

theorem FirstClash.inconsistent {e : Entailment} {piece : Option Int} (h : e.FirstClash c piece) :
    Inconsistent e.allFormulas := by
  obtain ⟨before, f, after, hsplit, -, -, hne, hknown, hused⟩ := h
  have hall : e.allFormulas = (before.map (·.1) ++ [f]) ++ after.map (·.1) := by
    rw [← sourced_map_fst, hsplit]
    simp
  obtain ⟨g, hg, hgu⟩ := hknown
  rw [inconsistent_iff, hall]
  exact ⟨c.name, c.known, c.used, hne, ⟨g, List.mem_append_left _ hg, hgu⟩, f, by simp, hused⟩

/-- A query lists the names of its formulas, which go together. -/
theorem of_query_ok {o : Options} {e : Entailment} {q : Query} (h : e.query o = .ok q) :
    ¬ Inconsistent e.allFormulas ∧ q.symbols.Pairwise (· < ·) ∧
      ∀ n, n ∈ q.symbols ↔ ∃ u, UsedIn e.allFormulas n u := by
  rw [query] at h
  split at h
  case h_1 => exact absurd h (by simp)
  next s hs =>
  obtain rfl := Except.ok.inj h
  have hmem : ∀ n u, (n, u) ∈ s ↔ UsedIn (e.sourced.map (·.1)) n u := fun _ _ => mem_iff_usedIn hs
  rw [← sourced_map_fst]
  refine ⟨not_inconsistent_of_signatureFrom hs, (signature_spec hs).1.pairwise_sorted, fun n => ?_⟩
  simp only [List.mem_map, Signature.mem_sorted, ← hmem, Prod.exists, exists_and_right,
    exists_eq_right]

/-- An entailment has no query exactly when some name stands for two things in its formulas. The
fault then carries the piece of the first formula that does not go with those before it; a query
lists the names in order. -/
theorem query_rejects_inconsistent (o : Options) (e : Entailment) :
    ((∃ fault, e.query o = .error fault) ↔ Inconsistent e.allFormulas) ∧
    (∀ fault, e.query o = .error fault →
      ∃ c piece, fault = .clash c piece ∧ e.FirstClash c piece) ∧
    ∀ q, e.query o = .ok q → q.symbols.Pairwise (· < ·) ∧
      ∀ n, n ∈ q.symbols ↔ ∃ u, UsedIn e.allFormulas n u := by
  refine ⟨⟨?_, fun hbad => ?_⟩, fun fault h => firstClash_of_error h, fun q h => (of_query_ok h).2⟩
  · rintro ⟨fault, h⟩
    obtain ⟨c, piece, -, hclash⟩ := firstClash_of_error h
    exact hclash.inconsistent
  · cases h : e.query o with
    | error fault => exact ⟨fault, rfl⟩
    | ok q => exact absurd hbad (of_query_ok h).1

end Entailment

end Query

end DeductionBoard
