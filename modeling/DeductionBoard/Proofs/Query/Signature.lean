import DeductionBoard.Proofs.Formula.Name
import DeductionBoard.Query.Entailment
import Mathlib.Data.List.Nodup

/-! Signatures of queries. Declaring the uses of a formula records each of them and nothing else, and
leaves every name with one use. Main result: the signature of an entailment holds exactly the uses of
its formulas. -/

namespace DeductionBoard

namespace Query

theorem mem_names_of_mem_uses {f : Formula} {bound : List String} {u : String × Use}
    (h : u ∈ uses bound f) : u.1 ∈ f.names := by
  induction f generalizing bound with
  | atom n args =>
    rcases List.mem_cons.mp h with rfl | h
    · exact List.mem_cons_self
    · obtain ⟨a, ha, rfl⟩ := List.mem_map.mp h
      exact List.mem_cons_of_mem _ (List.mem_of_mem_filter ha)
  | neg f ih => exact ih h
  | binary op l r ihl ihr =>
    rcases List.mem_append.mp h with h | h
    · exact List.mem_append_left _ (ihl h)
    · exact List.mem_append_right _ (ihr h)
  | quantified q v f ih => exact List.mem_cons_of_mem _ (ih h)

/-- A formula about no individuals uses propositions alone. -/
theorem eq_predicate_of_mem_uses {f : Formula} {bound : List String} {u : String × Use}
    (hf : f.isFirstOrder = false) (h : u ∈ uses bound f) : u.2 = .predicate 0 := by
  induction f generalizing bound with
  | atom n args =>
    obtain rfl : args = [] := by simpa [Formula.isFirstOrder] using hf
    obtain rfl := List.mem_singleton.mp h
    rfl
  | neg f ih => exact ih hf h
  | binary op l r ihl ihr =>
    obtain ⟨hl, hr⟩ := Bool.or_eq_false_iff.mp hf
    rcases List.mem_append.mp h with h | h
    · exact ihl hl h
    · exact ihr hr h
  | quantified q v f => exact absurd hf (by simp [Formula.isFirstOrder])

namespace Signature

variable {s s' : Signature} {u : String × Use} {us : List (String × Use)}

/-- Every name has one use. -/
def Once (s : Signature) : Prop := (s.map (·.1)).Nodup

/-- `s'` is `s` with the uses in `us`. -/
structure Extends (s s' : Signature) (us : List (String × Use)) : Prop where
  once : s.Once → s'.Once
  mem_iff : ∀ v, v ∈ s' ↔ v ∈ s ∨ v ∈ us

theorem Extends.refl (s : Signature) : s.Extends s [] := ⟨id, by simp⟩

theorem Extends.trans {s'' : Signature} {vs : List (String × Use)} (h : s.Extends s' us)
    (h' : s'.Extends s'' vs) : s.Extends s'' (us ++ vs) := by
  refine ⟨fun hs => h'.once (h.once hs), fun v => ?_⟩
  rw [h'.mem_iff, h.mem_iff, List.mem_append, or_assoc]

theorem use?_eq_none_iff {n : String} : s.use? n = none ↔ n ∉ s.map (·.1) := by
  rw [use?, List.lookup_eq_none_iff, List.mem_map]
  constructor
  · rintro h ⟨v, hv, rfl⟩
    exact absurd (h v hv) (by simp)
  · intro h v hv
    exact bne_iff_ne.mpr fun hn => h ⟨v, hv, hn.symm⟩

theorem mem_of_use? {n : String} {k : Use} (h : s.use? n = some k) : (n, k) ∈ s := by
  obtain ⟨l, r, rfl, -⟩ := List.lookup_eq_some_iff.mp h
  exact List.mem_append_right _ List.mem_cons_self

theorem declare_extends (h : s.declare u = .ok s') : s.Extends s' [u] := by
  unfold declare at h
  split at h
  · next hnone =>
    obtain rfl := Except.ok.inj h
    refine ⟨fun hs => ?_, fun v => by simp⟩
    rw [Once, List.map_append, List.nodup_append_comm]
    exact List.nodup_cons.mpr ⟨use?_eq_none_iff.mp hnone, hs⟩
  · next known hknown =>
    split at h
    · next heq =>
      obtain rfl := Except.ok.inj h
      have hmem := mem_of_use? hknown
      rw [heq] at hmem
      refine ⟨id, fun v => ?_⟩
      rw [List.mem_singleton]
      exact ⟨.inl, fun hv => hv.elim id fun hvu => hvu ▸ hmem⟩
    · exact absurd h (by simp)

theorem declareAll_extends (h : s.declareAll us = .ok s') : s.Extends s' us := by
  induction us generalizing s with
  | nil =>
    obtain rfl := Except.ok.inj h
    exact .refl s
  | cons u us ih =>
    unfold declareAll at h
    split at h
    · exact absurd h (by simp)
    · next s₁ hs₁ => exact (declare_extends hs₁).trans (ih h)

/-- Sorting only changes the order. -/
theorem sorted_perm (s : Signature) : s.sorted.Perm s := List.mergeSort_perm s _

@[simp] theorem mem_sorted : u ∈ s.sorted ↔ u ∈ s := (sorted_perm s).mem_iff

theorem Once.sorted (h : s.Once) : s.sorted.Once :=
  ((sorted_perm s).map _).nodup_iff.mpr h

end Signature

namespace Entailment

theorem signatureFrom_extends {s s' : Signature} {fs : List (Formula × Option Int)}
    (h : signatureFrom s fs = .ok s') : s.Extends s' (fs.flatMap fun f => uses [] f.1) := by
  induction fs generalizing s with
  | nil =>
    obtain rfl := Except.ok.inj h
    exact .refl s
  | cons f fs ih =>
    unfold signatureFrom at h
    split at h
    · exact absurd h (by simp)
    · next s₁ hs₁ =>
      rw [List.flatMap_cons]
      exact (Signature.declareAll_extends hs₁).trans (ih h)

/-- A fault comes from one of the formulas, and those before it have a signature. -/
theorem signatureFrom_error {s : Signature} {fs : List (Formula × Option Int)} {fault : Fault}
    (h : signatureFrom s fs = .error fault) :
    ∃ before f piece after s' c, fs = before ++ (f, piece) :: after ∧
      signatureFrom s before = .ok s' ∧ s'.declareAll (uses [] f) = .error c ∧
      fault = .clash c piece := by
  induction fs generalizing s with
  | nil => exact absurd h (by simp [signatureFrom])
  | cons g fs ih =>
    unfold signatureFrom at h
    split at h
    · next c hc =>
      exact ⟨[], g.1, g.2, fs, s, c, rfl, rfl, hc, (Except.error.inj h).symm⟩
    · next s₁ hs₁ =>
      obtain ⟨before, f, piece, after, s', c, rfl, hs', hc, hfault⟩ := ih h
      refine ⟨g :: before, f, piece, after, s', c, rfl, ?_, hc, hfault⟩
      rw [signatureFrom, hs₁]
      exact hs'

/-- The formulas of an entailment, the goal last. -/
def allFormulas (e : Entailment) : List Formula := e.formulas ++ [e.goal]

theorem sourced_map_fst (e : Entailment) : e.sourced.map (·.1) = e.allFormulas := by
  simp [sourced, allFormulas, formulas]

/-- A signature has every name once, with each use of it in the formulas. -/
theorem signatureFrom_spec {s : Signature} {fs : List (Formula × Option Int)}
    (h : signatureFrom [] fs = .ok s) :
    s.Once ∧ ∀ u, u ∈ s ↔ ∃ f ∈ fs.map (·.1), u ∈ uses [] f := by
  have hext := signatureFrom_extends h
  refine ⟨hext.once List.nodup_nil, fun u => ?_⟩
  rw [hext.mem_iff]
  simp

theorem signature_spec {e : Entailment} {s : Signature} (h : e.signature = .ok s) :
    s.Once ∧ ∀ u, u ∈ s ↔ ∃ f ∈ e.allFormulas, u ∈ uses [] f := by
  rw [← sourced_map_fst]
  exact signatureFrom_spec h

end Entailment

end Query

end DeductionBoard
