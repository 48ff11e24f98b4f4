import DeductionBoard.Proofs.Formula.Name
import DeductionBoard.Search.Backward
import Mathlib.Data.List.Nodup
import Mathlib.Data.List.Perm.Subperm

/-! Names in a search. A name that the search makes up is not among the names that are in use, and
it can be used. -/

namespace DeductionBoard

namespace Search

/-- The least number that makes an unused name is found, because there are more candidates than
names in use. -/
theorem exists_candidate (base : String) (used : List String) :
    ∃ i, freshName base used = base ++ toString (i + 1) ∧ base ++ toString (i + 1) ∉ used ∧
      ∀ j < i, base ++ toString (j + 1) ∈ used := by
  let candidate : Nat → String := fun i => base ++ toString (i + 1)
  let unused : Nat → Bool := fun i => candidate i ∉ used
  have hfind : ∃ i, (List.range (used.length + 1)).find? unused = some i := by
    refine Option.isSome_iff_exists.mp (List.find?_isSome.mpr ?_)
    by_contra hnone
    have hsub : (List.range (used.length + 1)).map candidate ⊆ used := by
      intro s hs
      obtain ⟨i, hi, rfl⟩ := List.mem_map.mp hs
      by_contra hnot
      exact hnone ⟨i, hi, decide_eq_true hnot⟩
    have hnodup : ((List.range (used.length + 1)).map candidate).Nodup := by
      refine List.Nodup.map_on (fun i _ j _ hij => ?_) List.nodup_range
      have := numbered_injective hij
      omega
    have hlength := (hnodup.subperm hsub).length_le
    simp only [List.length_map, List.length_range] at hlength
    omega
  obtain ⟨i, hi⟩ := hfind
  obtain ⟨hunused, -, hused⟩ := List.find?_range_eq_some.mp hi
  refine ⟨i, ?_, of_decide_eq_true hunused, fun j hj => ?_⟩
  · rw [freshName]
    show (((List.range (used.length + 1)).map candidate).find? fun s => s ∉ used).getD base = _
    rw [List.find?_map]
    exact congrArg (fun o : Option Nat => (o.map candidate).getD base) hi
  · simpa [unused, candidate] using hused j hj

theorem freshName_notMem (base : String) (used : List String) : freshName base used ∉ used := by
  obtain ⟨i, heq, hnot, -⟩ := exists_candidate base used
  rwa [heq]

/-- The name depends only on which names are in use. -/
theorem freshName_congr (base : String) {used used' : List String} (h : ∀ s, s ∈ used ↔ s ∈ used') :
    freshName base used = freshName base used' := by
  obtain ⟨i, heq, hnot, hused⟩ := exists_candidate base used
  obtain ⟨i', heq', hnot', hused'⟩ := exists_candidate base used'
  obtain hlt | rfl | hgt := Nat.lt_trichotomy i i'
  · exact absurd ((h _).mpr (hused' i hlt)) hnot
  · rw [heq, heq']
  · exact absurd ((h _).mp (hused i' hgt)) hnot'

theorem isUsableName_freshName {base : String} (h : isUsableName base = true)
    (used : List String) : isUsableName (freshName base used) = true := by
  obtain ⟨i, heq, -⟩ := exists_candidate base used
  obtain ⟨hne, hmark⟩ := isUsableName_iff.mp h
  rw [heq, isUsableName_iff, String.toList_append, List.mem_append, not_or]
  refine ⟨fun hempty => hne ?_, hmark, reservedMark_notMem_toString _⟩
  exact (String.append_eq_empty_iff.mp hempty).1

end Search

end DeductionBoard
