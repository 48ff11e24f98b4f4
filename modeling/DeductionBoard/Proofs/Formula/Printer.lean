import DeductionBoard.Formula.Printer
import DeductionBoard.Proofs.Formula.Name

/-! Printed formulas. The text of a formula is made of its names and of a few signs. -/

namespace DeductionBoard.Formula

/-- The characters that are put between the names of a formula. -/
def signs : List Char := [' ', ',', '.', '(', ')', '¬', '∧', '∨', '→', '∀', '∃']

variable {p : Char → Prop} {f : Formula}

theorem forall_mem_commaSeparated {xs : List String} (hsigns : ∀ c ∈ signs, p c)
    (h : ∀ n ∈ xs, ∀ c ∈ n.toList, p c) : ∀ c ∈ commaSeparated xs, p c := by
  induction xs with
  | nil => exact fun c hc => absurd hc List.not_mem_nil
  | cons a xs ih =>
    rw [List.forall_mem_cons] at h
    cases xs with
    | nil => exact h.1
    | cons b xs =>
      have hsplit : commaSeparated (a :: b :: xs) =
          a.toList ++ (',' :: ' ' :: commaSeparated (b :: xs)) := rfl
      rw [hsplit, List.forall_mem_append, List.forall_mem_cons, List.forall_mem_cons]
      exact ⟨h.1, hsigns _ (by decide), hsigns _ (by decide), ih h.2⟩

theorem forall_mem_parenthesized {s : List Char} (hsigns : ∀ c ∈ signs, p c)
    (h : ∀ c ∈ s, p c) : ∀ c ∈ parenthesized s, p c := by
  rw [parenthesized, List.forall_mem_cons, List.forall_mem_append, List.forall_mem_singleton]
  exact ⟨hsigns _ (by decide), h, hsigns _ (by decide)⟩

theorem forall_mem_wrapped {s : List Char} (part place : Nat) (hsigns : ∀ c ∈ signs, p c)
    (h : ∀ c ∈ s, p c) : ∀ c ∈ wrapped part place s, p c := by
  unfold wrapped
  split
  · exact forall_mem_parenthesized hsigns h
  · exact h

/-- A printed formula holds the characters of its names and of the signs, and no others. -/
theorem forall_mem_chars (hsigns : ∀ c ∈ signs, p c)
    (h : ∀ n ∈ f.names, ∀ c ∈ n.toList, p c) : ∀ c ∈ f.chars, p c := by
  induction f with
  | atom n args =>
    rw [names, List.forall_mem_cons] at h
    rw [chars, atomChars]
    split
    · exact h.1
    · rw [List.forall_mem_append]
      exact ⟨h.1, forall_mem_parenthesized hsigns (forall_mem_commaSeparated hsigns h.2)⟩
  | neg f ih =>
    rw [chars, List.forall_mem_cons]
    exact ⟨hsigns _ (by decide), forall_mem_wrapped _ _ hsigns (ih h)⟩
  | binary op l r ihl ihr =>
    rw [names, List.forall_mem_append] at h
    rw [chars, List.forall_mem_append, List.forall_mem_cons, List.forall_mem_cons,
      List.forall_mem_cons]
    refine ⟨forall_mem_wrapped _ _ hsigns (ihl h.1), hsigns _ (by decide), ?_, hsigns _ (by decide),
      forall_mem_wrapped _ _ hsigns (ihr h.2)⟩
    cases op <;> exact hsigns _ (by decide)
  | quantified q v f ih =>
    rw [names, List.forall_mem_cons] at h
    rw [chars, List.forall_mem_cons, List.forall_mem_append, List.forall_mem_cons,
      List.forall_mem_cons]
    refine ⟨?_, h.1, hsigns _ (by decide), hsigns _ (by decide), ih h.2⟩
    cases q <;> exact hsigns _ (by decide)

end DeductionBoard.Formula
