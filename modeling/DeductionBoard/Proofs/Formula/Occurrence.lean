import DeductionBoard.Proofs.Formula.Semantics

/-! Occurrences of names in a formula: where a name stands in an atom, and which variables the
quantifiers around it bind. A name is free in a formula when some argument is an occurrence of it
under no quantifier that binds it. -/

namespace DeductionBoard

/-- Where in an atom a name stands. -/
inductive Place where
  | predicate
  | argument
  deriving DecidableEq, Repr

/-- A name in an atom, with the variables that are bound around it, innermost first. -/
structure Occurrence where
  name : String
  place : Place
  scope : List String
  deriving DecidableEq, Repr

/-- The occurrence is an argument that no quantifier binds. -/
def Occurrence.IsFree (o : Occurrence) : Prop := o.place = .argument ∧ o.name ∉ o.scope

namespace Formula

variable {f : Formula} {scope : List String} {o : Occurrence} {n : String}

/-- The names in the atoms of a formula in the order they are read, where the variables of `scope`
are bound around the formula. -/
def occurrences (scope : List String) : Formula → List Occurrence
  | .atom n args => ⟨n, .predicate, scope⟩ :: args.map fun a => ⟨a, .argument, scope⟩
  | .neg f => f.occurrences scope
  | .binary _ l r => l.occurrences scope ++ r.occurrences scope
  | .quantified _ v f => f.occurrences (v :: scope)

/-- What is bound around a formula is bound around everything in it. -/
theorem suffix_scope (ho : o ∈ f.occurrences scope) : scope <:+ o.scope := by
  induction f generalizing scope with
  | atom n args =>
    rcases List.mem_cons.mp ho with rfl | ho
    · exact List.suffix_refl _
    · obtain ⟨a, -, rfl⟩ := List.mem_map.mp ho
      exact List.suffix_refl _
  | neg f ih => exact ih ho
  | binary op l r ihl ihr => exact (List.mem_append.mp ho).elim ihl ihr
  | quantified q v f ih => exact (List.suffix_cons v scope).trans (ih ho)

theorem exists_free_iff :
    (∃ o ∈ f.occurrences scope, o.name = n ∧ o.IsFree) ↔ n ∈ f.freeVars ∧ n ∉ scope := by
  induction f generalizing scope with
  | atom p args =>
    constructor
    · rintro ⟨o, ho, rfl, hplace, hscope⟩
      rcases List.mem_cons.mp ho with rfl | ho
      · exact absurd hplace (by simp)
      · obtain ⟨a, ha, rfl⟩ := List.mem_map.mp ho
        exact ⟨ha, hscope⟩
    · rintro ⟨hn, hscope⟩
      exact ⟨⟨n, .argument, scope⟩, List.mem_cons_of_mem _ (List.mem_map_of_mem hn), rfl, rfl, hscope⟩
  | neg f ih => exact ih
  | binary op l r ihl ihr =>
    simp only [occurrences, freeVars, List.mem_append, or_and_right, exists_or, ihl, ihr]
  | quantified q v f ih =>
    rw [occurrences, ih, freeVars, List.mem_filter, decide_eq_true_eq, List.mem_cons]
    tauto

end Formula

end DeductionBoard
