import DeductionBoard.Proofs.Formula.Occurrence
import DeductionBoard.Proofs.Query.Faithful
import DeductionBoard.Proofs.Theory.Reading

/-! Names in the two texts of a query. In either text a quantifier binds its name in all of its body,
as a predicate and as an argument. A script renames its bound variables so that no name of the query
is bound by accident; a theory leaves the names as they are. Main result: the two texts bind the same
arguments by the same quantifiers, and in a script every predicate is free. -/

namespace DeductionBoard

universe u

open Query

namespace Occurrence

variable {x y : Occurrence}

/-- The quantifier that binds the name, by the number of quantifiers between the two. -/
def binder? (x : Occurrence) : Option Nat := x.scope.idxOf? x.name

/-- The occurrences are bound by one quantifier, or free under one name. -/
def Agrees (x y : Occurrence) : Prop :=
  x.binder? = y.binder? ∧ (x.binder? = none → x.name = y.name)

/-- A predicate that stands under a quantifier of its own name. -/
def Hidden (x : Occurrence) : Prop := x.place = .predicate ∧ x.name ∈ x.scope

/-- The second occurrence is in the same place, bound or free as the first one is if it is an
argument, and free if it is a predicate. -/
structure Renders (x y : Occurrence) : Prop where
  place : y.place = x.place
  argument : x.place = .argument → x.Agrees y
  predicate : x.place = .predicate → y.binder? = none ∧ y.name = x.name

theorem Renders.agrees_iff (h : x.Renders y) : x.Agrees y ↔ ¬ x.Hidden := by
  cases hplace : x.place with
  | argument => exact iff_of_true (h.argument hplace) fun hx => nomatch hplace.symm.trans hx.1
  | predicate =>
    obtain ⟨hfree, hname⟩ := h.predicate hplace
    rw [Agrees, Hidden, hfree, binder?, List.idxOf?_eq_none_iff]
    exact ⟨fun hx hhidden => hx.1 hhidden.2, fun hx =>
      ⟨fun hmem => hx ⟨hplace, hmem⟩, fun _ => hname.symm⟩⟩

end Occurrence

/-! ### Scripts -/

namespace Smt

mutual

/-- The symbols of a term in the order they are read. -/
def Term.occurrences (scope : List String) : Term → List Occurrence
  | .apply f args => ⟨f, .argument, scope⟩ :: termOccurrences scope args

def termOccurrences (scope : List String) : List Term → List Occurrence
  | [] => []
  | t :: ts => t.occurrences scope ++ termOccurrences scope ts

end

/-- The symbols in the atoms of a statement in the order they are read, where the variables of
`scope` are bound around the statement. -/
def Statement.occurrences (scope : List String) : Statement → List Occurrence
  | .holds p args => ⟨p, .predicate, scope⟩ :: termOccurrences scope args
  | .neg f => f.occurrences scope
  | .binary _ l r => l.occurrences scope ++ r.occurrences scope
  | .quantified _ x _ f => f.occurrences (x :: scope)

end Smt

namespace Query

variable {bs : List Binder} {f : Formula} {k : Numbering} {m : Nat} {n sort : String}

/-- The scope under binders, innermost first. -/
def Scope.under (bs : List Binder) : Scope := bs.map fun b => (b.surface, .bound b)

/-- Binders that were numbered one after the other, the last one first, up to `m`. -/
structure Nested (m : Nat) (bs : List Binder) : Prop where
  later : bs.Pairwise fun b b' => b'.index < b.index
  numbered : ∀ b ∈ bs, b.Numbered m

theorem Nested.nil (m : Nat) : Nested m [] := ⟨.nil, fun _ hb => absurd hb List.not_mem_nil⟩

theorem Nested.mono {m' : Nat} (h : Nested m bs) (hm : m ≤ m') : Nested m' bs :=
  ⟨h.later, fun b hb => (h.numbered b hb).mono hm⟩

theorem Nested.bind {v : String} (h : Nested m bs) (hv : IsIdentifier v) :
    Nested (m + 1) (⟨v, m + 1⟩ :: bs) where
  later := .cons (fun b hb => Nat.lt_succ_of_le (h.numbered b hb).1) h.later
  numbered := List.forall_mem_cons.mpr ⟨⟨Nat.le_refl _, hv⟩, (h.mono (Nat.le_succ m)).numbered⟩

/-- What a name stands for under binders is written as the text of the binder that has the name, at
the place of that binder, or as the name where no binder has it. -/
theorem Nested.resolve (h : Nested m bs) (hn : IsIdentifier n) :
    ∃ w, ((Scope.under bs).resolve n).term = .apply w [] ∧
      (bs.map Binder.text).idxOf? w = (bs.map Binder.surface).idxOf? n ∧
      ((w = n ∧ n ∉ bs.map Binder.surface) ∨ ∃ b ∈ bs, w = b.text) := by
  induction bs with
  | nil => exact ⟨n, rfl, rfl, .inl ⟨rfl, List.not_mem_nil⟩⟩
  | cons b bs ih =>
    obtain ⟨hlater, hrest⟩ := List.pairwise_cons.mp h.later
    simp only [List.map_cons, List.idxOf?_cons]
    by_cases hnb : b.surface = n
    · subst hnb
      refine ⟨b.text, ?_, by simp, .inr ⟨b, List.mem_cons_self, rfl⟩⟩
      exact congrArg Individual.term (Scope.resolve_cons_self _ _)
    · obtain ⟨w, hterm, hindex, hw⟩ :=
        ih ⟨hrest, fun b hb => h.numbered b (List.mem_cons_of_mem _ hb)⟩
      have hwb : b.text ≠ w := by
        rcases hw with ⟨rfl, -⟩ | ⟨b', hb', rfl⟩
        · exact (Binder.text_ne_of_isIdentifier hn).symm
        · exact Binder.text_ne_of_index_ne (h.numbered b List.mem_cons_self).2
            (Nat.ne_of_gt (hlater b' hb'))
      refine ⟨w, ?_, ?_, ?_⟩
      · rw [← hterm]
        exact congrArg Individual.term (Scope.resolve_cons_of_ne _ (Ne.symm hnb))
      · rw [if_neg (by simpa using hwb), if_neg (by simpa using hnb), hindex]
      · rcases hw with ⟨hwn, hnot⟩ | ⟨b', hb', hwb'⟩
        · exact .inl ⟨hwn, fun hmem => (List.mem_cons.mp hmem).elim (fun h => hnb h.symm) hnot⟩
        · exact .inr ⟨b', List.mem_cons_of_mem _ hb', hwb'⟩

/-- An argument is written as an occurrence that is bound or free as the argument is. -/
theorem Nested.renders_argument (h : Nested m bs) (hn : IsIdentifier n) :
    ∃ w, ((Scope.under bs).resolve n).term = .apply w [] ∧
      Occurrence.Renders ⟨n, .argument, bs.map Binder.surface⟩
        ⟨w, .argument, bs.map Binder.text⟩ := by
  obtain ⟨w, hterm, hindex, hw⟩ := h.resolve hn
  refine ⟨w, hterm, rfl, fun _ => ⟨hindex.symm, fun hfree => ?_⟩, nofun⟩
  rcases hw with ⟨hwn, -⟩ | ⟨b, hb, rfl⟩
  · exact hwn.symm
  · have hnone : (bs.map Binder.text).idxOf? b.text = none := hindex.trans hfree
    exact absurd (List.mem_map_of_mem hb) (List.idxOf?_eq_none_iff.mp hnone)

/-- No binder is written like a name of the query, so a predicate is free in the script. -/
theorem Nested.renders_predicate (hn : IsIdentifier n) :
    Occurrence.Renders ⟨n, .predicate, bs.map Binder.surface⟩
      ⟨n, .predicate, bs.map Binder.text⟩ := by
  refine ⟨rfl, nofun, fun _ => ⟨List.idxOf?_eq_none_iff.mpr fun hmem => ?_, rfl⟩⟩
  obtain ⟨b, -, hb⟩ := List.mem_map.mp hmem
  exact Binder.text_ne_of_isIdentifier hn hb.symm

/-- The sentence of a formula has an occurrence for each one of the formula. -/
theorem Nested.forall₂_occurrences (h : Nested k.binders bs) (hf : ∀ n ∈ f.names, IsIdentifier n) :
    List.Forall₂ Occurrence.Renders (f.occurrences (bs.map Binder.surface))
      (((Sentence.resolve (Scope.under bs) f k).1.statement sort).occurrences
        (bs.map Binder.text)) := by
  induction f generalizing bs k with
  | atom n args =>
    rw [Formula.names, List.forall_mem_cons] at hf
    refine .cons (renders_predicate hf.1) ?_
    show List.Forall₂ _ _ (Smt.termOccurrences _ ((args.map _).map _))
    have hargs := hf.2
    induction args with
    | nil => exact .nil
    | cons a args ih =>
      rw [List.forall_mem_cons] at hargs
      obtain ⟨w, hterm, hrenders⟩ := h.renders_argument hargs.1
      rw [List.map_cons, List.map_cons, List.map_cons, Smt.termOccurrences, hterm]
      exact .cons hrenders (ih ⟨hf.1, hargs.2⟩ hargs.2)
  | neg f ih => exact ih h hf
  | binary op l r ihl ihr =>
    rw [Formula.names, List.forall_mem_append] at hf
    exact List.rel_append (ihl h hf.1) (ihr (h.mono Sentence.binders_le_resolve) hf.2)
  | quantified q v f ih =>
    rw [Formula.names, List.forall_mem_cons] at hf
    exact @ih (⟨v, k.binders + 1⟩ :: bs) ⟨k.binders + 1, k.witnesses⟩ (h.bind hf.1) hf.2

end Query

end DeductionBoard
