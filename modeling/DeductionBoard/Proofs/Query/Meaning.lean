import DeductionBoard.Proofs.Query.Faithful

/-! What the sentences of a query mean, with the values of binders and witnesses in the place of the
names that they are written with. Main result: where hypotheses are true and the goal is not, all the
sentences of the query without made-up witnesses are true. -/

namespace DeductionBoard.Query

universe u

/-- Values for the names and the witnesses of a query, and what its predicates hold of. -/
structure Interpretation (D : Type u) where
  constant : String → D
  witness : Nat → List D → D
  holds : String → List D → Prop

variable {D : Type u} {I : Interpretation D} {β : Binder → D} {p : Bool}

def Individual.value (I : Interpretation D) (β : Binder → D) : Individual → D
  | .named n => I.constant n
  | .bound b => β b
  | .witness i bs => I.witness i (bs.map β)

namespace Sentence

/-- The sentence is true where binders that no quantifier of it binds have these values. -/
def Holds (I : Interpretation D) : Sentence → (Binder → D) → Prop
  | .atom n args, β => I.holds n (args.map (Individual.value I β))
  | .neg f, β => ¬ f.Holds I β
  | .binary op l r, β => op.Joins (l.Holds I β) (r.Holds I β)
  | .quantified q b f, β => q.Ranges fun d => f.Holds I (Function.update β b d)

/-- The sentence is true; a binder that nothing binds is a name. -/
def TrueIn (I : Interpretation D) (s : Sentence) : Prop := s.Holds I fun b => I.constant b.text

/-- The sentence is true, or false where `p` is. -/
def Sides (I : Interpretation D) (p : Bool) (s : Sentence) (β : Binder → D) : Prop :=
  s.Holds I β ↔ p = true

theorem sides_true {s : Sentence} : s.Sides I true β ↔ s.Holds I β := by simp [Sides]

theorem sides_neg {f : Sentence} : (Sentence.neg f).Sides I p β ↔ f.Sides I (!p) β := by
  cases p <;> simp [Sides, Holds]

/-- A compound sides with `p` when both of its parts side, or when one does. -/
theorem sides_binary {op : Connective} {l r : Sentence} :
    (Sentence.binary op l r).Sides I p β ↔
      if p = (op = .and) then l.Sides I (p != (op = .implies)) β ∧ r.Sides I p β
      else l.Sides I (p != (op = .implies)) β ∨ r.Sides I p β := by
  cases op <;> cases p <;> simp [Sides, Holds, Connective.Joins, imp_iff_not_or]

/-- A quantified sentence sides with `p` when its body does for all individuals, or for one. -/
theorem sides_quantified {q : Quantifier} {b : Binder} {f : Sentence} :
    (Sentence.quantified q b f).Sides I p β ↔
      if (q = .all) = p then ∀ d, f.Sides I p (Function.update β b d)
      else ∃ d, f.Sides I p (Function.update β b d) := by
  cases q <;> cases p <;> simp [Sides, Holds, Quantifier.Ranges]

end Sentence

/-- The binders in the individual have numbers up to `m`. -/
def Individual.UpTo (m : Nat) : Individual → Prop
  | .named _ => True
  | .bound b => b.index ≤ m
  | .witness _ bs => ∀ b ∈ bs, b.index ≤ m

namespace Individual.UpTo

variable {i : Individual} {m n : Nat} {b : Binder}

theorem mono (h : i.UpTo m) (hm : m ≤ n) : i.UpTo n := by
  cases i with
  | named n => trivial
  | bound b => exact Nat.le_trans h hm
  | witness j bs => exact fun b hb => Nat.le_trans (h b hb) hm

/-- A later binder has no part in the value of an individual. -/
theorem value_update (h : i.UpTo m) (hb : m < b.index) (d : D) :
    i.value I (Function.update β b d) = i.value I β := by
  have hne : ∀ b' : Binder, b'.index ≤ m → Function.update β b d b' = β b' := by
    intro b' hle
    refine Function.update_of_ne ?_ _ _
    rintro rfl
    omega
  cases i with
  | named n => rfl
  | bound b' => exact hne b' h
  | witness j bs =>
    exact congrArg (I.witness j) (List.map_congr_left fun b' hb' => hne b' (h b' hb'))

end Individual.UpTo

/-- The sentence of a formula is true where the formula is, with the values of what its names stand
for. -/
theorem holds_resolve {f : Formula} {scope : Scope} {k : Numbering}
    (hscope : ∀ n, (scope.resolve n).UpTo k.binders) :
    (Sentence.resolve scope f k).1.Holds I β ↔
      f.Holds ⟨I.holds⟩ fun n => (scope.resolve n).value I β := by
  induction f generalizing scope k β with
  | atom n args =>
    show I.holds n ((args.map scope.resolve).map (Individual.value I β)) ↔ _
    rw [List.map_map]
    rfl
  | neg f ih => exact not_congr (ih hscope)
  | binary op l r ihl ihr =>
    exact op.joins_congr (ihl hscope) (ihr fun n => (hscope n).mono Sentence.binders_le_resolve)
  | quantified q v f ih =>
    let b : Binder := ⟨v, k.binders + 1⟩
    have hbody : ∀ n, (Scope.resolve ((v, .bound b) :: scope) n).UpTo (k.binders + 1) := by
      intro n
      by_cases hn : n = v
      · rw [hn, Scope.resolve_cons_self]
        exact Nat.le_refl _
      · rw [Scope.resolve_cons_of_ne _ hn]
        exact (hscope n).mono (Nat.le_succ _)
    refine q.ranges_congr fun d => (ih (k := ⟨k.binders + 1, k.witnesses⟩) hbody).trans ?_
    have hvalues : (fun n => (Scope.resolve ((v, .bound b) :: scope) n).value I
        (Function.update β b d)) =
        Function.update (fun n => (scope.resolve n).value I β) v d := by
      funext n
      by_cases hn : n = v
      · rw [hn, Scope.resolve_cons_self, Function.update_self]
        exact Function.update_self _ _ _
      · rw [Scope.resolve_cons_of_ne _ hn, Function.update_of_ne hn]
        exact (hscope n).value_update (Nat.lt_succ_self _) d
    rw [hvalues]

/-- The sentences of a query are true where its hypotheses are and its goal is not. -/
theorem Entailment.trueIn_sentences {e : Entailment} {M : Structure D} {ρ : String → D}
    (h : ∀ f ∈ e.formulas, f.Holds M ρ) (hgoal : ¬ e.goal.Holds M ρ) :
    ∀ s ∈ e.sentences, s.TrueIn ⟨ρ, fun _ _ => ρ "", M.holds⟩ := by
  have hresolve : ∀ (f : Formula) (k : Numbering),
      (Sentence.resolve [] f k).1.TrueIn ⟨ρ, fun _ _ => ρ "", M.holds⟩ ↔ f.Holds M ρ :=
    fun f k => holds_resolve fun n => trivial
  rw [sentences, List.forall_mem_append, List.forall_mem_singleton,
    forall_resolveAll_iff fun f _ k => hresolve f k]
  exact ⟨h, fun hg => hgoal ((hresolve _ _).mp hg)⟩

end DeductionBoard.Query
