import DeductionBoard.Proofs.Query.Header
import DeductionBoard.Proofs.Theory.Scoping

/-! What the lemma of a theory states. Its quantifiers range over individuals and over predicates, so
a name denotes one of each, and a quantifier gives its name both. Main result: where no predicate
stands under a quantifier of its own name, the lemma of a query is valid exactly when the script of
the query is contradictory. -/

namespace DeductionBoard

universe u

open Query

/-- What a name stands for. A well-typed formula looks at one of the two, the individual or the
predicate; without an equality, one domain is as good as one for each type of individuals. -/
structure Denotation (D : Type u) where
  individual : D
  holds : List D → Prop

namespace Theory

section Meaning

variable {D : Type u} {ρ : String → Denotation D} {M : Structure D} {f : Formula}
  {scope : List String}

/-- The truth of a formula of a theory. -/
def Holds : Formula → (String → Denotation D) → Prop
  | .atom n args, ρ => (ρ n).holds (args.map fun a => (ρ a).individual)
  | .neg f, ρ => ¬ Holds f ρ
  | .binary op l r, ρ => op.Joins (Holds l ρ) (Holds r ρ)
  | .quantified q v f, ρ => q.Ranges fun x : Denotation D => Holds f (Function.update ρ v x)

/-- What does not look at the predicate of a name ranges over individuals. -/
theorem ranges_individual (q : Quantifier) {P : D → Prop} :
    q.Ranges (fun x : Denotation D => P x.individual) ↔ q.Ranges P := by
  cases q with
  | all => exact ⟨fun h d => h ⟨d, fun _ => True⟩, fun h x => h x.individual⟩
  | exist => exact ⟨fun ⟨x, hx⟩ => ⟨x.individual, hx⟩, fun ⟨d, hd⟩ => ⟨⟨d, fun _ => True⟩, hd⟩⟩

/-- A formula without hidden predicates means what it means in a structure that has its predicates. -/
theorem holds_iff (hvisible : ∀ x ∈ f.occurrences scope, ¬ x.Hidden)
    (hpredicates : ∀ x ∈ f.occurrences scope, x.place = .predicate →
      (ρ x.name).holds = M.holds x.name) :
    Holds f ρ ↔ f.Holds M fun a => (ρ a).individual := by
  induction f generalizing scope ρ with
  | atom n args =>
    have hn := hpredicates ⟨n, .predicate, scope⟩ List.mem_cons_self rfl
    rw [Holds, Formula.Holds, ← hn]
  | neg f ih => exact not_congr (ih hvisible hpredicates)
  | binary op l r ihl ihr =>
    rw [Formula.occurrences, List.forall_mem_append] at hvisible hpredicates
    exact op.joins_congr (ihl hvisible.1 hpredicates.1) (ihr hvisible.2 hpredicates.2)
  | quantified q v f ih =>
    have hbody : ∀ x : Denotation D, Holds f (Function.update ρ v x) ↔
        f.Holds M (Function.update (fun a => (ρ a).individual) v x.individual) := by
      intro x
      rw [Formula.occurrences] at hvisible hpredicates
      rw [ih hvisible fun y hy hplace => ?_]
      · refine Formula.holds_congr fun a _ => ?_
        by_cases hav : a = v
        · rw [hav, Function.update_self, Function.update_self]
        · rw [Function.update_of_ne hav, Function.update_of_ne hav]
      · -- the name is not that of the quantifier, because the predicate is not hidden
        have hyv : y.name ≠ v := by
          rintro rfl
          have hbound := (Formula.suffix_scope hy).subset List.mem_cons_self
          exact hvisible y hy ⟨hplace, hbound⟩
        rw [Function.update_of_ne hyv]
        exact hpredicates y hy hplace
    exact (q.ranges_congr hbody).trans (ranges_individual q
      (P := fun d => f.Holds M (Function.update (fun a => (ρ a).individual) v d)))

end Meaning

namespace Lemma

/-- Everything that a lemma says, the conclusion last. -/
def formulas (l : Lemma) : List Formula := l.assumptions.map (·.2) ++ [l.conclusion]

/-- Whatever its names denote, the conclusion is true where the assumptions are. -/
def Valid (l : Lemma) : Prop :=
  ∀ (D : Type u) (ρ : String → Denotation D), (∀ a ∈ l.assumptions, Holds a.2 ρ) →
    Holds l.conclusion ρ

/-- A lemma without hidden predicates is valid when its assumptions entail its conclusion. -/
theorem valid_iff {l : Lemma} (h : ∀ f ∈ l.formulas, ∀ x ∈ f.occurrences [], ¬ x.Hidden) :
    l.Valid.{u} ↔ Formula.Entails.{u} (l.assumptions.map (·.2)) l.conclusion := by
  rw [formulas, List.forall_mem_append, List.forall_mem_singleton] at h
  have hiff : ∀ (D : Type u) (M : Structure D) (ρ : String → D) f,
      (∀ x ∈ f.occurrences [], ¬ x.Hidden) →
        (Holds f (fun n => ⟨ρ n, M.holds n⟩) ↔ f.Holds M ρ) :=
    fun D M ρ f hf => holds_iff (M := M) (ρ := fun n => ⟨ρ n, M.holds n⟩) hf fun _ _ _ => rfl
  constructor
  · intro hvalid D M ρ hassumptions
    rw [List.forall_mem_map] at hassumptions
    refine (hiff D M ρ _ h.2).mp (hvalid D _ fun a ha => ?_)
    exact (hiff D M ρ _ (h.1 _ (List.mem_map_of_mem ha))).mpr (hassumptions a ha)
  · intro hentails D ρ hassumptions
    refine (hiff D ⟨fun n => (ρ n).holds⟩ (fun n => (ρ n).individual) _ h.2).mpr
      (hentails D _ _ (List.forall_mem_map.mpr fun a ha => ?_))
    exact (hiff D ⟨fun n => (ρ n).holds⟩ (fun n => (ρ n).individual) _
      (h.1 _ (List.mem_map_of_mem ha))).mp (hassumptions a ha)

end Lemma

end Theory

namespace Query

variable {o : Options} {e : Entailment} {q : Query}

/-- The statements that the script of a query asserts. -/
def statements (o : Options) (q : Query) : List Smt.Statement :=
  q.script.assertions.map fun a => a.1.statement o.sortName

theorem statements_eq (ho : o.skolemize = false) {s : Signature} :
    (⟨e.script o s, s.sorted.map (·.1), e.formulas, e.goal⟩ : Query).statements o =
      e.sentences.map (Sentence.statement o.sortName) := by
  rw [statements, Entailment.assertions_script ho, Entailment.map_statement_zip
    (Entailment.length_sentences e)]

theorem assertions_read (s : Signature) :
    ((e.script o s).entries o.sortName).assertions =
      (⟨e.script o s, s.sorted.map (·.1), e.formulas, e.goal⟩ : Query).statements o :=
  Script.assertions_entries ..

/-- The formulas of a query have their sentences in its script, the goal negated. -/
theorem Entailment.forall₂_statements {R : Formula → Smt.Statement → Prop} {sort : String}
    (h : ∀ f ∈ e.allFormulas, ∀ k, R f ((Sentence.resolve [] f k).1.statement sort))
    (hneg : ∀ f s, R f s → R f (.neg s)) :
    List.Forall₂ R e.allFormulas (e.sentences.map (Sentence.statement sort)) := by
  have hresolved : ∀ fs : List Formula, (∀ f ∈ fs, f ∈ e.allFormulas) → ∀ k,
      List.Forall₂ R fs ((resolveAll false fs k).1.map (Sentence.statement sort)) := by
    intro fs hfs
    induction fs with
    | nil => exact fun _ => .nil
    | cons f fs ih =>
      rw [List.forall_mem_cons] at hfs
      exact fun k => .cons (h f hfs.1 k) (ih hfs.2 _)
  have hgoal : e.goal ∈ e.allFormulas := List.mem_append_right _ (List.mem_singleton_self _)
  rw [sentences, List.map_append, allFormulas]
  exact List.rel_append (hresolved _ (fun f hf => List.mem_append_left _ hf) _)
    (.cons (hneg _ _ (h _ hgoal _)) .nil)

/-- The theory of a query is read as a lemma about the formulas of the query, and its script as
statements about the same formulas. An occurrence of a name is bound alike in both unless it is a
predicate under a quantifier of its name, which is bound in the theory and free in the script; without
such an occurrence the lemma is valid exactly when the statements contradict each other. -/
theorem exports_agree_iff (hnames : ∀ f ∈ e.allFormulas, ∀ n ∈ f.names, IsIdentifier n)
    (ho : o.skolemize = false) (hq : e.query o = .ok q) (name : String) :
    ∃ t, Theory.read (theory q name) = some t ∧ t.content.formulas = e.allFormulas ∧
      (e.Plain o → ∃ s, Smt.read q.text = some s ∧ s.assertions = q.statements o) ∧
      List.Forall₂ (fun f s => List.Forall₂
          (fun x y : Occurrence => y.place = x.place ∧ (x.Agrees y ↔ ¬ x.Hidden))
          (f.occurrences []) (s.occurrences [])) t.content.formulas (q.statements o) ∧
      ((∀ f ∈ t.content.formulas, ∀ x ∈ f.occurrences [], ¬ x.Hidden) →
        (t.content.Valid.{u} ↔ ¬ ∃ (D : Type u) (I : Smt.Interpretation D),
          ∀ s ∈ q.statements o, I.Satisfies s I.constant)) := by
  unfold Entailment.query at hq
  split at hq
  · exact absurd hq (by simp)
  next s hs =>
  obtain rfl := Except.ok.inj hq
  have hwords : ∀ f ∈ e.formulas ++ [e.goal], ∀ n ∈ f.names, isWord n.toList = true :=
    fun f hf n hn => (hnames f hf n hn).1
  have hformulas : ∀ p, (Theory.lemmaOf p name).formulas = p.hypotheses ++ [p.conclusion] :=
    fun p => congrArg (· ++ [p.conclusion]) (Theory.map_snd_lemmaOf p name)
  refine ⟨_, Theory.read_theory hwords name, hformulas _,
    fun hplain => ⟨_, hplain.read_text hs, assertions_read s⟩, ?_, fun hvisible => ?_⟩
  · rw [hformulas, statements_eq ho]
    refine Entailment.forall₂_statements (fun f hf k => ?_) fun f s h => h
    exact (Nested.forall₂_occurrences (.nil k.binders) (hnames f hf)).imp fun x y h =>
      ⟨h.place, h.agrees_iff⟩
  · rw [Theory.Lemma.valid_iff hvisible, Theory.map_snd_lemmaOf, statements_eq ho, Formula.Entails]
    constructor
    · rintro hentails ⟨D, I, hI⟩
      rw [List.forall_mem_map, Entailment.satisfies_sentences hnames] at hI
      exact hI.2 (hentails D ⟨I.holds⟩ I.constant hI.1)
    · intro hnone D M ρ hhypotheses
      by_contra hgoal
      let I : Smt.Interpretation D := ⟨fun n _ => ρ n, M.holds⟩
      refine hnone ⟨D, I, ?_⟩
      rw [List.forall_mem_map, Entailment.satisfies_sentences hnames]
      exact ⟨hhypotheses, hgoal⟩

/-- Names that are used as predicates, free names and bound variables, one of them bound twice. -/
def reused : Entailment :=
  ⟨[⟨.all "P" (.conj (.atom "Q" ["P", "x"]) (.exist "P" (.atom "Q" ["P", "P"]))), "hyp_1", none⟩,
      ⟨.atom "P" ["x"], "hyp_2", none⟩],
    .exist "x" (.atom "P" ["x"]), none, "reused"⟩

/-- The hypotheses of `exports_agree_iff` hold of an entailment that reuses its names, and no
predicate of it is hidden. -/
theorem exports_agree_iff_reused : Options.standard.skolemize = false ∧
    (∀ f ∈ reused.allFormulas, ∀ n ∈ f.names, IsIdentifier n) ∧
    ∃ q, reused.query .standard = .ok q ∧ ∃ t, Theory.read (theory q "reused") = some t ∧
      t.content.formulas = reused.allFormulas ∧
      (t.content.Valid.{0} ↔ ¬ ∃ (D : Type) (I : Smt.Interpretation D),
        ∀ s ∈ q.statements .standard, I.Satisfies s I.constant) := by
  have hnames : ∀ f ∈ reused.allFormulas, ∀ n ∈ f.names, IsIdentifier n := by decide
  have hsignature : reused.signature = .ok
      [("Q", .predicate 2), ("x", .individual), ("P", .predicate 1)] := by
    decide
  have hq := Entailment.query_of_signature hsignature .standard
  obtain ⟨t, ht, hformulas, -, -, hvalid⟩ := exports_agree_iff hnames rfl hq "reused"
  refine ⟨rfl, hnames, _, hq, t, ht, hformulas, hvalid ?_⟩
  rw [hformulas]
  simp only [Occurrence.Hidden]
  decide

/-- A predicate that the goal binds although it is one of the hypothesis. -/
def rebound : Entailment :=
  ⟨[⟨.atom "P" ["a"], "hyp_1", none⟩], .all "P" (.atom "P" ["a"]), none, "entailment"⟩

/-- The script leaves the predicate of the goal free and is contradictory; the theory binds it, and
its lemma is not valid. -/
theorem exports_disagree_rebound : rebound.Plain .standard ∧
    ∃ q t s, rebound.query .standard = .ok q ∧ Theory.read (theory q "t") = some t ∧
      Smt.read q.text = some s ∧
      ¬ List.Forall₂ (fun f s => List.Forall₂ (fun x y : Occurrence => x.binder? = y.binder?)
        (f.occurrences []) (s.occurrences [])) t.content.formulas s.assertions ∧
      ¬ s.Satisfiable.{0} ∧ ¬ t.content.Valid.{0} := by
  have hplain : rebound.Plain .standard := ⟨by decide, by decide, by decide, by decide, by decide⟩
  have hsignature : rebound.signature = .ok [("P", .predicate 1), ("a", .individual)] := by decide
  have hq := Entailment.query_of_signature hsignature .standard
  have hwords : ∀ f ∈ rebound.formulas ++ [rebound.goal], ∀ n ∈ f.names,
      isWord n.toList = true := by decide
  refine ⟨hplain, _, _, _, hq, Theory.read_theory hwords "t", hplain.read_text hsignature, ?_, ?_, ?_⟩
  · have hstatements : rebound.sentences.map (Sentence.statement "Obj") =
        [.holds "P" [.apply "a" []],
          .neg (.quantified .all "P!1" "Obj" (.holds "P" [.apply "a" []]))] := rfl
    rw [assertions_read, statements_eq rfl]
    show ¬ List.Forall₂ _ rebound.allFormulas (rebound.sentences.map (Sentence.statement "Obj"))
    rw [hstatements]
    decide
  · rintro ⟨D, I, hI⟩
    rw [assertions_read, statements_eq rfl, List.forall_mem_map,
      Entailment.satisfies_sentences hplain.names] at hI
    have hpremise := hI.1 _ (List.mem_singleton_self _)
    exact hI.2 fun d => hpremise
  · intro hvalid
    let ρ : String → Denotation Unit := fun _ => ⟨(), fun _ => True⟩
    have hpremise : ∀ a ∈ [("h1", Formula.atom "P" ["a"])], Theory.Holds a.2 ρ :=
      List.forall_mem_singleton.mpr trivial
    exact hvalid Unit ρ hpremise ⟨(), fun _ => False⟩

end Query

end DeductionBoard
