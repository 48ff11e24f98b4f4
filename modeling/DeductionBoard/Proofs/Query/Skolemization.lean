import DeductionBoard.Proofs.Query.Faithful
import DeductionBoard.Proofs.Query.Witnesses

/-! Queries with made-up witnesses. The script declares every witness with the number of universals
that it depends on. Main result: where no hypothesis has a variable of the surface name of
witnesses, the script is well-sorted, and it is satisfiable exactly when the script without
witnesses is. A variable of that name can hide a witness, and then the script with witnesses may be
satisfiable although the one without them is not. -/

namespace DeductionBoard.Query

universe u

variable {sort : String} {k : Numbering}

namespace Entailment

variable {o : Options} {e : Entailment} {s : Signature} {fs : List Formula}

section Sentences

theorem witnesses_prefix_resolveAll (fs : List Formula) (k : Numbering) :
    k.witnesses <+: (resolveAll true fs k).2.witnesses := by
  induction fs generalizing k with
  | nil => exact List.prefix_rfl
  | cons f fs ih => exact (Sentence.witnesses_prefix_skolemize [] [] f k).trans (ih _)

/-- Hypotheses about no individuals have no witnesses. -/
theorem witnesses_resolveAll_skolem (h : ∀ f ∈ fs, f.isFirstOrder = false) :
    (resolveAll true fs k).2.witnesses = k.witnesses := by
  induction fs generalizing k with
  | nil => rfl
  | cons f fs ih =>
    rw [List.forall_mem_cons] at h
    exact (ih h.2).trans (Sentence.witnesses_skolemize h.1)

/-- What holds of the sentence of every formula, wherever its witnesses come among all of them. -/
theorem forall_resolveAll_skolem {P : Sentence → Prop} {ws : List Nat}
    (h : ∀ f ∈ fs, ∀ k, (Sentence.skolemize [] [] f k).2.witnesses <+: ws →
      P (Sentence.skolemize [] [] f k).1)
    (hws : (resolveAll true fs k).2.witnesses <+: ws) : ∀ t ∈ (resolveAll true fs k).1, P t := by
  induction fs generalizing k with
  | nil => exact fun _ ht => absurd ht List.not_mem_nil
  | cons f fs ih =>
    rw [List.forall_mem_cons] at h
    have hrest := witnesses_prefix_resolveAll fs (Sentence.skolemize [] [] f k).2
    refine List.forall_mem_cons.mpr ⟨h.1 k (hrest.trans hws), ?_⟩
    exact ih h.2 hws

/-- The hypotheses with witnesses for their existentials, and the numbers behind them. -/
def skolemized (e : Entailment) : List Sentence × Numbering := resolveAll true e.formulas ⟨0, []⟩

/-- The sentences of a query with made-up witnesses. The goal is negated and has none. -/
def skolemSentences (e : Entailment) : List Sentence :=
  e.skolemized.1 ++ [.neg (Sentence.resolve [] e.goal e.skolemized.2).1]

@[simp] theorem length_skolemSentences (e : Entailment) :
    e.skolemSentences.length = e.allLabels.length := by
  simp [skolemSentences, skolemized, allLabels, formulas]

theorem assertions_script_skolem (ho : o.skolemize = true) (e : Entailment) (s : Signature) :
    (e.script o s).assertions = e.skolemSentences.zip e.allLabels := by
  rw [script, ho]
  rfl

theorem mem_skolemSentences_of_mem_assertions (ho : o.skolemize = true) {a : Sentence × String}
    (ha : a ∈ (e.script o s).assertions) : a.1 ∈ e.skolemSentences ∧ a.2 ∈ e.allLabels := by
  rw [assertions_script_skolem ho] at ha
  exact List.of_mem_zip ha

/-- A property of sentences that negation keeps holds of all of them when it holds of the goal's and
of those of the hypotheses, whose witnesses come among those of the query. -/
theorem forall_skolemSentences {P : Sentence → Prop} (hneg : ∀ t, P t → P (.neg t))
    (h : ∀ f ∈ e.formulas, ∀ k,
      (Sentence.skolemize [] [] f k).2.witnesses <+: e.skolemized.2.witnesses →
        P (Sentence.skolemize [] [] f k).1)
    (hgoal : ∀ k, P (Sentence.resolve [] e.goal k).1) : ∀ t ∈ e.skolemSentences, P t := by
  rw [skolemSentences, List.forall_mem_append, List.forall_mem_singleton]
  exact ⟨forall_resolveAll_skolem h List.prefix_rfl, hneg _ (hgoal _)⟩

end Sentences

section Declarations

/-- Declarations of witnesses with these numbers of arguments. -/
def witnessDeclarations (ws : List Nat) : List Declaration :=
  ws.mapIdx fun i arity => .witness (i + 1) arity

theorem names_witnessDeclarations (ws : List Nat) :
    (witnessDeclarations ws).map Declaration.name =
      (List.range ws.length).map fun i => witnessName (i + 1) := by
  refine List.ext_getElem (by simp [witnessDeclarations]) fun i _ _ => ?_
  simp [witnessDeclarations, Declaration.name]

theorem declarations_script_skolem (ho : o.skolemize = true) (e : Entailment) (s : Signature) :
    (e.script o s).declarations =
      s.sorted.map declarationOf ++ witnessDeclarations e.skolemized.2.witnesses := by
  have hgoal : (Sentence.resolve [] e.goal e.skolemized.2).2.witnesses =
      e.skolemized.2.witnesses := Sentence.witnesses_resolve
  rw [← hgoal, script, ho]
  rfl

/-- Names of formulas hold no mark, so no witness is called like one of them. -/
theorem Plain.nodup_declarations (h : e.Plain o) (ho : o.skolemize = true)
    (hs : e.signature = .ok s) : ((e.script o s).declarations.map Declaration.name).Nodup := by
  obtain ⟨honce, hmem⟩ := signature_spec hs
  rw [declarations_script_skolem ho, List.map_append, List.nodup_append, names_witnessDeclarations]
  refine ⟨Entailment.nodup_declarations honce, ?_, ?_⟩
  · refine List.nodup_range.map fun i j hij => ?_
    exact Nat.succ.inj (witnessName_injective hij)
  · intro n hn n' hn'
    rw [List.map_map, List.mem_map] at hn
    obtain ⟨u, hu, rfl⟩ := hn
    obtain ⟨i, -, rfl⟩ := List.mem_map.mp hn'
    obtain ⟨f, hf, huses⟩ := (hmem u).mp (Signature.mem_sorted.mp hu)
    rw [Function.comp_apply, name_declarationOf]
    exact witnessName_ne_of_isIdentifier (h.names f hf _ (mem_names_of_mem_uses huses)) _

/-- Where there are witnesses, the script speaks about individuals. -/
theorem firstOrder_of_witnesses (hws : e.skolemized.2.witnesses ≠ []) :
    (e.script o s).firstOrder = true := by
  by_contra hnot
  refine hws (witnesses_resolveAll_skolem fun f hf => ?_)
  rw [Bool.eq_false_iff]
  intro hfirst
  exact hnot (List.any_eq_true.mpr ⟨f, List.mem_append_left _ hf, hfirst⟩)

theorem declaresWitnesses_declared (h : e.Plain o) (ho : o.skolemize = true)
    (hs : e.signature = .ok s) :
    DeclaresWitnesses o.sortName ((e.script o s).declared o.sortName)
      e.skolemized.2.witnesses := by
  intro i n hi
  have hd : Declaration.witness (i + 1) n ∈ (e.script o s).declarations := by
    rw [declarations_script_skolem ho]
    refine List.mem_append_right _ (List.mem_of_getElem? (i := i) ?_)
    rw [witnessDeclarations, List.getElem?_mapIdx, hi, Option.map_some]
  exact rank?_afterAll_of_mem (h.nodup_declarations ho hs) hd

end Declarations

theorem Plain.goal_names (h : e.Plain o) : ∀ n ∈ e.goal.names, IsIdentifier n :=
  h.names e.goal (List.mem_append_right _ List.mem_cons_self)

/-- A query with plain names and lines has a clean text with made-up witnesses, too. -/
theorem Plain.clean_skolem (h : e.Plain o) (ho : o.skolemize = true) (hs : e.signature = .ok s) :
    (e.script o s).Clean o.sortName where
  sort_eq := rfl
  sort_nameable := h.nameable
  title := h.title
  sequent := singleLine_sequent h.names
  declarations := by
    rw [declarations_script_skolem ho, List.forall_mem_append, List.forall_mem_map]
    refine ⟨h.named_declarationOf hs, fun d hd => ?_⟩
    obtain ⟨i, hi, rfl⟩ := List.mem_mapIdx.mp hd
    trivial
  sentences := by
    intro a ha
    refine forall_skolemSentences (fun _ => id) (fun f hf k _ => ?_) (fun k => ?_) a.1
      (mem_skolemSentences_of_mem_assertions ho ha).1
    · have hnames := h.names f (List.mem_append_left _ hf)
      exact Sentence.named_skolemize hnames (Scope.numbered_nil _) (by simp)
    · exact Sentence.named_resolve h.goal_names (Scope.numbered_nil _)
  labels := fun a ha =>
    h.singleLine_allLabels a.2 (mem_skolemSentences_of_mem_assertions ho ha).2

theorem wellSorted_entries_skolem (h : e.Plain o) (ho : o.skolemize = true)
    (hs : e.signature = .ok s) (hsk : ∀ f ∈ e.formulas, "sk" ∉ f.boundVars) :
    ((e.script o s).entries o.sortName).WellSorted := by
  have hnodup := h.nodup_declarations ho hs
  have hdeclared := declaresWitnesses_declared h ho hs
  refine Script.wellSorted_entries hnodup ?_ fun a ha => ?_
  · rw [declarations_script_skolem ho, List.forall_mem_append, List.forall_mem_map]
    refine ⟨firstOrder_or_rank_declarationOf hs o.sortName, fun d hd => ?_⟩
    refine .inl (firstOrder_of_witnesses fun hnil => ?_)
    rw [hnil] at hd
    exact absurd hd List.not_mem_nil
  · refine forall_skolemSentences (P := fun t =>
      (t.statement o.sortName).WellSorted ((e.script o s).declared o.sortName))
      (fun _ ht => ht) (fun f hf k hws => ?_) (fun k => ?_) a.1
      (mem_skolemSentences_of_mem_assertions ho ha).1
    · have hfits := h.fits hs hnodup (List.mem_append_left _ hf) k.binders
      exact wellSorted_skolemize hfits (hsk f hf) (by simp [Universals]) hws hdeclared
    · have hfits := h.fits hs hnodup (List.mem_append_right _ List.mem_cons_self) k.binders
      exact hfits.wellSorted_resolve

section Meaning

variable {D : Type u} {I : Smt.Interpretation D}

/-- A formula does not speak of witnesses. -/
theorem holds_iff_of_keeps {m : Nat} {J : Smt.Interpretation D} {f : Formula} (h : Keeps m I J)
    (hf : ∀ n ∈ f.names, IsIdentifier n) :
    f.Holds ⟨J.holds⟩ J.constant ↔ f.Holds ⟨I.holds⟩ I.constant := by
  rw [h.holds]
  refine Formula.holds_congr fun x hx => ?_
  exact congrFun (h.value_of_isIdentifier (hf x (Formula.mem_names_of_mem_freeVars hx))) []

/-- Hypotheses are true where their sentences with witnesses are. -/
theorem holds_of_satisfies_resolveAll (hfs : ∀ f ∈ fs, ∀ m, Reached [] [] m f)
    (h : ∀ t ∈ (resolveAll true fs k).1, I.Satisfies (t.statement sort) I.constant) :
    ∀ f ∈ fs, f.Holds ⟨I.holds⟩ I.constant := by
  induction fs generalizing k with
  | nil => exact fun _ hf => absurd hf List.not_mem_nil
  | cons f fs ih =>
    rw [List.forall_mem_cons] at hfs
    obtain ⟨hfirst, hrest⟩ := List.forall_mem_cons.mp h
    refine List.forall_mem_cons.mpr ⟨?_, ih hfs.2 hrest⟩
    exact holds_of_satisfies_skolemize (hfs.1 k.binders) (fun _ _ => rfl) hfirst

/-- Where hypotheses are true, their witnesses can be given values that make the sentences true. -/
theorem exists_satisfies_resolveAll (hfs : ∀ f ∈ fs, ∀ m, Reached [] [] m f)
    (h : ∀ f ∈ fs, f.Holds ⟨I.holds⟩ I.constant) :
    ∃ J, Keeps k.witnesses.length I J ∧
      ∀ K, Keeps (resolveAll true fs k).2.witnesses.length J K →
        ∀ t ∈ (resolveAll true fs k).1, K.Satisfies (t.statement sort) K.constant := by
  induction fs generalizing k I with
  | nil => exact ⟨I, .refl _ I, fun _ _ _ ht => absurd ht List.not_mem_nil⟩
  | cons f fs ih =>
    rw [List.forall_mem_cons] at hfs h
    let k₁ := (Sentence.skolemize [] [] f k).2
    obtain ⟨J₁, hJ₁, hfirst⟩ : Realizable sort I [] [] (fun _ => I.constant) k
        (Sentence.skolemize [] [] f k) := realizable_skolemize (hfs.1 k.binders) fun _ => h.1
    obtain ⟨J₂, hJ₂, hrest⟩ := ih (k := k₁) hfs.2 fun g hg =>
      (holds_iff_of_keeps hJ₁ (hfs.2 g hg 0).names).mpr (h.2 g hg)
    have hle := (Sentence.witnesses_prefix_skolemize [] [] f k).length_le
    have hle' := (witnesses_prefix_resolveAll fs k₁).length_le
    refine ⟨J₂, hJ₁.trans hJ₂ hle, fun K hK => List.forall_mem_cons.mpr ⟨?_, hrest K hK⟩⟩
    have hkeeps := hJ₂.trans hK hle'
    refine hfirst K hkeeps K.constant ⟨fun _ => rfl, fun n hn => ?_⟩
    exact congrFun ((hJ₁.trans hkeeps hle).value_of_isIdentifier hn) []

theorem Plain.reached (h : e.Plain o) (hsk : ∀ f ∈ e.formulas, "sk" ∉ f.boundVars) :
    ∀ f ∈ e.formulas, ∀ m, Reached [] [] m f := fun f hf m =>
  ⟨h.names f (List.mem_append_left _ hf), hsk f hf, Scope.numbered_nil m, by simp⟩

/-- An interpretation satisfies the assertions exactly when it makes the sentences of the hypotheses
true and the goal false. -/
theorem satisfies_assertions_skolem (h : e.Plain o) (ho : o.skolemize = true)
    (I : Smt.Interpretation D) :
    (∀ f ∈ ((e.script o s).entries o.sortName).assertions, I.Satisfies f I.constant) ↔
      (∀ t ∈ e.skolemized.1, I.Satisfies (t.statement o.sortName) I.constant) ∧
        ¬ e.goal.Holds ⟨I.holds⟩ I.constant := by
  rw [Script.assertions_entries, assertions_script_skolem ho,
    map_statement_zip (length_skolemSentences e), List.forall_mem_map, skolemSentences,
    List.forall_mem_append, List.forall_mem_singleton]
  refine and_congr_right fun _ => not_congr ?_
  exact satisfies_resolve h.goal_names (Scope.numbered_nil _) Scope.spares_nil fun _ _ => rfl

/-- The script with witnesses is satisfiable exactly when some interpretation makes the hypotheses
true and the goal false. -/
theorem satisfiable_skolem_iff (h : e.Plain o) (ho : o.skolemize = true)
    (hsk : ∀ f ∈ e.formulas, "sk" ∉ f.boundVars) :
    ((e.script o s).entries o.sortName).Satisfiable.{u} ↔
      ∃ (D : Type u) (I : Smt.Interpretation D),
        (∀ f ∈ e.formulas, f.Holds ⟨I.holds⟩ I.constant) ∧
          ¬ e.goal.Holds ⟨I.holds⟩ I.constant := by
  constructor
  · rintro ⟨D, I, hI⟩
    obtain ⟨hsentences, hgoal⟩ := (satisfies_assertions_skolem h ho I).mp hI
    exact ⟨D, I, holds_of_satisfies_resolveAll (h.reached hsk) hsentences, hgoal⟩
  · rintro ⟨D, I, hformulas, hgoal⟩
    obtain ⟨J, hJ, hsentences⟩ :=
      exists_satisfies_resolveAll (k := ⟨0, []⟩) (h.reached hsk) hformulas
    refine ⟨D, J, (satisfies_assertions_skolem h ho J).mpr ⟨hsentences J (.refl _ J), ?_⟩⟩
    rwa [holds_iff_of_keeps hJ h.goal_names]

end Meaning

theorem Plain.with_skolemize (h : e.Plain o) (b : Bool) : e.Plain { o with skolemize := b } :=
  ⟨h.names, h.sort_simple, h.sort_free, h.title, h.labels⟩

theorem query_of_signature (hs : e.signature = .ok s) (o : Options) :
    e.query o = .ok ⟨e.script o s, s.sorted.map (·.1), e.formulas, e.goal⟩ := by
  rw [query, hs]

end Entailment

/-- Where no hypothesis has a variable of the surface name of witnesses, the texts with and without
witnesses are well-sorted scripts, and one is satisfiable exactly when the other is. -/
theorem satisfiable_skolemize_iff {o : Options} {e : Entailment} {q : Query} (h : e.Plain o)
    (hsk : ∀ f ∈ e.formulas, "sk" ∉ f.boundVars)
    (hq : e.query { o with skolemize := true } = .ok q) :
    ∃ q' s s', e.query { o with skolemize := false } = .ok q' ∧ Smt.read q.text = some s ∧
      Smt.read q'.text = some s' ∧ s.WellSorted ∧ s'.WellSorted ∧
      (s.Satisfiable.{u} ↔ s'.Satisfiable.{u}) := by
  have hon := h.with_skolemize true
  have hoff := h.with_skolemize false
  unfold Entailment.query at hq
  split at hq
  · exact absurd hq (by simp)
  next signature hs =>
  obtain rfl := Except.ok.inj hq
  refine ⟨_, _, _, Entailment.query_of_signature hs _, (hon.clean_skolem rfl hs).read_text,
    (hoff.clean rfl hs).read_text, Entailment.wellSorted_entries_skolem hon rfl hs hsk,
    Entailment.wellSorted_entries hoff rfl hs, ?_⟩
  rw [Entailment.satisfiable_skolem_iff hon rfl hsk]
  exact exists_congr fun D => exists_congr fun I =>
    (Entailment.satisfies_assertions hoff rfl I).symm

/-- Existentials under a universal and under each other; a variable is bound again between them. -/
def chained : Entailment :=
  ⟨[⟨.all "x" (.exist "y" (.conj (.atom "R" ["x", "y"]) (.exist "x" (.atom "R" ["y", "x"])))),
    "hyp_1", none⟩], .exist "y" (.atom "R" ["c", "y"]), none, "chained"⟩

/-- The hypotheses of `satisfiable_skolemize_iff` hold of an entailment with nested existentials. -/
theorem satisfiable_skolemize_iff_chained : chained.Plain .standard ∧
    (∀ f ∈ chained.formulas, "sk" ∉ f.boundVars) ∧
    ∃ q, chained.query { Options.standard with skolemize := true } = .ok q ∧
      ∃ q' s s', chained.query { Options.standard with skolemize := false } = .ok q' ∧
        Smt.read q.text = some s ∧ Smt.read q'.text = some s' ∧ s.WellSorted ∧ s'.WellSorted ∧
        (s.Satisfiable.{0} ↔ s'.Satisfiable.{0}) := by
  have hplain : chained.Plain .standard :=
    ⟨by decide, by decide, by decide, by decide, by decide⟩
  have hsk : ∀ f ∈ chained.formulas, "sk" ∉ f.boundVars := by decide
  have hsignature : chained.signature = .ok [("R", .predicate 2), ("c", .individual)] := by decide
  have hq := Entailment.query_of_signature hsignature { Options.standard with skolemize := true }
  exact ⟨hplain, hsk, _, hq, satisfiable_skolemize_iff hplain hsk hq⟩

/-- The variable `sk` of the first binder is written like the first witness. -/
def hidden : Entailment :=
  ⟨[⟨.exist "y" (.all "sk" (.atom "P" ["sk", "y"])), "hyp_1", none⟩],
    .exist "y" (.all "x" (.atom "P" ["x", "y"])), none, "hidden"⟩

/-- A variable that hides a witness makes a script satisfiable whose entailment holds. -/
theorem satisfiable_skolemize_hidden : hidden.Plain .standard ∧ ∃ q q' s s',
    hidden.query { Options.standard with skolemize := true } = .ok q ∧
      hidden.query { Options.standard with skolemize := false } = .ok q' ∧
      Smt.read q.text = some s ∧ Smt.read q'.text = some s' ∧
      s.Satisfiable.{0} ∧ ¬ s'.Satisfiable.{0} := by
  have hplain : hidden.Plain .standard :=
    ⟨by decide, by decide, by decide, by decide, by decide⟩
  have hon := hplain.with_skolemize true
  have hoff := hplain.with_skolemize false
  have hsignature : hidden.signature = .ok [("P", .predicate 2)] := by decide
  have hq := Entailment.query_of_signature hsignature
  refine ⟨hplain, _, _, _, _, hq _, hq _, (hon.clean_skolem rfl hsignature).read_text,
    (hoff.clean rfl hsignature).read_text, ?_, ?_⟩
  · let I : Smt.Interpretation Bool := ⟨fun _ _ => true, fun _ ds => ∃ d, ds = [d, d]⟩
    refine ⟨Bool, I, (Entailment.satisfies_assertions_skolem hon rfl I).mpr ⟨?_, ?_⟩⟩
    · have hsentences : hidden.skolemized.1 = [.quantified .all ⟨"sk", 1⟩
          (.atom "P" [.bound ⟨"sk", 1⟩, .witness 1 []])] := by decide
      rw [hsentences, List.forall_mem_singleton]
      intro d
      let τ := Function.update I.constant (⟨"sk", 1⟩ : Binder).text d
      have hself : τ (⟨"sk", 1⟩ : Binder).text = d := Function.update_self _ _ _
      have hhidden : τ (witnessName 1) = d := hself
      exact ⟨d, congrArg₂ (fun a b => [a, b]) hself hhidden⟩
    · rintro ⟨y, hy⟩
      obtain ⟨d, hd⟩ := hy !y
      have hpair : (!y) = d ∧ y = d := by simpa using hd
      exact absurd (hpair.1.trans hpair.2.symm) (by simp)
  · rintro ⟨D, I, hI⟩
    obtain ⟨hformulas, hgoal⟩ := (Entailment.satisfies_assertions hoff rfl I).mp hI
    obtain ⟨y, hy⟩ := hformulas _ List.mem_cons_self
    refine hgoal ⟨y, fun x => ?_⟩
    simpa [Formula.Holds] using hy x

end DeductionBoard.Query
