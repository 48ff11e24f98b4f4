import DeductionBoard.Proofs.Formula.Printer
import DeductionBoard.Proofs.Query.Layout
import DeductionBoard.Proofs.Query.Resolution

/-! Queries without made-up witnesses. Main result: the text of a query is a well-sorted script that
carries the labels of its hypotheses, and the script is satisfiable exactly when some structure and
valuation make the hypotheses true and the goal false. -/

namespace DeductionBoard.Query

universe u

variable {sort : String} {k : Numbering}

section Sequent

variable {f : Formula}

theorem singleLine_of_isIdentifier {n : String} (h : IsIdentifier n) : SingleLine n := by
  intro c hc
  have hword := isWordChar_of_isIdentifierPart (isIdentifierPart_of_isWord h.1 c hc)
  rw [Bool.eq_false_iff]
  intro hbreak
  simp only [Smt.isLineBreak, Bool.or_eq_true, beq_iff_eq] at hbreak
  rcases hbreak with rfl | rfl <;> exact absurd hword (by decide)

theorem singleLine_pretty (h : ∀ n ∈ f.names, IsIdentifier n) : SingleLine f.pretty := by
  have hsigns : SingleLine (String.ofList Formula.signs) := by decide
  rw [SingleLine, String.toList_ofList] at hsigns
  rw [SingleLine, Formula.pretty, String.toList_ofList]
  exact Formula.forall_mem_chars hsigns fun n hn => singleLine_of_isIdentifier (h n hn)

theorem singleLine_intercalate {s : String} {xs : List String} (hs : SingleLine s)
    (h : ∀ x ∈ xs, SingleLine x) : SingleLine (s.intercalate xs) := by
  induction xs with
  | nil => exact fun c hc => absurd hc List.not_mem_nil
  | cons x xs ih =>
    rw [List.forall_mem_cons] at h
    cases xs with
    | nil => rw [String.intercalate_singleton]; exact h.1
    | cons y xs =>
      rw [String.intercalate_cons_cons]
      exact (h.1.append hs).append (ih h.2)

theorem singleLine_sequent {e : Entailment}
    (h : ∀ f ∈ e.allFormulas, ∀ n ∈ f.names, IsIdentifier n) : SingleLine e.sequent := by
  rw [Entailment.allFormulas, List.forall_mem_append, List.forall_mem_singleton] at h
  have hleft : SingleLine (if e.hypotheses.isEmpty then "⊤" else
      String.intercalate " ∧ " (e.formulas.map Formula.pretty)) := by
    split
    · decide
    · refine singleLine_intercalate (by decide) fun x hx => ?_
      obtain ⟨f, hf, rfl⟩ := List.mem_map.mp hx
      exact singleLine_pretty (h.1 f hf)
  have hturnstile : SingleLine " ⊢ " := by decide
  exact (hleft.append hturnstile).append (singleLine_pretty h.2)

end Sequent

@[simp]
theorem name_declarationOf (u : String × Use) : (Entailment.declarationOf u).name = u.1 := by
  obtain ⟨n, k | k⟩ := u <;> rfl

@[simp] theorem rank_declarationOf (u : String × Use) :
    (Entailment.declarationOf u).rank sort = u.2.rank sort := by
  obtain ⟨n, k | k⟩ := u <;> rfl

namespace Entailment

/-- What the text of a query relies on: names are identifiers, the sort can be written as a symbol,
and the title and the labels are single lines. -/
structure Plain (o : Options) (e : Entailment) : Prop where
  names : ∀ f ∈ e.allFormulas, ∀ n ∈ f.names, IsIdentifier n
  sort_simple : Smt.isSimpleSymbol o.sortName = true
  sort_free : o.sortName ∉ Smt.reserved
  title : SingleLine e.title
  labels : ∀ h ∈ e.hypotheses, SingleLine h.label

variable {o : Options} {e : Entailment} {s : Signature} {fs : List Formula}

/-- What holds of the sentences of some formulas, however they are numbered. -/
theorem forall_resolveAll_iff {P : Sentence → Prop} {Q : Formula → Prop}
    (h : ∀ f ∈ fs, ∀ k, P (Sentence.resolve [] f k).1 ↔ Q f) :
    (∀ t ∈ (resolveAll false fs k).1, P t) ↔ ∀ f ∈ fs, Q f := by
  induction fs generalizing k with
  | nil =>
    exact ⟨fun _ f hf => absurd hf List.not_mem_nil, fun _ t ht => absurd ht List.not_mem_nil⟩
  | cons f fs ih =>
    rw [List.forall_mem_cons] at h
    have hcons : (resolveAll false (f :: fs) k).1 =
        (Sentence.resolve [] f k).1 :: (resolveAll false fs (Sentence.resolve [] f k).2).1 := rfl
    rw [hcons, List.forall_mem_cons, List.forall_mem_cons, h.1, ih h.2]

@[simp] theorem length_resolveAll (skolem : Bool) (fs : List Formula) (k : Numbering) :
    (resolveAll skolem fs k).1.length = fs.length := by
  induction fs generalizing k with
  | nil => rfl
  | cons f fs ih => exact congrArg (· + 1) (ih _)

theorem witnesses_resolveAll (fs : List Formula) (k : Numbering) :
    (resolveAll false fs k).2.witnesses = k.witnesses := by
  induction fs generalizing k with
  | nil => rfl
  | cons f fs ih => exact (ih _).trans Sentence.witnesses_resolve

/-- The numbers behind the hypotheses. -/
def hypothesesNumbering (e : Entailment) : Numbering := (resolveAll false e.formulas ⟨0, []⟩).2

/-- The sentences of a query without made-up witnesses: the hypotheses and the negated goal. -/
def sentences (e : Entailment) : List Sentence :=
  (resolveAll false e.formulas ⟨0, []⟩).1 ++
    [.neg (Sentence.resolve [] e.goal e.hypothesesNumbering).1]

def allLabels (e : Entailment) : List String := e.hypotheses.map (·.label) ++ [goalLabel]

@[simp] theorem length_sentences (e : Entailment) : e.sentences.length = e.allLabels.length := by
  simp [sentences, allLabels, formulas]

theorem assertions_script (ho : o.skolemize = false) (e : Entailment) (s : Signature) :
    (e.script o s).assertions = e.sentences.zip e.allLabels := by
  rw [script, ho]
  rfl

theorem declarations_script (ho : o.skolemize = false) (e : Entailment) (s : Signature) :
    (e.script o s).declarations = s.sorted.map declarationOf := by
  have hwitnesses : (Sentence.resolve [] e.goal e.hypothesesNumbering).2.witnesses = [] := by
    rw [Sentence.witnesses_resolve, hypothesesNumbering, witnesses_resolveAll]
  have hsplit : (e.script o s).declarations = s.sorted.map declarationOf ++
      (Sentence.resolve [] e.goal e.hypothesesNumbering).2.witnesses.mapIdx
        (fun i arity => .witness (i + 1) arity) := by
    rw [script, ho]
    rfl
  rw [hsplit, hwitnesses, List.mapIdx_nil, List.append_nil]

/-- A property of sentences that negation keeps holds of all of them when it holds of the sentence
of every formula. -/
theorem forall_sentences {P : Sentence → Prop} (hneg : ∀ t, P t → P (.neg t))
    (h : ∀ f ∈ e.allFormulas, ∀ k, P (Sentence.resolve [] f k).1) : ∀ t ∈ e.sentences, P t := by
  rw [allFormulas, List.forall_mem_append, List.forall_mem_singleton] at h
  rw [sentences, List.forall_mem_append, List.forall_mem_singleton]
  refine ⟨?_, hneg _ (h.2 _)⟩
  exact (forall_resolveAll_iff fun f hf k => iff_true_intro (h.1 f hf k)).mpr fun _ _ => trivial

theorem mem_sentences_of_mem_assertions (ho : o.skolemize = false) {a : Sentence × String}
    (ha : a ∈ (e.script o s).assertions) : a.1 ∈ e.sentences ∧ a.2 ∈ e.allLabels := by
  rw [assertions_script ho] at ha
  exact List.of_mem_zip ha

theorem Plain.nameable (h : e.Plain o) : Nameable o.sortName :=
  nameable_of_notMem_reserved h.sort_simple h.sort_free

/-- The uses of plain formulas are declared under names that can be written. -/
theorem Plain.named_declarationOf (h : e.Plain o) (hs : e.signature = .ok s) :
    ∀ u ∈ s.sorted, (declarationOf u).Named := by
  intro u hu
  obtain ⟨f, hf, huses⟩ := ((signature_spec hs).2 u).mp (Signature.mem_sorted.mp hu)
  have hname := nameable_of_isIdentifier (h.names f hf _ (mem_names_of_mem_uses huses))
  obtain ⟨n, k | k⟩ := u
  · exact hname
  · exact hname

theorem Plain.singleLine_allLabels (h : e.Plain o) : ∀ l ∈ e.allLabels, SingleLine l := by
  have hgoal : SingleLine goalLabel := by decide
  rw [allLabels, List.forall_mem_append, List.forall_mem_singleton, List.forall_mem_map]
  exact ⟨h.labels, hgoal⟩

/-- A query with plain names and lines has a clean text. -/
theorem Plain.clean (h : e.Plain o) (ho : o.skolemize = false) (hs : e.signature = .ok s) :
    (e.script o s).Clean o.sortName where
  sort_eq := rfl
  sort_nameable := h.nameable
  title := h.title
  sequent := singleLine_sequent h.names
  declarations := by
    rw [declarations_script ho, List.forall_mem_map]
    exact h.named_declarationOf hs
  sentences := by
    intro a ha
    refine forall_sentences (fun _ => id) (fun f hf k => ?_) a.1
      (mem_sentences_of_mem_assertions ho ha).1
    exact Sentence.named_resolve (h.names f hf) (Scope.numbered_nil _)
  labels := fun a ha =>
    h.singleLine_allLabels a.2 (mem_sentences_of_mem_assertions ho ha).2

theorem nodup_declarations (hs : s.Once) :
    ((s.sorted.map declarationOf).map Declaration.name).Nodup := by
  have hnames : (s.sorted.map declarationOf).map Declaration.name = s.sorted.map (·.1) := by
    rw [List.map_map]
    exact List.map_congr_left fun u _ => name_declarationOf u
  rw [hnames]
  exact hs.sorted

/-- Whatever else a script declares under other names, its declarations fit the formulas of the
query. -/
theorem Plain.fits (h : e.Plain o) (hs : e.signature = .ok s)
    (hnodup : ((e.script o s).declarations.map Declaration.name).Nodup) {f : Formula}
    (hf : f ∈ e.allFormulas) (m : Nat) :
    Fits o.sortName ((e.script o s).declared o.sortName) [] m f where
  names := h.names f hf
  numbered := Scope.numbered_nil m
  spares := Scope.spares_nil
  sort_eq := by
    intro hfirst
    rw [Script.declared, sort_afterAll_declarations]
    exact if_pos (List.any_eq_true.mpr ⟨f, hf, hfirst⟩)
  uses := by
    intro u hu
    have hsorted := Signature.mem_sorted.mpr (((signature_spec hs).2 u).mpr ⟨f, hf, hu⟩)
    have hd : declarationOf u ∈ (e.script o s).declarations :=
      List.mem_append_left _ (List.mem_map_of_mem hsorted)
    rw [← name_declarationOf, Script.declared, rank?_afterAll_of_mem hnodup hd,
      rank_declarationOf]
  bound := fun _ hn => absurd hn List.not_mem_nil

/-- A declaration without individuals needs no sort. -/
theorem firstOrder_or_rank_declarationOf (hs : e.signature = .ok s) (sort : String) :
    ∀ u ∈ s.sorted, (e.script o s).firstOrder = true ∨
      (declarationOf u).rank sort = ⟨[], .truth⟩ := by
  intro u hu
  obtain ⟨f, hf, huses⟩ := ((signature_spec hs).2 u).mp (Signature.mem_sorted.mp hu)
  cases hfirst : f.isFirstOrder with
  | true => exact .inl (List.any_eq_true.mpr ⟨f, hf, hfirst⟩)
  | false =>
    rw [rank_declarationOf, eq_predicate_of_mem_uses hfirst huses]
    exact .inr rfl

theorem wellSorted_entries (h : e.Plain o) (ho : o.skolemize = false) (hs : e.signature = .ok s) :
    ((e.script o s).entries o.sortName).WellSorted := by
  have hnodup : ((e.script o s).declarations.map Declaration.name).Nodup := by
    rw [declarations_script ho]
    exact nodup_declarations (signature_spec hs).1
  refine Script.wellSorted_entries hnodup ?_ fun a ha => ?_
  · rw [declarations_script ho, List.forall_mem_map]
    exact firstOrder_or_rank_declarationOf hs o.sortName
  · refine forall_sentences (P := fun t =>
      (t.statement o.sortName).WellSorted ((e.script o s).declared o.sortName))
      (fun _ ht => ht) (fun f hf k => ?_) a.1 (mem_sentences_of_mem_assertions ho ha).1
    exact (h.fits hs hnodup hf k.binders).wellSorted_resolve

theorem map_statement_zip {ts : List Sentence} {labels : List String}
    (h : ts.length = labels.length) :
    (ts.zip labels).map (fun a => a.1.statement sort) = ts.map (Sentence.statement sort) := by
  conv_rhs => rw [← List.map_fst_zip (Nat.le_of_eq h), List.map_map]
  rfl

/-- An interpretation satisfies the sentences exactly when it makes the hypotheses true and the goal
false. -/
theorem satisfies_sentences (h : ∀ f ∈ e.allFormulas, ∀ n ∈ f.names, IsIdentifier n) {D : Type u}
    (I : Smt.Interpretation D) :
    (∀ t ∈ e.sentences, I.Satisfies (t.statement sort) I.constant) ↔
      (∀ f ∈ e.formulas, f.Holds ⟨I.holds⟩ I.constant) ∧
        ¬ e.goal.Holds ⟨I.holds⟩ I.constant := by
  have hresolve : ∀ f ∈ e.allFormulas, ∀ k,
      I.Satisfies ((Sentence.resolve [] f k).1.statement sort) I.constant ↔
        f.Holds ⟨I.holds⟩ I.constant := fun f hf k =>
    satisfies_resolve (h f hf) (Scope.numbered_nil _) Scope.spares_nil fun _ _ => rfl
  rw [allFormulas, List.forall_mem_append, List.forall_mem_singleton] at hresolve
  rw [sentences, List.forall_mem_append, List.forall_mem_singleton,
    forall_resolveAll_iff hresolve.1]
  exact and_congr_right fun _ => not_congr (hresolve.2 _)

theorem satisfies_assertions (h : e.Plain o) (ho : o.skolemize = false) {D : Type u}
    (I : Smt.Interpretation D) :
    (∀ f ∈ ((e.script o s).entries o.sortName).assertions, I.Satisfies f I.constant) ↔
      (∀ f ∈ e.formulas, f.Holds ⟨I.holds⟩ I.constant) ∧
        ¬ e.goal.Holds ⟨I.holds⟩ I.constant := by
  rw [Script.assertions_entries, assertions_script ho, map_statement_zip (length_sentences e),
    List.forall_mem_map]
  exact satisfies_sentences h.names I

end Entailment

/-- The text of a query is a well-sorted script whose assertions carry the labels of the hypotheses
and of the goal. It is satisfiable exactly when some structure and valuation make every hypothesis
true and the goal false. -/
theorem query_faithful {o : Options} {e : Entailment} {q : Query} (h : e.Plain o)
    (ho : o.skolemize = false) (hq : e.query o = .ok q) :
    ∃ s, Smt.read q.text = some s ∧ s.WellSorted ∧
      s.labels = e.allLabels.map (fun label => some (" " ++ label)) ∧
      (s.Satisfiable.{u} ↔ ∃ (D : Type u) (M : Structure D) (ρ : String → D),
        (∀ f ∈ e.formulas, f.Holds M ρ) ∧ ¬ e.goal.Holds M ρ) := by
  unfold Entailment.query at hq
  split at hq
  · exact absurd hq (by simp)
  next s hs =>
  obtain rfl := Except.ok.inj hq
  refine ⟨_, (h.clean ho hs).read_text, Entailment.wellSorted_entries h ho hs, ?_, ?_, ?_⟩
  · have hsnd : (e.sentences.zip e.allLabels).map (·.2) = e.allLabels :=
      List.map_snd_zip (Nat.le_of_eq (Entailment.length_sentences e).symm)
    rw [Smt.Script.labels, Script.labelled_entries, Entailment.assertions_script ho, List.map_map]
    conv_rhs => rw [← hsnd, List.map_map]
    rfl
  · rintro ⟨D, I, hI⟩
    exact ⟨D, ⟨I.holds⟩, I.constant, (Entailment.satisfies_assertions h ho I).mp hI⟩
  · rintro ⟨D, M, ρ, hM⟩
    let I : Smt.Interpretation D := ⟨fun f _ => ρ f, M.holds⟩
    exact ⟨D, I, (Entailment.satisfies_assertions h ho I).mpr hM⟩

/-- A variable that is bound again under its own quantifier and occurs free as well, and a name that
is quoted. -/
def shadowed : Entailment :=
  ⟨[⟨.all "x" (.conj (.atom "P" ["x"]) (.exist "x" (.atom "Q" ["x", "true"]))), "hyp_1", none⟩],
    .atom "P" ["x"], none, "shadowed"⟩

/-- The hypotheses of `query_faithful` hold of an entailment with shadowed and quoted names. -/
theorem query_faithful_shadowed : shadowed.Plain .standard ∧ Options.standard.skolemize = false ∧
    ∃ q, shadowed.query .standard = .ok q ∧ ∃ s, Smt.read q.text = some s ∧ s.WellSorted ∧
      s.labels = [some " hyp_1", some " goal"] ∧
      (s.Satisfiable.{0} ↔ ∃ (D : Type) (M : Structure D) (ρ : String → D),
        (∀ f ∈ shadowed.formulas, f.Holds M ρ) ∧ ¬ shadowed.goal.Holds M ρ) := by
  have hplain : shadowed.Plain .standard :=
    ⟨by decide, by decide, by decide, by decide, by decide⟩
  have hsignature : shadowed.signature = .ok
      [("P", .predicate 1), ("Q", .predicate 2), ("true", .individual), ("x", .individual)] := by
    decide
  have hquery : ∃ q, shadowed.query .standard = .ok q := by
    rw [Entailment.query, hsignature]
    exact ⟨_, rfl⟩
  obtain ⟨q, hq⟩ := hquery
  exact ⟨hplain, rfl, q, hq, query_faithful hplain rfl hq⟩

end DeductionBoard.Query
