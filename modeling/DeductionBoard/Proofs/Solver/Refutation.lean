import DeductionBoard.Proofs.Query.Meaning
import DeductionBoard.Solver.Saturation

/-! What terms and clauses mean, and that nothing is inferred but what follows. The symbols that stand
for individuals and for the truth of sentences get the meaning that they were made for, so no choice of
symbols has to be kept track of. Main result: sentences that are true in some structure are never
refuted. -/

namespace DeductionBoard.Solver

open Query

universe u

/-- What a term means once it has its arguments: an individual, and whether it holds as an atom. -/
abbrev Meaning (D : Type u) := List D → D × Prop

variable {D : Type u} {I : Interpretation D} {ρ : Nat → Meaning D}

/-- The values of binders; one that is not among them is a name. -/
def valuesOf (I : Interpretation D) (around : List Binder) (ds : List D) (b : Binder) : D :=
  (List.lookup b (around.zip ds)).getD (I.constant b.text)

/-- An individual that makes a sentence side with `p`, where there is one. -/
noncomputable def chosen (I : Interpretation D) (p : Bool) (body : Sentence) (b : Binder)
    (β : Binder → D) : D :=
  haveI : Nonempty D := ⟨I.constant ""⟩
  Classical.epsilon fun d => body.Sides I p (Function.update β b d)

theorem sides_chosen {p : Bool} {body : Sentence} {b : Binder} {β : Binder → D}
    (h : ∃ d, body.Sides I p (Function.update β b d)) :
    body.Sides I p (Function.update β b (chosen I p body b β)) :=
  haveI : Nonempty D := ⟨I.constant ""⟩
  Classical.epsilon_spec_aux _ _ h

noncomputable def Symbol.meaning (I : Interpretation D) : Symbol → Meaning D
  | .name n, ds => (I.constant n, I.holds n ds)
  | .witness i, ds => (I.witness i ds, False)
  | .own around b p body, ds => (chosen I p body b (valuesOf I around ds), False)
  | .truth _ around p s, ds => (I.constant "", s.Sides I p (valuesOf I around ds))

namespace Term

/-- The meaning of a term where its variables have these meanings. -/
noncomputable def meaning (I : Interpretation D) (ρ : Nat → Meaning D) : Term → Meaning D
  | .var x, ds => ρ x ds
  | .symbol s, ds => s.meaning I ds
  | .apply f a, ds => f.meaning I ρ ((a.meaning I ρ []).1 :: ds)

/-- The individual that a term stands for. -/
noncomputable def value (I : Interpretation D) (ρ : Nat → Meaning D) (t : Term) : D :=
  (t.meaning I ρ []).1

theorem meaning_ofSymbol (s : Symbol) (args : List Term) (ds : List D) :
    (ofSymbol s args).meaning I ρ ds = s.meaning I (args.map (value I ρ) ++ ds) := by
  have hfoldl : ∀ (t : Term) (ds : List D), (args.foldl .apply t).meaning I ρ ds =
      t.meaning I ρ (args.map (value I ρ) ++ ds) := by
    induction args with
    | nil => exact fun _ _ => rfl
    | cons a args ih => exact fun t ds => ih (t.apply a) ds
  exact hfoldl (.symbol s) ds

theorem meaning_subst (t : Term) (σ : Nat → Term) :
    (t.subst σ).meaning I ρ = t.meaning I fun x => (σ x).meaning I ρ := by
  induction t with
  | var x => rfl
  | symbol s => rfl
  | apply f a ihf iha =>
    funext ds
    rw [subst, meaning, meaning, ihf, iha]

/-- Replacements give the variables other meanings, for all terms alike. -/
theorem exists_meaning_replaceAll (σ : List (Nat × Term)) :
    ∃ ρ' : Nat → Meaning D, ∀ t : Term, (t.replaceAll σ).meaning I ρ = t.meaning I ρ' := by
  induction σ with
  | nil => exact ⟨ρ, fun _ => rfl⟩
  | cons e σ ih =>
    obtain ⟨ρ', hρ'⟩ := ih
    exact ⟨_, fun t => (hρ' (t.replace e.1 e.2)).trans (meaning_subst _ _)⟩

theorem eq_of_difference?_none {s t : Term} (h : difference? s t = none) : s = t := by
  fun_induction difference? s t with
  | case1 f a g b ihf iha =>
    rw [Option.or_eq_none_iff] at h
    rw [ihf h.1, iha h.2]
  | case2 t => rfl
  | case3 s t => exact absurd h (by simp)

/-- A unifier makes its two terms equal. -/
theorem replaceAll_eq_of_unify {n : Nat} {s t : Term} {σ : List (Nat × Term)}
    (h : unify n s t = some σ) : s.replaceAll σ = t.replaceAll σ := by
  induction n generalizing s t σ with
  | zero =>
    unfold unify at h
    split_ifs at h with hst
    rw [hst]
  | succ n ih =>
    -- a replacement comes first, and the rest unifies what it leaves of the terms
    have hfirst : ∀ {x : Nat} {u : Term}, (if x ∈ u.vars then none else
        (unify n (s.replace x u) (t.replace x u)).map ((x, u) :: ·)) = some σ →
        s.replaceAll σ = t.replaceAll σ := by
      intro x u hx
      split_ifs at hx
      obtain ⟨σ', hσ', rfl⟩ := Option.map_eq_some_iff.mp hx
      show (s.replace x u).replaceAll σ' = (t.replace x u).replaceAll σ'
      exact ih hσ'
    unfold unify at h
    split at h
    · next hd => rw [eq_of_difference?_none hd]
    · exact hfirst h
    · exact hfirst h
    · exact absurd h (by simp)

end Term

namespace Clause

/-- The literal is true where the variables have these meanings. -/
def Literal.Holds (I : Interpretation D) (ρ : Nat → Meaning D) (l : Literal) : Prop :=
  (l.atom.meaning I ρ []).2 ↔ l.positive = true

def Holds (I : Interpretation D) (ρ : Nat → Meaning D) (c : Clause) : Prop :=
  ∃ l ∈ c, l.Holds I ρ

/-- The clause is true whatever its variables mean. -/
def Valid (I : Interpretation D) (c : Clause) : Prop := ∀ ρ, c.Holds I ρ

variable {c d e : Clause}

theorem holds_mapAtoms {f : Term → Term} {ρ' : Nat → Meaning D}
    (h : ∀ t : Term, (f t).meaning I ρ = t.meaning I ρ') :
    (c.mapAtoms f).Holds I ρ ↔ c.Holds I ρ' := by
  simp [Holds, mapAtoms, Literal.Holds, h]

theorem holds_replaceAll (σ : List (Nat × Term)) (ρ : Nat → Meaning D) :
    ∃ ρ' : Nat → Meaning D, (∀ t : Term, (t.replaceAll σ).meaning I ρ = t.meaning I ρ') ∧
      ∀ c : Clause, (c.replaceAll σ).Holds I ρ ↔ c.Holds I ρ' := by
  obtain ⟨ρ', hρ'⟩ := Term.exists_meaning_replaceAll σ
  exact ⟨ρ', hρ', fun c => holds_mapAtoms hρ'⟩

theorem Valid.mapAtoms_subst (h : c.Valid I) (σ : Nat → Term) :
    (c.mapAtoms (Term.subst σ)).Valid I :=
  fun _ => (holds_mapAtoms fun t => Term.meaning_subst t σ).mpr (h _)

theorem Valid.apartFrom (h : c.Valid I) (d : Clause) : (c.apartFrom d).Valid I :=
  h.mapAtoms_subst _

theorem Valid.standard (h : c.Valid I) : c.standard.Valid I := by
  intro ρ
  obtain ⟨l, hl, hholds⟩ := h.mapAtoms_subst (fun x => .var (c.vars.eraseDups.idxOf x)) ρ
  exact ⟨l, List.mem_eraseDups.mpr hl, hholds⟩

theorem isPositive_apartFrom : (c.apartFrom d).isPositive = c.isPositive := by
  simp [isPositive, apartFrom, mapAtoms, Function.comp_def]

/-- A chosen literal is one of the clause, and the literals around it are the others. -/
theorem of_mem_choices {l : Literal} {rest : Clause} (h : (l, rest) ∈ c.choices) :
    l ∈ c ∧ ∀ m ∈ c, m = l ∨ m ∈ rest := by
  induction c generalizing rest with
  | nil => exact absurd h List.not_mem_nil
  | cons k c ih =>
    rw [choices, List.mem_cons, List.mem_map] at h
    rcases h with heq | ⟨⟨l', rest'⟩, hmem, heq⟩
    · obtain ⟨rfl, rfl⟩ := Prod.mk.inj heq
      exact ⟨List.mem_cons_self, fun m hm => List.mem_cons.mp hm⟩
    · obtain ⟨rfl, rfl⟩ := Prod.mk.inj heq
      obtain ⟨hl, hrest⟩ := ih hmem
      refine ⟨List.mem_cons_of_mem _ hl, List.forall_mem_cons.mpr ⟨.inr List.mem_cons_self, ?_⟩⟩
      exact fun m hm => (hrest m hm).imp_right (List.mem_cons_of_mem _)

/-- What may be used of a clause without negations is an atom, and of another one a negation. -/
theorem of_mem_eligible {l : Literal} {rest : Clause} (h : (l, rest) ∈ c.eligible) :
    l.positive = c.isPositive ∧ ∀ m ∈ c, m = l ∨ m ∈ rest := by
  unfold eligible at h
  split_ifs at h with hc
  · obtain ⟨hl, hrest⟩ := of_mem_choices (List.mem_filter.mp h).1
    exact ⟨(List.all_eq_true.mp hc l hl).trans hc.symm, hrest⟩
  · obtain ⟨hmem, hl⟩ := List.mem_filter.mp (List.mem_of_mem_take h)
    exact ⟨by simp_all, (of_mem_choices hmem).2⟩

/-- What is true of a clause is true of the literal that was used or of one around it. -/
theorem Holds.or_rest {l : Literal} {rest : Clause} (h : c.Holds I ρ)
    (hrest : ∀ m ∈ c, m = l ∨ m ∈ rest) : l.Holds I ρ ∨ rest.Holds I ρ := by
  obtain ⟨m, hm, hholds⟩ := h
  rcases hrest m hm with rfl | hmem
  · exact .inl hholds
  · exact .inr ⟨m, hmem, hholds⟩

/-- Where the atom and its denial are made equal, one of the clauses is true without it. -/
theorem Valid.of_mem_resolve (hc : c.Valid I) (hd : d.Valid I) (hpositive : c.isPositive = true)
    (hnegative : d.isPositive = false) (he : e ∈ resolve c d) : e.Valid I := by
  simp only [resolve, List.mem_flatMap, List.mem_filterMap, Option.map_eq_some_iff] at he
  obtain ⟨⟨l, ls⟩, hl, ⟨m, ms⟩, hm, σ, hσ, rfl⟩ := he
  obtain ⟨hlsign, hls⟩ := of_mem_eligible hl
  obtain ⟨hmsign, hms⟩ := of_mem_eligible hm
  rw [hpositive] at hlsign
  rw [isPositive_apartFrom, hnegative] at hmsign
  refine Valid.standard fun ρ => ?_
  obtain ⟨ρ', hterms, hclauses⟩ := holds_replaceAll (I := I) σ ρ
  have hatoms : l.atom.meaning I ρ' = m.atom.meaning I ρ' := by
    rw [← hterms, ← hterms, Term.replaceAll_eq_of_unify hσ]
  refine (hclauses _).mpr ?_
  rcases (hc ρ').or_rest hls with hleft | ⟨k, hk, hholds⟩
  · rcases (hd.apartFrom c ρ').or_rest hms with hright | ⟨k, hk, hholds⟩
    · have hatom : (l.atom.meaning I ρ' []).2 := hleft.mpr hlsign
      rw [hatoms] at hatom
      exact absurd (hright.mp hatom) (by simp [hmsign])
    · exact ⟨k, List.mem_append_right _ hk, hholds⟩
  · exact ⟨k, List.mem_append_left _ hk, hholds⟩

theorem Valid.of_mem_factors (hc : c.Valid I) (he : e ∈ factors c) : e.Valid I := by
  simp only [factors, List.mem_flatMap, List.mem_filterMap, Option.map_eq_some_iff] at he
  obtain ⟨-, -, -, -, σ, -, rfl⟩ := he
  refine Valid.standard fun ρ => ?_
  obtain ⟨ρ', -, hclauses⟩ := holds_replaceAll (I := I) σ ρ
  exact (hclauses c).mpr (hc ρ')

theorem Valid.of_mem_inferences {known : List Clause} (hknown : ∀ d ∈ known, d.Valid I)
    (hc : c.Valid I) (he : e ∈ inferences known c) : e.Valid I := by
  unfold inferences at he
  split_ifs at he with hpositive
  · rcases List.mem_append.mp he with he | he
    · exact hc.of_mem_factors he
    · obtain ⟨d, hd, he⟩ := List.mem_flatMap.mp he
      obtain ⟨hmem, hnegative⟩ := List.mem_filter.mp hd
      exact hc.of_mem_resolve (hknown d hmem) hpositive (by simpa using hnegative) he
  · obtain ⟨d, hd, he⟩ := List.mem_flatMap.mp he
    obtain ⟨hmem, hd⟩ := List.mem_filter.mp hd
    exact (hknown d hmem).of_mem_resolve hc hd (by simpa using hpositive) he

theorem not_valid_of_isEmpty (h : c.isEmpty = true) : ¬ c.Valid I := by
  intro hvalid
  obtain ⟨l, hl, -⟩ := hvalid fun _ _ => (I.constant "", False)
  rw [List.isEmpty_iff.mp h] at hl
  exact List.not_mem_nil hl

end Clause

namespace Surroundings

variable {around : Surroundings}

/-- The values of the terms that binders stand for. -/
noncomputable def values (I : Interpretation D) (ρ : Nat → Meaning D) (around : Surroundings)
    (b : Binder) : D :=
  (around.binderTerm b).value I ρ

theorem values_cons (b : Binder) (t : Term) :
    values I ρ ((b, t) :: around) = Function.update (around.values I ρ) b (t.value I ρ) := by
  funext b'
  by_cases h : b' = b
  · rw [h, Function.update_self, values, binderTerm, List.lookup_cons_self, Option.getD_some]
  · rw [Function.update_of_ne h, values, binderTerm, List.lookup_cons, beq_false_of_ne h]
    rfl

theorem valuesOf_eq : valuesOf I (around.map (·.1)) (around.map fun e => e.2.value I ρ) =
    around.values I ρ := by
  induction around with
  | nil => rfl
  | cons e around ih =>
    rw [values_cons, ← ih]
    funext b
    by_cases h : b = e.1
    · rw [h, Function.update_self]
      simp [valuesOf]
    · rw [Function.update_of_ne h]
      simp [valuesOf, List.lookup_cons, beq_false_of_ne h]

theorem value_term (i : Individual) : (around.term i).value I ρ = i.value I (around.values I ρ) := by
  cases i with
  | named n => rfl
  | bound b => rfl
  | witness j bs =>
    rw [term, Term.value, Term.meaning_ofSymbol, List.append_nil, List.map_map]
    rfl

theorem meaning_atom (n : String) (args : List Individual) :
    ((around.atom n args).meaning I ρ []).2 =
      I.holds n (args.map (Individual.value I (around.values I ρ))) := by
  rw [atom, Term.meaning_ofSymbol, List.append_nil, List.map_map]
  exact congrArg (I.holds n) (List.map_congr_left fun i _ => value_term i)

theorem value_ownTerm (b : Binder) (p : Bool) (body : Sentence) :
    (around.ownTerm b p body).value I ρ = chosen I p body b (around.values I ρ) := by
  rw [ownTerm, Term.value, Term.meaning_ofSymbol, List.append_nil, List.map_map]
  exact congrArg (chosen I p body b) valuesOf_eq

theorem meaning_truthAtom (place : String) (p : Bool) (s : Sentence) :
    ((around.truthAtom place p s).meaning I ρ []).2 = s.Sides I p (around.values I ρ) := by
  rw [truthAtom, Term.meaning_ofSymbol, List.append_nil, List.map_map]
  exact congrArg (s.Sides I p) valuesOf_eq

end Surroundings

namespace Saturation

/-- The definitions are true, and the clauses where `P` is. -/
def ClauseForm.StatesUnder (I : Interpretation D) (ρ : Nat → Meaning D) (P : Prop)
    (i : ClauseForm) : Prop :=
  (∀ c ∈ i.definitions, c.Holds I ρ) ∧ (P → ∀ c ∈ i.clauses, c.Holds I ρ)

namespace ClauseForm.StatesUnder

variable {P Q : Prop} {i j : ClauseForm}

theorem both (h : i.StatesUnder I ρ P) (h' : j.StatesUnder I ρ Q) :
    (i.both j).StatesUnder I ρ (P ∧ Q) :=
  ⟨List.forall_mem_append.mpr ⟨h.1, h'.1⟩, fun hpq =>
    List.forall_mem_append.mpr ⟨h.2 hpq.1, h'.2 hpq.2⟩⟩

theorem holds_append {c d : Clause} : Clause.Holds I ρ (c ++ d) ↔ c.Holds I ρ ∨ d.Holds I ρ := by
  simp [Clause.Holds, or_and_right, exists_or]

/-- Where the name is true exactly when the second sentence is, it may stand for that sentence. -/
theorem either {name : Term} (h : i.StatesUnder I ρ P) (h' : j.StatesUnder I ρ Q)
    (hname : (name.meaning I ρ []).2 ↔ Q) : (i.either name j).StatesUnder I ρ (P ∨ Q) := by
  have hdefinitions : ∀ c ∈ i.definitions ++ j.definitions, c.Holds I ρ :=
    List.forall_mem_append.mpr ⟨h.1, h'.1⟩
  unfold ClauseForm.either
  split_ifs
  · refine ⟨hdefinitions, fun hpq c hc => ?_⟩
    obtain ⟨c, hi, hc⟩ := List.mem_flatMap.mp hc
    obtain ⟨d, hj, rfl⟩ := List.mem_map.mp hc
    exact holds_append.mpr (hpq.imp (fun hp => h.2 hp c hi) fun hq => h'.2 hq d hj)
  · refine ⟨List.forall_mem_append.mpr ⟨fun c hc => ?_, hdefinitions⟩, fun hpq c hc => ?_⟩
    · obtain ⟨d, hd, rfl⟩ := List.mem_map.mp hc
      by_cases hq : Q
      · obtain ⟨l, hl, hholds⟩ := h'.2 hq d hd
        exact ⟨l, List.mem_cons_of_mem _ hl, hholds⟩
      · refine ⟨⟨false, name⟩, List.mem_cons_self, ?_⟩
        simp [Clause.Literal.Holds, hname, hq]
    · obtain ⟨d, hd, rfl⟩ := List.mem_map.mp hc
      rcases hpq with hp | hq
      · obtain ⟨l, hl, hholds⟩ := h.2 hp d hd
        exact ⟨l, List.mem_cons_of_mem _ hl, hholds⟩
      · refine ⟨⟨true, name⟩, List.mem_cons_self, ?_⟩
        simp [Clause.Literal.Holds, hname, hq]

end ClauseForm.StatesUnder

/-- The clauses of a sentence are true where it sides with `p`, whatever the variables mean. -/
theorem statesUnder_clauseForm (s : Sentence) (around : Surroundings) (place : String) (p : Bool) :
    (clauseForm around place p s).StatesUnder I ρ (s.Sides I p (around.values I ρ)) := by
  induction s generalizing around place p with
  | atom n args =>
    refine ⟨fun _ hc => absurd hc List.not_mem_nil, fun h => List.forall_mem_singleton.mpr ?_⟩
    refine ⟨_, List.mem_singleton_self _, ?_⟩
    rw [Clause.Literal.Holds, Surroundings.meaning_atom]
    exact h
  | neg f ih =>
    rw [Sentence.sides_neg]
    exact ih around place (!p)
  | binary op l r ihl ihr =>
    have hl := ihl around (place ++ "0") (p != (op = .implies))
    have hr := ihr around (place ++ "1") p
    rw [Sentence.sides_binary, clauseForm]
    split_ifs with hop
    · exact hl.both hr
    · exact hl.either hr (iff_of_eq (Surroundings.meaning_truthAtom place p r))
  | quantified q b f ih =>
    rw [Sentence.sides_quantified, clauseForm]
    split_ifs with hq
    · have hbody := ih ((b, .var b.index) :: around) place p
      rw [Surroundings.values_cons] at hbody
      exact ⟨hbody.1, fun hall => hbody.2 (hall _)⟩
    · have hbody := ih ((b, around.ownTerm b p f) :: around) place p
      rw [Surroundings.values_cons, Surroundings.value_ownTerm] at hbody
      exact ⟨hbody.1, fun hsome => hbody.2 (sides_chosen hsome)⟩

theorem mem_insert {cs : List Clause} {c d : Clause} (h : d ∈ insert cs c) : d = c ∨ d ∈ cs := by
  rw [insert, List.mem_append, List.mem_cons] at h
  rcases h with h | h | h
  · exact .inr ((List.takeWhile_sublist _).subset h)
  · exact .inl h
  · exact .inr ((List.dropWhile_sublist _).subset h)

theorem mem_foldl_insert {cs ds : List Clause} {d : Clause} (h : d ∈ cs.foldl insert ds) :
    d ∈ cs ∨ d ∈ ds := by
  induction cs generalizing ds with
  | nil => exact .inr h
  | cons c cs ih =>
    rcases ih h with hd | hd
    · exact .inl (List.mem_cons_of_mem _ hd)
    · rcases mem_insert hd with rfl | hd
      · exact .inl List.mem_cons_self
      · exact .inr hd

/-- Clauses that are true are never brought to a contradiction. -/
theorem run_ne_contradiction {maxSize n : Nat} {known waiting : List Clause}
    (hknown : ∀ c ∈ known, c.Valid I) (hwaiting : ∀ c ∈ waiting, c.Valid I) :
    run maxSize n known waiting ≠ .contradiction := by
  induction n generalizing known waiting with
  | zero => cases waiting <;> simp [run]
  | succ n ih =>
    cases waiting with
    | nil => simp [run]
    | cons c waiting =>
      rw [List.forall_mem_cons] at hwaiting
      obtain ⟨hc, hwaiting⟩ := hwaiting
      unfold run
      split_ifs with hempty hlarge hold
      · exact absurd hc (Clause.not_valid_of_isEmpty hempty)
      · simp
      · exact ih hknown hwaiting
      · have hknown' : ∀ d ∈ c :: known.filter (fun d => !c.subsumes d), d.Valid I :=
          List.forall_mem_cons.mpr ⟨hc, fun d hd => hknown d (List.mem_filter.mp hd).1⟩
        refine ih hknown' fun d hd => ?_
        rcases mem_foldl_insert hd with hnew | hmem
        · exact hc.of_mem_inferences hknown' (List.mem_filter.mp hnew).1
        · exact hwaiting d hmem

theorem valid_clauses {ss : List Sentence} (h : ∀ s ∈ ss, s.TrueIn I) (k : Nat) :
    ∀ c ∈ clauses k ss, c.Valid I := by
  induction ss generalizing k with
  | nil => exact fun _ hc => absurd hc List.not_mem_nil
  | cons s ss ih =>
    rw [List.forall_mem_cons] at h
    rw [clauses, List.forall_mem_append, List.forall_mem_append]
    refine ⟨⟨fun c hc ρ => ?_, fun c hc ρ => ?_⟩, ih h.2 (k + 1)⟩
    · exact (statesUnder_clauseForm s [] _ true).2 (Sentence.sides_true.mpr h.1) c hc
    · exact (statesUnder_clauseForm s [] _ true).1 c hc

/-- Sentences that are true together are not refuted. -/
theorem outcome_ne_contradiction {ss : List Sentence} (h : ∀ s ∈ ss, s.TrueIn I) :
    outcome ss ≠ .contradiction := by
  refine run_ne_contradiction (I := I) (fun _ hc => absurd hc List.not_mem_nil) fun c hc => ?_
  have hmem := (mem_foldl_insert hc).resolve_right List.not_mem_nil
  obtain ⟨d, hd, rfl⟩ := List.mem_map.mp (List.mem_filter.mp hmem).1
  exact (valid_clauses h 0 d hd).standard

end Saturation

end DeductionBoard.Solver
