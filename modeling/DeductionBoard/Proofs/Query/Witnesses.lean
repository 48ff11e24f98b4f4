import DeductionBoard.Proofs.Query.Resolution

/-! Witnesses for existentials. A sentence in which witnesses stand for existentials is well-sorted
where the uses of its formula and the witnesses are declared. Main results: where the sentence is
true, so is its formula, and where the formula is true, the witnesses can be given values that make
the sentence true. Both need that no quantifier is over the surface name that witnesses have. -/

namespace DeductionBoard.Query

universe u

variable {sort : String} {scope : Scope} {us : List Binder} {f : Formula} {k : Numbering}

theorem witnessName_injective {i j : Nat} (h : witnessName i = witnessName j) : i = j :=
  numbered_injective h

theorem witnessName_ne_of_isIdentifier {n : String} (h : IsIdentifier n) (i : Nat) :
    n ≠ witnessName i :=
  Binder.text_ne_of_isIdentifier (b := ⟨"sk", i⟩) h

namespace Sentence

theorem binders_le_skolemize (scope : Scope) (us : List Binder) (f : Formula) (k : Numbering) :
    k.binders ≤ (skolemize scope us f k).2.binders := by
  induction f generalizing scope us k with
  | atom n args => exact binders_le_resolve
  | neg f => exact binders_le_resolve
  | binary op l r ihl ihr =>
    cases op with
    | and => exact Nat.le_trans (ihl scope us k) (ihr scope us _)
    | or => exact binders_le_resolve
    | implies => exact binders_le_resolve
  | quantified q v f ih =>
    cases q with
    | all =>
      exact Nat.le_of_succ_le (ih _ (us ++ [⟨v, k.binders + 1⟩]) ⟨k.binders + 1, k.witnesses⟩)
    | exist => exact ih _ us ⟨k.binders, k.witnesses ++ [us.length]⟩

theorem witnesses_prefix_resolve (scope : Scope) (f : Formula) (k : Numbering) :
    k.witnesses <+: (resolve scope f k).2.witnesses :=
  witnesses_resolve.symm ▸ List.prefix_rfl

/-- The witnesses of a formula come behind those that there are. -/
theorem witnesses_prefix_skolemize (scope : Scope) (us : List Binder) (f : Formula)
    (k : Numbering) : k.witnesses <+: (skolemize scope us f k).2.witnesses := by
  induction f generalizing scope us k with
  | atom n args => exact witnesses_prefix_resolve scope _ k
  | neg f => exact witnesses_prefix_resolve scope _ k
  | binary op l r ihl ihr =>
    cases op with
    | and => exact (ihl scope us k).trans (ihr scope us _)
    | or => exact witnesses_prefix_resolve scope _ k
    | implies => exact witnesses_prefix_resolve scope _ k
  | quantified q v f ih =>
    cases q with
    | all => exact ih _ _ ⟨k.binders + 1, k.witnesses⟩
    | exist =>
      have hbody := ih ((v, .witness (k.witnesses.length + 1) us) :: scope) us
        ⟨k.binders, k.witnesses ++ [us.length]⟩
      exact (List.prefix_append k.witnesses [us.length]).trans hbody

/-- A formula about no individuals has no existentials. -/
theorem witnesses_skolemize (hf : f.isFirstOrder = false) :
    (skolemize scope us f k).2.witnesses = k.witnesses := by
  induction f generalizing scope us k with
  | atom n args => exact witnesses_resolve
  | neg f => exact witnesses_resolve
  | binary op l r ihl ihr =>
    cases op with
    | and =>
      rw [Formula.isFirstOrder, Bool.or_eq_false_iff] at hf
      exact (ihr hf.2).trans (ihl hf.1)
    | or => exact witnesses_resolve
    | implies => exact witnesses_resolve
  | quantified q v f => exact absurd hf (by simp [Formula.isFirstOrder])

theorem numbered_witness {m : Nat} (hus : ∀ b ∈ us, b.Numbered m) (i : Nat) :
    (Individual.witness i us).Numbered m :=
  hus

/-- The universals around an existential under one more universal. -/
theorem numbered_concat {v : String} {m : Nat} (hus : ∀ b ∈ us, b.Numbered m)
    (hv : IsIdentifier v) : ∀ b ∈ us ++ [⟨v, m + 1⟩], b.Numbered (m + 1) := by
  rw [List.forall_mem_append, List.forall_mem_singleton]
  exact ⟨fun b hb => (hus b hb).mono (Nat.le_succ m), Nat.le_refl _, hv⟩

theorem named_skolemize (hf : ∀ n ∈ f.names, IsIdentifier n) (hscope : scope.Numbered k.binders)
    (hus : ∀ b ∈ us, b.Numbered k.binders) : (skolemize scope us f k).1.Named := by
  induction f generalizing scope us k with
  | atom n args => exact named_resolve hf hscope
  | neg f => exact named_resolve hf hscope
  | binary op l r ihl ihr =>
    cases op with
    | and =>
      rw [Formula.names, List.forall_mem_append] at hf
      have hle := binders_le_skolemize scope us l k
      exact ⟨ihl hf.1 hscope hus, ihr hf.2 (hscope.mono hle) fun b hb => (hus b hb).mono hle⟩
    | or => exact named_resolve hf hscope
    | implies => exact named_resolve hf hscope
  | quantified q v f ih =>
    rw [Formula.names, List.forall_mem_cons] at hf
    cases q with
    | all =>
      exact ⟨isSimpleSymbol_of_isWord hf.1.1,
        ih hf.2 (hscope.bind hf.1) (numbered_concat hus hf.1)⟩
    | exist => exact @ih _ _ ⟨k.binders, _⟩ hf.2 (hscope.cons (numbered_witness hus _)) hus

end Sentence

section Sorts

variable {c : Smt.Context} {ws : List Nat}

/-- The witnesses with these numbers of arguments are declared. -/
def DeclaresWitnesses (sort : String) (c : Smt.Context) (ws : List Nat) : Prop :=
  ∀ i n, ws[i]? = some n →
    c.rank? (witnessName (i + 1)) = some ⟨List.replicate n sort, .individual sort⟩

theorem DeclaresWitnesses.bind {b : Binder} (h : DeclaresWitnesses sort c ws)
    (hb : IsIdentifier b.surface) (hsk : b.surface ≠ "sk") :
    DeclaresWitnesses sort (c.bind b.text sort) ws := by
  intro i n hi
  rw [rank?_bind_of_ne (Binder.text_ne_witnessName hb hsk _).symm]
  exact h i n hi

/-- The context under an existential that has a witness of the sort. -/
theorem Fits.cons {m : Nat} {v : String} {i : Individual} (h : Fits sort c scope m (.exist v f))
    (hsk : "sk" ∉ f.boundVars) (hi : i.Numbered m) (hterm : i.term.HasSort c sort) :
    Fits sort c ((v, i) :: scope) m f where
  names := fun n hn => h.names n (List.mem_cons_of_mem _ hn)
  numbered := h.numbered.cons hi
  spares := Scope.spares_of_notMem hsk
  sort_eq := fun _ => h.sort_eq rfl
  uses := h.uses
  bound := by
    intro n hn
    by_cases hnv : n = v
    · rw [hnv, Scope.resolve_cons_self]
      exact hterm
    · rw [List.map_cons, List.mem_cons] at hn
      rw [Scope.resolve_cons_of_ne _ hnv]
      exact h.bound n (hn.resolve_left hnv)

/-- The universals around an existential are variables of the sort, with numbers up to `m`. -/
def Universals (sort : String) (c : Smt.Context) (m : Nat) (us : List Binder) : Prop :=
  ∀ b ∈ us, b.Numbered m ∧ b.term.HasSort c sort

namespace Universals

variable {m : Nat} {v : String}

theorem mono {m' : Nat} (h : Universals sort c m us) (hm : m ≤ m') : Universals sort c m' us :=
  fun b hb => ⟨(h b hb).1.mono hm, (h b hb).2⟩

theorem bind (h : Universals sort c m us) (hv : IsIdentifier v) :
    Universals sort (c.bind (⟨v, m + 1⟩ : Binder).text sort) (m + 1) (us ++ [⟨v, m + 1⟩]) := by
  rw [Universals, List.forall_mem_append, List.forall_mem_singleton]
  refine ⟨fun b hb => ⟨(h b hb).1.mono (Nat.le_succ m), ?_⟩, ⟨Nat.le_refl _, hv⟩, ?_⟩
  · exact Binder.hasSort_bind ((h b hb).1.text_ne (Nat.lt_succ_self m)) (h b hb).2
  · exact hasSort_constant (rank?_bind_self _)

/-- The next witness has the sort of individuals when it is declared for these universals. -/
theorem hasSort_witness (h : Universals sort c m us) (hws : DeclaresWitnesses sort c ws)
    {before : List Nat} (hinitial : before ++ [us.length] <+: ws) :
    (Individual.witness (before.length + 1) us).term.HasSort c sort := by
  obtain ⟨rest, rfl⟩ := hinitial
  refine ⟨List.replicate us.length sort, hws _ _ (by simp), ?_⟩
  exact haveSorts_map fun b hb => (h b hb).2

end Universals

/-- A sentence with witnesses is well-sorted where, besides the uses of its formula, the witnesses
are declared. -/
theorem wellSorted_skolemize (h : Fits sort c scope k.binders f) (hsk : "sk" ∉ f.boundVars)
    (hus : Universals sort c k.binders us)
    (hinitial : (Sentence.skolemize scope us f k).2.witnesses <+: ws)
    (hws : DeclaresWitnesses sort c ws) :
    ((Sentence.skolemize scope us f k).1.statement sort).WellSorted c := by
  induction f generalizing scope us k c with
  | atom n args => exact h.wellSorted_resolve
  | neg f => exact h.wellSorted_resolve
  | binary op l r ihl ihr =>
    cases op with
    | and =>
      rw [Formula.boundVars, List.mem_append, not_or] at hsk
      have hle := Sentence.binders_le_skolemize scope us l k
      have hleft := (Sentence.witnesses_prefix_skolemize scope us r
        (Sentence.skolemize scope us l k).2).trans hinitial
      exact ⟨ihl h.left hsk.1 hus hleft hws,
        ihr (h.right hle) hsk.2 (hus.mono hle) hinitial hws⟩
    | or => exact h.wellSorted_resolve
    | implies => exact h.wellSorted_resolve
  | quantified q v f ih =>
    rw [Formula.boundVars, List.mem_cons, not_or] at hsk
    cases q with
    | all =>
      have hdeclared := hws.bind (b := ⟨v, k.binders + 1⟩) h.isIdentifier (Ne.symm hsk.1)
      exact ⟨h.sort_eq rfl, ih h.bind hsk.2 (hus.bind h.isIdentifier) hinitial hdeclared⟩
    | exist =>
      have hnext := (Sentence.witnesses_prefix_skolemize _ us f
        ⟨k.binders, k.witnesses ++ [us.length]⟩).trans hinitial
      have hwitness := hus.hasSort_witness hws hnext
      have hnumbered := Sentence.numbered_witness (fun b hb => (hus b hb).1)
        (k.witnesses.length + 1)
      have hfits := h.cons hsk.2 hnumbered hwitness
      exact @ih _ _ ⟨k.binders, k.witnesses ++ [us.length]⟩ _ hfits hsk.2 hus hinitial hws

end Sorts

/-- What witnesses for the existentials of a formula rely on, where the formula is reached under the
universals `us` and the numbers go up to `m`: no quantifier is over the surface name of witnesses. -/
structure Reached (scope : Scope) (us : List Binder) (m : Nat) (f : Formula) : Prop where
  names : ∀ n ∈ f.names, IsIdentifier n
  unhidden : "sk" ∉ f.boundVars
  numbered : scope.Numbered m
  universals : ∀ b ∈ us, b.Numbered m

namespace Reached

variable {m m' : Nat} {op : Connective} {l r : Formula} {q : Quantifier} {v : String}

theorem spares (h : Reached scope us m f) : scope.Spares f := Scope.spares_of_notMem h.unhidden

theorem left (h : Reached scope us m (.binary op l r)) : Reached scope us m l where
  names := fun n hn => h.names n (List.mem_append_left _ hn)
  unhidden := fun hsk => h.unhidden (List.mem_append_left _ hsk)
  numbered := h.numbered
  universals := h.universals

theorem right (h : Reached scope us m (.binary op l r)) (hm : m ≤ m') :
    Reached scope us m' r where
  names := fun n hn => h.names n (List.mem_append_right _ hn)
  unhidden := fun hsk => h.unhidden (List.mem_append_right _ hsk)
  numbered := h.numbered.mono hm
  universals := fun b hb => (h.universals b hb).mono hm

theorem isIdentifier (h : Reached scope us m (.quantified q v f)) : IsIdentifier v :=
  h.names v List.mem_cons_self

theorem ne_sk (h : Reached scope us m (.quantified q v f)) : v ≠ "sk" := by
  rintro rfl
  exact h.unhidden List.mem_cons_self

/-- The body of a universal. -/
theorem bind (h : Reached scope us m (.quantified q v f)) :
    Reached ((v, .bound ⟨v, m + 1⟩) :: scope) (us ++ [⟨v, m + 1⟩]) (m + 1) f where
  names := fun n hn => h.names n (List.mem_cons_of_mem _ hn)
  unhidden := fun hsk => h.unhidden (List.mem_cons_of_mem _ hsk)
  numbered := h.numbered.bind h.isIdentifier
  universals := Sentence.numbered_concat h.universals h.isIdentifier

/-- The body of an existential. -/
theorem cons (h : Reached scope us m (.quantified q v f)) (i : Nat) :
    Reached ((v, .witness i us) :: scope) us m f where
  names := fun n hn => h.names n (List.mem_cons_of_mem _ hn)
  unhidden := fun hsk => h.unhidden (List.mem_cons_of_mem _ hsk)
  numbered := h.numbered.cons (Sentence.numbered_witness h.universals i)
  universals := h.universals

end Reached

section Meaning

variable {D : Type u} {I J K : Smt.Interpretation D} {τ : String → D}

theorem Scope.agree_cons {ρ : String → D} {v : String} (i : Individual)
    (hagree : ∀ n, IsIdentifier n → I.eval τ (scope.resolve n).term = ρ n) (n : String)
    (hn : IsIdentifier n) :
    I.eval τ (Scope.resolve ((v, i) :: scope) n).term =
      Function.update ρ v (I.eval τ i.term) n := by
  by_cases hnv : n = v
  · rw [hnv, resolve_cons_self, Function.update_self]
  · rw [resolve_cons_of_ne _ hnv, Function.update_of_ne hnv, hagree n hn]

/-- A formula is true where its sentence with witnesses is: a witness is a value for the existential
that it stands for. -/
theorem holds_of_satisfies_skolemize {ρ : String → D} (hf : Reached scope us k.binders f)
    (hagree : ∀ n, IsIdentifier n → I.eval τ (scope.resolve n).term = ρ n)
    (h : I.Satisfies ((Sentence.skolemize scope us f k).1.statement sort) τ) :
    f.Holds ⟨I.holds⟩ ρ := by
  induction f generalizing scope us k τ ρ with
  | atom n args => exact (satisfies_resolve hf.names hf.numbered hf.spares hagree).mp h
  | neg f => exact (satisfies_resolve hf.names hf.numbered hf.spares hagree).mp h
  | binary op l r ihl ihr =>
    cases op with
    | and =>
      have hle := Sentence.binders_le_skolemize scope us l k
      exact ⟨ihl hf.left hagree h.1, ihr (hf.right hle) hagree h.2⟩
    | or => exact (satisfies_resolve hf.names hf.numbered hf.spares hagree).mp h
    | implies => exact (satisfies_resolve hf.names hf.numbered hf.spares hagree).mp h
  | quantified q v f ih =>
    cases q with
    | all =>
      intro d
      exact ih hf.bind (hf.numbered.agree_bind hf.spares hf.isIdentifier hagree d) (h d)
    | exist =>
      let w : Individual := .witness (k.witnesses.length + 1) us
      exact ⟨I.eval τ w.term, @ih _ us ⟨k.binders, k.witnesses ++ [us.length]⟩ τ _ (hf.cons _)
        (Scope.agree_cons w hagree) h⟩

/-- `J` differs from `I` in no more than the values of the witnesses behind the first `m`. -/
structure Keeps (m : Nat) (I J : Smt.Interpretation D) : Prop where
  holds : J.holds = I.holds
  value : ∀ n, (∀ i, m < i → n ≠ witnessName i) → J.value n = I.value n

namespace Keeps

variable {m m' : Nat}

theorem refl (m : Nat) (I : Smt.Interpretation D) : Keeps m I I := ⟨rfl, fun _ _ => rfl⟩

theorem trans (h : Keeps m I J) (h' : Keeps m' J K) (hm : m ≤ m') : Keeps m I K where
  holds := h'.holds.trans h.holds
  value := fun n hn =>
    (h'.value n fun i hi => hn i (Nat.lt_of_le_of_lt hm hi)).trans (h.value n hn)

theorem mono (h : Keeps m' I J) (hm : m ≤ m') : Keeps m I J := (refl m I).trans h hm

theorem value_of_isIdentifier (h : Keeps m I J) {n : String} (hn : IsIdentifier n) :
    J.value n = I.value n :=
  h.value n fun i _ => witnessName_ne_of_isIdentifier hn i

theorem value_witnessName (h : Keeps m I J) {i : Nat} (hi : i ≤ m) :
    J.value (witnessName i) = I.value (witnessName i) := by
  refine h.value _ fun j hj heq => ?_
  have := witnessName_injective heq
  omega

end Keeps

/-- The interpretation with a value for one witness. -/
def withWitness (I : Smt.Interpretation D) (i : Nat) (value : List D → D) :
    Smt.Interpretation D :=
  ⟨Function.update I.value (witnessName i) value, I.holds⟩

theorem keeps_withWitness (I : Smt.Interpretation D) (m : Nat) (value : List D → D) :
    Keeps m I (withWitness I (m + 1) value) :=
  ⟨rfl, fun _ hn => Function.update_of_ne (hn _ (Nat.lt_succ_self m)) _ _⟩

/-- The names in scope have the values that `ρ` gives them for the values of the universals `us`,
and the witnesses have their own. -/
structure Suits (I : Smt.Interpretation D) (scope : Scope) (us : List Binder)
    (ρ : List D → String → D) (τ : String → D) : Prop where
  witnesses : ∀ i, τ (witnessName i) = I.constant (witnessName i)
  names : ∀ n, IsIdentifier n →
    I.eval τ (scope.resolve n).term = ρ (us.map fun b => τ b.text) n

namespace Suits

variable {ρ : List D → String → D} {m : Nat} {v : String}

theorem eval_witness (h : Suits I scope us ρ τ) (i : Nat) :
    I.eval τ (Individual.witness i us).term =
      I.value (witnessName i) (us.map fun b => τ b.text) := by
  cases us with
  | nil => exact h.witnesses i
  | cons b us => exact congrArg (I.value (witnessName i)) (evals_map Binder.term (b :: us))

/-- A universal gives its variable a value, behind those of the universals around it. -/
theorem bind {q : Quantifier} (h : Suits I scope us ρ τ)
    (hf : Reached scope us m (.quantified q v f)) (d₀ d : D) :
    Suits I ((v, .bound ⟨v, m + 1⟩) :: scope) (us ++ [⟨v, m + 1⟩])
      (fun ds => Function.update (ρ ds.dropLast) v (ds.getLastD d₀))
      (Function.update τ (⟨v, m + 1⟩ : Binder).text d) where
  witnesses := by
    intro i
    have hne := Binder.text_ne_witnessName (b := ⟨v, m + 1⟩) hf.isIdentifier hf.ne_sk i
    rw [Function.update_of_ne hne.symm, h.witnesses]
  names := by
    have hearlier : (us.map fun b => Function.update τ (⟨v, m + 1⟩ : Binder).text d b.text) =
        us.map fun b => τ b.text :=
      List.map_congr_left fun b hb =>
        Function.update_of_ne ((hf.universals b hb).text_ne (Nat.lt_succ_self m)) _ _
    intro n hn
    rw [hf.numbered.agree_bind hf.spares hf.isIdentifier h.names d n hn, List.map_append, hearlier,
      List.map_singleton, List.dropLast_concat, List.getLastD_concat, Function.update_self]

/-- A witness gives its existential the value that the universals around it ask for. -/
theorem cons (h : Suits I scope us ρ τ) {i : Nat} {choice : List D → D}
    (hi : I.value (witnessName i) = choice) :
    Suits I ((v, .witness i us) :: scope) us (fun ds => Function.update (ρ ds) v (choice ds))
      τ where
  witnesses := h.witnesses
  names := by
    intro n hn
    rw [Scope.agree_cons _ h.names n hn, h.eval_witness, hi]

end Suits

/-- The witnesses of a sentence behind those of `k` can be given values that make it true, whatever
the values of still later witnesses are. -/
def Realizable (sort : String) (I : Smt.Interpretation D) (scope : Scope) (us : List Binder)
    (ρ : List D → String → D) (k : Numbering) (s : Sentence × Numbering) : Prop :=
  ∃ J, Keeps k.witnesses.length I J ∧ ∀ K, Keeps s.2.witnesses.length J K →
    ∀ τ, Suits K scope us ρ τ → K.Satisfies (s.1.statement sort) τ

section Realizable

variable {ρ : List D → String → D} {s t : Sentence × Numbering} {q : Quantifier} {v : String}

/-- A formula that is resolved as it stands has no witnesses. -/
theorem realizable_resolve (hf : Reached scope us k.binders f)
    (h : ∀ ds, f.Holds ⟨I.holds⟩ (ρ ds)) :
    Realizable sort I scope us ρ k (Sentence.resolve scope f k) := by
  refine ⟨I, .refl _ I, fun K hK τ hτ => ?_⟩
  rw [satisfies_resolve hf.names hf.numbered hf.spares hτ.names, hK.holds]
  exact h _

/-- The witnesses of the right side do not change those of the left one. -/
theorem Realizable.conj (hs : Realizable sort I scope us ρ k s)
    (ht : ∀ J : Smt.Interpretation D, J.holds = I.holds → Realizable sort J scope us ρ s.2 t)
    (hle : k.witnesses.length ≤ s.2.witnesses.length)
    (hle' : s.2.witnesses.length ≤ t.2.witnesses.length) :
    Realizable sort I scope us ρ k (.binary .and s.1 t.1, t.2) := by
  obtain ⟨J₁, hJ₁, hleft⟩ := hs
  obtain ⟨J₂, hJ₂, hright⟩ := ht J₁ hJ₁.holds
  refine ⟨J₂, hJ₁.trans hJ₂ hle, fun K hK τ hτ => ⟨?_, hright K hK τ hτ⟩⟩
  exact hleft K (hJ₂.trans hK hle') τ hτ

theorem Realizable.all (hf : Reached scope us k.binders (.quantified q v f)) {d₀ : D}
    (h : Realizable sort I ((v, .bound ⟨v, k.binders + 1⟩) :: scope)
      (us ++ [⟨v, k.binders + 1⟩])
      (fun ds => Function.update (ρ ds.dropLast) v (ds.getLastD d₀))
      ⟨k.binders + 1, k.witnesses⟩ s) :
    Realizable sort I scope us ρ k (.quantified .all ⟨v, k.binders + 1⟩ s.1, s.2) := by
  obtain ⟨J, hJ, hbody⟩ := h
  exact ⟨J, hJ, fun K hK τ hτ d => hbody K hK _ (hτ.bind hf d₀ d)⟩

/-- A choice of values for an existential is a value for its witness. -/
theorem Realizable.exist {choice : List D → D} {w : Nat} (hw : w = k.witnesses.length + 1)
    (h : Realizable sort (withWitness I w choice) ((v, .witness w us) :: scope) us
      (fun ds => Function.update (ρ ds) v (choice ds))
      ⟨k.binders, k.witnesses ++ [us.length]⟩ s)
    (hle : w ≤ s.2.witnesses.length) : Realizable sort I scope us ρ k s := by
  obtain ⟨J, hJ, hbody⟩ := h
  have hkeeps : Keeps w (withWitness I w choice) J := hJ.mono (by simp [hw])
  refine ⟨J, ?_, fun K hK τ hτ => hbody K hK τ (hτ.cons ?_)⟩
  · subst hw
    exact (keeps_withWitness I _ choice).trans hkeeps (Nat.le_succ _)
  · rw [(hkeeps.trans hK hle).value_witnessName (Nat.le_refl w)]
    exact Function.update_self _ _ _

/-- Where a formula is true for all values of the universals around it, its witnesses can be given
values that make its sentence true. -/
theorem realizable_skolemize (hf : Reached scope us k.binders f)
    (h : ∀ ds, f.Holds ⟨I.holds⟩ (ρ ds)) :
    Realizable sort I scope us ρ k (Sentence.skolemize scope us f k) := by
  induction f generalizing scope us k I ρ with
  | atom n args => exact realizable_resolve hf h
  | neg f => exact realizable_resolve hf h
  | binary op l r ihl ihr =>
    cases op with
    | and =>
      let k₁ := (Sentence.skolemize scope us l k).2
      have hright : Reached scope us k₁.binders r :=
        hf.right (Sentence.binders_le_skolemize scope us l k)
      refine Realizable.conj (ihl hf.left fun ds => (h ds).1) (fun J hJ => ?_)
        (Sentence.witnesses_prefix_skolemize scope us l k).length_le
        (Sentence.witnesses_prefix_skolemize scope us r k₁).length_le
      exact ihr hright fun ds => hJ ▸ (h ds).2
    | or => exact realizable_resolve hf h
    | implies => exact realizable_resolve hf h
  | quantified q v f ih =>
    cases q with
    | all =>
      -- the value of the last universal, where there is one
      let d₀ : D := I.constant v
      have hbody := @ih _ (us ++ [⟨v, k.binders + 1⟩]) ⟨k.binders + 1, k.witnesses⟩ I
        (fun ds => Function.update (ρ ds.dropLast) v (ds.getLastD d₀)) hf.bind
        fun ds => h ds.dropLast (ds.getLastD d₀)
      exact hbody.all hf
    | exist =>
      -- one value for each list of values of the universals
      choose choice hchoice using h
      let k₁ : Numbering := ⟨k.binders, k.witnesses ++ [us.length]⟩
      let w := k.witnesses.length + 1
      have hbody := @ih _ us k₁ (withWitness I w choice)
        (fun ds => Function.update (ρ ds) v (choice ds)) (hf.cons w) hchoice
      have hle := (Sentence.witnesses_prefix_skolemize ((v, .witness w us) :: scope) us f
        k₁).length_le
      have hlength : k₁.witnesses.length = w := List.length_append
      exact hbody.exist rfl (Nat.le_trans (Nat.le_of_eq hlength.symm) hle)

end Realizable

end Meaning

end DeductionBoard.Query
