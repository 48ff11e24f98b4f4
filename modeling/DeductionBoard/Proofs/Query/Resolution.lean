import DeductionBoard.Proofs.Query.Signature
import DeductionBoard.Proofs.Query.Spelling

/-! Resolved sentences. Every binder gets a number of its own, so a name in scope keeps its meaning
under the binders that come later. Main results: the sentence of a formula is well-sorted where the
uses of the formula are declared, and it is true exactly where the formula is. -/

namespace DeductionBoard.Query

universe u

variable {sort : String} {scope : Scope} {f : Formula} {k : Numbering}

theorem reservedMark_notMem_of_isIdentifier {n : String} (h : IsIdentifier n) :
    reservedMark ∉ n.toList := by
  intro hmem
  have hpart := isIdentifierPart_of_isWord h.1 _ hmem
  exact absurd hpart (by decide)

namespace Binder

variable {b b' : Binder} {n : String}

theorem text_ne_of_isIdentifier (h : IsIdentifier n) : n ≠ b.text := by
  rintro rfl
  refine reservedMark_notMem_of_isIdentifier h ?_
  simp [text, reservedMark]

theorem text_ne_of_index_ne (h : IsIdentifier b.surface) (hne : b.index ≠ b'.index) :
    b.text ≠ b'.text := by
  intro heq
  exact hne (marked_injective (reservedMark_notMem_of_isIdentifier h) heq).2

/-- Witnesses are written like binders of one surface name. -/
theorem text_ne_witnessName (h : IsIdentifier b.surface) (hsk : b.surface ≠ "sk") (i : Nat) :
    b.text ≠ witnessName i := by
  intro heq
  exact hsk (marked_injective (t := "sk") (reservedMark_notMem_of_isIdentifier h) heq).1

/-- The number of the binder is at most `m`. -/
def Numbered (m : Nat) (b : Binder) : Prop := b.index ≤ m ∧ IsIdentifier b.surface

theorem Numbered.mono {m m' : Nat} (h : b.Numbered m) (hm : m ≤ m') : b.Numbered m' :=
  ⟨Nat.le_trans h.1 hm, h.2⟩

theorem Numbered.text_ne {m : Nat} (h : b.Numbered m) (hm : m < b'.index) : b.text ≠ b'.text :=
  text_ne_of_index_ne h.2 (Nat.ne_of_lt (Nat.lt_of_le_of_lt h.1 hm))

end Binder

namespace Individual

variable {i : Individual} {m : Nat} {b : Binder}

/-- The symbols that the individual is written with. -/
def symbols : Individual → List String
  | .named n => [n]
  | .bound b => [b.text]
  | .witness i bs => witnessName i :: bs.map Binder.text

/-- The individual is no name of the query, and the binders in it have numbers up to `m`. -/
def Numbered (m : Nat) : Individual → Prop
  | .named _ => False
  | .bound b => b.Numbered m
  | .witness _ bs => ∀ b ∈ bs, b.Numbered m

theorem Numbered.mono {m' : Nat} (h : i.Numbered m) (hm : m ≤ m') : i.Numbered m' := by
  cases i with
  | named n => exact h
  | bound b => exact Binder.Numbered.mono h hm
  | witness j bs => exact fun b hb => (h b hb).mono hm

theorem Numbered.named (h : i.Numbered m) : i.Named := by
  cases i with
  | named n => exact h.elim
  | bound b => exact isSimpleSymbol_of_isWord h.2.1
  | witness j bs => exact fun b hb => isSimpleSymbol_of_isWord (h b hb).2.1

/-- A later binder hides no individual, unless it is written like a witness. -/
theorem Numbered.text_notMem_symbols (h : i.Numbered m) (hm : m < b.index)
    (hb : IsIdentifier b.surface) (hsk : b.surface = "sk" → ∀ j bs, i ≠ .witness j bs) :
    b.text ∉ i.symbols := by
  cases i with
  | named n => exact h.elim
  | bound b' => exact fun hmem => Binder.Numbered.text_ne h hm (List.mem_singleton.mp hmem).symm
  | witness j bs =>
    intro hmem
    rcases List.mem_cons.mp hmem with heq | hmem
    · exact Binder.text_ne_witnessName hb (fun heq => hsk heq j bs rfl) j heq
    · obtain ⟨b', hb', heq⟩ := List.mem_map.mp hmem
      exact (h b' hb').text_ne hm heq

end Individual

namespace Scope

/-- The names in scope stand for binders with numbers up to `m`, and for witnesses made of such. -/
def Numbered (scope : Scope) (m : Nat) : Prop :=
  ∀ n ∈ scope.map (·.1), (scope.resolve n).Numbered m

/-- No quantifier of the formula hides a witness in scope. -/
def Spares (scope : Scope) (f : Formula) : Prop :=
  "sk" ∈ f.boundVars → ∀ n i bs, scope.resolve n ≠ .witness i bs

@[simp] theorem resolve_cons_self (v : String) (i : Individual) :
    Scope.resolve ((v, i) :: scope) v = i := by
  rw [resolve, List.lookup_cons_self, Option.getD_some]

theorem resolve_cons_of_ne {v n : String} (i : Individual) (h : n ≠ v) :
    Scope.resolve ((v, i) :: scope) n = scope.resolve n := by
  rw [resolve, List.lookup_cons, beq_false_of_ne h]
  rfl

theorem resolve_of_notMem {n : String} (h : n ∉ scope.map (·.1)) :
    scope.resolve n = .named n := by
  have hnone : List.lookup n scope = none := by
    refine List.lookup_eq_none_iff.mpr fun p hp => bne_iff_ne.mpr ?_
    rintro rfl
    exact h (List.mem_map_of_mem hp)
  rw [resolve, hnone, Option.getD_none]

theorem numbered_nil (m : Nat) : Scope.Numbered [] m := fun _ hn => absurd hn List.not_mem_nil

theorem Numbered.mono {m m' : Nat} (h : scope.Numbered m) (hm : m ≤ m') : scope.Numbered m' :=
  fun n hn => (h n hn).mono hm

/-- The scope under a name that stands for something else. -/
theorem Numbered.cons {m : Nat} {v : String} {i : Individual} (h : scope.Numbered m)
    (hi : i.Numbered m) : Scope.Numbered ((v, i) :: scope) m := by
  intro n hn
  by_cases hnv : n = v
  · rw [hnv, resolve_cons_self]
    exact hi
  · rw [resolve_cons_of_ne _ hnv]
    rw [List.map_cons, List.mem_cons] at hn
    exact h n (hn.resolve_left hnv)

/-- The scope under the next binder. -/
theorem Numbered.bind {m : Nat} {v : String} (h : scope.Numbered m) (hv : IsIdentifier v) :
    Scope.Numbered ((v, .bound ⟨v, m + 1⟩) :: scope) (m + 1) :=
  (h.mono (Nat.le_succ m)).cons ⟨Nat.le_refl _, hv⟩

/-- What a name stands for is a name of the query or came before. -/
theorem Numbered.cases {m : Nat} (h : scope.Numbered m) (n : String) :
    (n ∉ scope.map (·.1) ∧ scope.resolve n = .named n) ∨
      (n ∈ scope.map (·.1) ∧ (scope.resolve n).Numbered m) := by
  by_cases hn : n ∈ scope.map (·.1)
  · exact .inr ⟨hn, h n hn⟩
  · exact .inl ⟨hn, resolve_of_notMem hn⟩

theorem spares_nil : Scope.Spares [] f := fun _ _ _ _ hn => Individual.noConfusion hn

theorem spares_of_notMem (h : "sk" ∉ f.boundVars) : scope.Spares f := fun hmem => absurd hmem h

section Spares

variable {op : Connective} {l r : Formula} {q : Quantifier} {v : String}

theorem Spares.left (h : scope.Spares (.binary op l r)) : scope.Spares l :=
  fun hmem => h (List.mem_append_left _ hmem)

theorem Spares.right (h : scope.Spares (.binary op l r)) : scope.Spares r :=
  fun hmem => h (List.mem_append_right _ hmem)

theorem Spares.bind (h : scope.Spares (.quantified q v f)) (b : Binder) :
    Scope.Spares ((v, .bound b) :: scope) f := by
  intro hmem n i bs
  by_cases hnv : n = v
  · rw [hnv, resolve_cons_self]
    exact fun hn => Individual.noConfusion hn
  · rw [resolve_cons_of_ne _ hnv]
    exact h (List.mem_cons_of_mem _ hmem) n i bs

end Spares

/-- The next binder hides nothing that a name stands for. -/
theorem Numbered.text_notMem_symbols {m : Nat} {q : Quantifier} {v n : String}
    (h : scope.Numbered m) (hspares : scope.Spares (.quantified q v f)) (hv : IsIdentifier v)
    (hn : n ∈ scope.map (·.1) ∨ IsIdentifier n) :
    (⟨v, m + 1⟩ : Binder).text ∉ (scope.resolve n).symbols := by
  rcases h.cases n with ⟨hnot, heq⟩ | ⟨-, hnumbered⟩
  · rw [heq]
    exact fun hmem => Binder.text_ne_of_isIdentifier (hn.resolve_left hnot)
      (List.mem_singleton.mp hmem).symm
  · refine hnumbered.text_notMem_symbols (Nat.lt_succ_self m) hv fun hsk => hspares ?_ n
    exact hsk ▸ List.mem_cons_self

end Scope

namespace Sentence

theorem binders_le_resolve : k.binders ≤ (resolve scope f k).2.binders := by
  induction f generalizing scope k with
  | atom n args => exact Nat.le_refl _
  | neg f ih => exact ih
  | binary op l r ihl ihr => exact Nat.le_trans ihl ihr
  | quantified q v f ih =>
    have hbody : k.binders + 1 ≤ (resolve ((v, .bound ⟨v, k.binders + 1⟩) :: scope) f
        ⟨k.binders + 1, k.witnesses⟩).2.binders := @ih _ ⟨k.binders + 1, k.witnesses⟩
    exact Nat.le_of_succ_le hbody

theorem witnesses_resolve : (resolve scope f k).2.witnesses = k.witnesses := by
  induction f generalizing scope k with
  | atom n args => rfl
  | neg f ih => exact ih
  | binary op l r ihl ihr => exact ihr.trans ihl
  | quantified q v f ih => exact ih

theorem named_resolve (hf : ∀ n ∈ f.names, IsIdentifier n) (hscope : scope.Numbered k.binders) :
    (resolve scope f k).1.Named := by
  induction f generalizing scope k with
  | atom n args =>
    refine ⟨nameable_of_isIdentifier (hf n List.mem_cons_self), fun i hi => ?_⟩
    obtain ⟨a, ha, rfl⟩ := List.mem_map.mp hi
    rcases hscope.cases a with ⟨-, heq⟩ | ⟨-, hnumbered⟩
    · rw [heq]
      exact nameable_of_isIdentifier (hf a (List.mem_cons_of_mem _ ha))
    · exact hnumbered.named
  | neg f ih => exact ih hf hscope
  | binary op l r ihl ihr =>
    rw [Formula.names, List.forall_mem_append] at hf
    exact ⟨ihl hf.1 hscope, ihr hf.2 (hscope.mono binders_le_resolve)⟩
  | quantified q v f ih =>
    rw [Formula.names, List.forall_mem_cons] at hf
    exact ⟨isSimpleSymbol_of_isWord hf.1.1, ih hf.2 (hscope.bind hf.1)⟩

end Sentence

section Sorts

/-- The rank of a symbol with this use. -/
def Use.rank (sort : String) : Use → Smt.Rank
  | .individual => ⟨[], .individual sort⟩
  | .predicate n => ⟨List.replicate n sort, .truth⟩

variable {c : Smt.Context}

theorem haveSorts_map {α : Type} {term : α → Smt.Term} {xs : List α}
    (h : ∀ x ∈ xs, (term x).HasSort c sort) :
    Smt.HaveSorts c (xs.map term) (List.replicate xs.length sort) := by
  induction xs with
  | nil => trivial
  | cons x xs ih =>
    rw [List.forall_mem_cons] at h
    exact ⟨h.1, ih h.2⟩

theorem hasSort_constant {n : String} (h : c.rank? n = some ⟨[], .individual sort⟩) :
    (Smt.Term.apply n []).HasSort c sort :=
  ⟨[], h, trivial⟩

@[simp] theorem rank?_bind_self (x : String) :
    (c.bind x sort).rank? x = some ⟨[], .individual sort⟩ :=
  List.lookup_cons_self

theorem rank?_bind_of_ne {x n : String} (h : n ≠ x) : (c.bind x sort).rank? n = c.rank? n := by
  rw [Smt.Context.rank?, Smt.Context.bind, List.lookup_cons, beq_false_of_ne h]
  rfl

theorem Binder.hasSort_bind {b : Binder} {x s : String} (hx : b.text ≠ x)
    (h : b.term.HasSort c s) : b.term.HasSort (c.bind x sort) s := by
  obtain ⟨ss, hrank, hargs⟩ := h
  cases ss with
  | nil => exact ⟨[], (rank?_bind_of_ne hx).trans hrank, trivial⟩
  | cons s' ss => exact hargs.elim

theorem haveSorts_bind {bs : List Binder} {x : String} {ss : List String}
    (hx : x ∉ bs.map Binder.text) (h : Smt.HaveSorts c (bs.map Binder.term) ss) :
    Smt.HaveSorts (c.bind x sort) (bs.map Binder.term) ss := by
  induction bs generalizing ss with
  | nil => cases ss <;> exact h
  | cons b bs ih =>
    cases ss with
    | nil => exact h
    | cons s ss =>
      rw [List.map_cons, List.mem_cons, not_or] at hx
      exact ⟨Binder.hasSort_bind (Ne.symm hx.1) h.1, ih hx.2 h.2⟩

/-- A quantifier keeps the sort of an individual that it does not hide. -/
theorem Individual.hasSort_bind {i : Individual} {x : String} (hx : x ∉ i.symbols)
    (h : i.term.HasSort c sort) : i.term.HasSort (c.bind x sort) sort := by
  cases i with
  | named n =>
    obtain ⟨ss, hrank, hargs⟩ := h
    cases ss with
    | nil =>
      have hne : n ≠ x := fun hn => hx (by simp [symbols, hn])
      exact hasSort_constant ((rank?_bind_of_ne hne).trans hrank)
    | cons s' ss => exact hargs.elim
  | bound b => exact Binder.hasSort_bind (fun hb => hx (by simp [symbols, hb])) h
  | witness j bs =>
    rw [symbols, List.mem_cons, not_or] at hx
    obtain ⟨ss, hrank, hargs⟩ := h
    exact ⟨ss, (rank?_bind_of_ne (Ne.symm hx.1)).trans hrank, haveSorts_bind hx.2 hargs⟩

/-- The context declares what the formula uses, with a sort for its individuals, and the names in
scope stand for terms of that sort, numbered up to `m`. -/
structure Fits (sort : String) (c : Smt.Context) (scope : Scope) (m : Nat) (f : Formula) :
    Prop where
  names : ∀ n ∈ f.names, IsIdentifier n
  numbered : scope.Numbered m
  spares : scope.Spares f
  sort_eq : f.isFirstOrder = true → c.sort = some sort
  uses : ∀ u ∈ uses (scope.map (·.1)) f, c.rank? u.1 = some (u.2.rank sort)
  bound : ∀ n ∈ scope.map (·.1), (scope.resolve n).term.HasSort c sort

namespace Fits

variable {m : Nat} {op : Connective} {l r : Formula} {q : Quantifier} {v n : String}
  {args : List String}

theorem left (h : Fits sort c scope m (.binary op l r)) : Fits sort c scope m l where
  names := fun n hn => h.names n (List.mem_append_left _ hn)
  numbered := h.numbered
  spares := h.spares.left
  sort_eq := fun hl => h.sort_eq (Bool.or_eq_true_iff.mpr (.inl hl))
  uses := fun u hu => h.uses u (List.mem_append_left _ hu)
  bound := h.bound

/-- The right side is numbered behind the left one. -/
theorem right {m' : Nat} (h : Fits sort c scope m (.binary op l r)) (hm : m ≤ m') :
    Fits sort c scope m' r where
  names := fun n hn => h.names n (List.mem_append_right _ hn)
  numbered := h.numbered.mono hm
  spares := h.spares.right
  sort_eq := fun hr => h.sort_eq (Bool.or_eq_true_iff.mpr (.inr hr))
  uses := fun u hu => h.uses u (List.mem_append_right _ hu)
  bound := h.bound

theorem isIdentifier (h : Fits sort c scope m (.quantified q v f)) : IsIdentifier v :=
  h.names v List.mem_cons_self

theorem bind (h : Fits sort c scope m (.quantified q v f)) :
    Fits sort (c.bind (⟨v, m + 1⟩ : Binder).text sort) ((v, .bound ⟨v, m + 1⟩) :: scope) (m + 1)
      f where
  names := fun n hn => h.names n (List.mem_cons_of_mem _ hn)
  numbered := h.numbered.bind h.isIdentifier
  spares := h.spares.bind _
  sort_eq := fun _ => h.sort_eq rfl
  uses := by
    intro u hu
    -- a name of the formula holds no mark, so the new variable does not hide it
    have hname := h.names _ (List.mem_cons_of_mem _ (mem_names_of_mem_uses hu))
    rw [rank?_bind_of_ne (Binder.text_ne_of_isIdentifier hname)]
    exact h.uses u hu
  bound := by
    intro n hn
    by_cases hnv : n = v
    · rw [hnv, Scope.resolve_cons_self]
      exact hasSort_constant (rank?_bind_self _)
    · rw [List.map_cons, List.mem_cons] at hn
      have hmem := hn.resolve_left hnv
      have hshown := h.numbered.text_notMem_symbols h.spares h.isIdentifier (.inl hmem)
      rw [Scope.resolve_cons_of_ne _ hnv]
      exact Individual.hasSort_bind hshown (h.bound n hmem)

theorem hasSort_of_mem {a : String} (h : Fits sort c scope m (.atom n args)) (ha : a ∈ args) :
    (scope.resolve a).term.HasSort c sort := by
  rcases h.numbered.cases a with ⟨hnot, heq⟩ | ⟨hmem, -⟩
  · rw [heq]
    refine hasSort_constant (h.uses (a, .individual) (List.mem_cons_of_mem _ ?_))
    exact List.mem_map.mpr ⟨a, List.mem_filter.mpr ⟨ha, by simpa using hnot⟩, rfl⟩
  · exact h.bound a hmem

/-- A sentence is well-sorted in a context that fits. -/
theorem wellSorted_resolve (h : Fits sort c scope k.binders f) :
    ((Sentence.resolve scope f k).1.statement sort).WellSorted c := by
  induction f generalizing scope k c with
  | atom n args =>
    refine ⟨List.replicate args.length sort, ?_, ?_⟩
    · exact h.uses (n, .predicate args.length) List.mem_cons_self
    · rw [List.map_map]
      exact haveSorts_map fun a ha => h.hasSort_of_mem ha
  | neg f ih => exact ih ⟨h.names, h.numbered, h.spares, h.sort_eq, h.uses, h.bound⟩
  | binary op l r ihl ihr => exact ⟨ihl h.left, ihr (h.right Sentence.binders_le_resolve)⟩
  | quantified q v f ih => exact ⟨h.sort_eq rfl, ih h.bind⟩

end Fits

end Sorts

section Meaning

variable {D : Type u} {I : Smt.Interpretation D} {τ ρ : String → D}

theorem evals_map {α : Type} (term : α → Smt.Term) (xs : List α) :
    I.evals τ (xs.map term) = xs.map fun x => I.eval τ (term x) := by
  induction xs with
  | nil => rfl
  | cons x xs ih => rw [List.map_cons, Smt.Interpretation.evals, ih, List.map_cons]

/-- The value of an individual depends on the symbols that it is written with. -/
theorem eval_congr {i : Individual} {τ' : String → D} (h : ∀ x ∈ i.symbols, τ x = τ' x) :
    I.eval τ i.term = I.eval τ' i.term := by
  cases i with
  | named n => exact h n List.mem_cons_self
  | bound b => exact h b.text List.mem_cons_self
  | witness j bs =>
    rw [Individual.symbols, List.forall_mem_cons, List.forall_mem_map] at h
    cases bs with
    | nil => exact h.1
    | cons b bs =>
      have hargs : I.evals τ ((b :: bs).map Binder.term) =
          I.evals τ' ((b :: bs).map Binder.term) := by
        rw [evals_map, evals_map]
        exact List.map_congr_left h.2
      exact congrArg (I.value (witnessName j)) hargs

/-- A quantifier gives its variable a value and leaves the other names in scope theirs. -/
theorem Scope.Numbered.agree_bind {m : Nat} {q : Quantifier} {v : String}
    (hscope : scope.Numbered m) (hspares : scope.Spares (.quantified q v f)) (hv : IsIdentifier v)
    (hagree : ∀ n, IsIdentifier n → I.eval τ (scope.resolve n).term = ρ n) (d : D) (n : String)
    (hn : IsIdentifier n) :
    I.eval (Function.update τ (⟨v, m + 1⟩ : Binder).text d)
      (Scope.resolve ((v, .bound ⟨v, m + 1⟩) :: scope) n).term = Function.update ρ v d n := by
  by_cases hnv : n = v
  · rw [hnv, Scope.resolve_cons_self, Function.update_self]
    exact Function.update_self _ _ _
  · rw [Scope.resolve_cons_of_ne _ hnv, Function.update_of_ne hnv, ← hagree n hn]
    refine eval_congr fun x hx => Function.update_of_ne ?_ _ _
    rintro rfl
    exact hscope.text_notMem_symbols hspares hv (.inr hn) hx

/-- Where every name in scope has the value that a valuation gives it, the sentence is true exactly
when the formula is. -/
theorem satisfies_resolve (hf : ∀ n ∈ f.names, IsIdentifier n)
    (hscope : scope.Numbered k.binders) (hspares : scope.Spares f)
    (hagree : ∀ n, IsIdentifier n → I.eval τ (scope.resolve n).term = ρ n) :
    I.Satisfies ((Sentence.resolve scope f k).1.statement sort) τ ↔ f.Holds ⟨I.holds⟩ ρ := by
  induction f generalizing scope k τ ρ with
  | atom n args =>
    have hargs : I.evals τ ((args.map scope.resolve).map Individual.term) = args.map ρ := by
      rw [List.map_map, evals_map]
      exact List.map_congr_left fun a ha => hagree a (hf a (List.mem_cons_of_mem _ ha))
    show I.holds n (I.evals τ ((args.map scope.resolve).map Individual.term)) ↔ _
    rw [hargs]
    rfl
  | neg f ih => exact not_congr (ih hf hscope hspares hagree)
  | binary op l r ihl ihr =>
    rw [Formula.names, List.forall_mem_append] at hf
    exact op.joins_congr (ihl hf.1 hscope hspares.left hagree)
      (ihr hf.2 (hscope.mono Sentence.binders_le_resolve) hspares.right hagree)
  | quantified q v f ih =>
    rw [Formula.names, List.forall_mem_cons] at hf
    exact q.ranges_congr fun d => ih hf.2 (hscope.bind hf.1) (hspares.bind _)
      (hscope.agree_bind hspares hf.1 hagree d)

end Meaning

end DeductionBoard.Query
