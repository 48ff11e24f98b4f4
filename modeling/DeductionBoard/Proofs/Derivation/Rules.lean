import DeductionBoard.Derivation.Rules
import DeductionBoard.Search.Construction
import Mathlib.Data.List.Basic
import Mathlib.Tactic.Tauto

/-! The rules as a relation between the conclusions of the premises and the conclusion of the piece,
with all side conditions. Main results: a piece derives exactly what the relation allows; its open
assumptions come from the premises unless it is an assumption itself; and its status depends on the
board only through the assumptions that are open in the premises. -/

namespace DeductionBoard.Derivation

variable {b b' : Board} {c : Context} {ps : List Conclusion} {d : Conclusion} {p p' : Piece}
  {s s' : Statuses}

theorem eq_of_derived {f : Formula} {open_ : List PieceId} (h : .derived f open_ = d.status) :
    d = ⟨f, open_⟩ := by
  cases d
  simpa [Conclusion.status, eq_comm] using h

@[simp] theorem Context.flawed_ne_status {f : Flaw} : c.flawed f ≠ d.status := by
  simp [flawed, Conclusion.status]

@[simp] theorem Context.missing_ne_status {name : String} : c.missing name ≠ d.status :=
  flawed_ne_status

/-- The pieces stand for the same instance of a rule, wherever they stand. -/
structure SameRule (p p' : Piece) : Prop where
  id : p.id = p'.id
  kind : p.kind = p'.kind
  params : p.params = p'.params
  slots : p.slots = p'.slots

theorem SameRule.refl (p : Piece) : SameRule p p := ⟨rfl, rfl, rfl, rfl⟩

namespace Context

/-- None of the names occurs free in what the assumptions of a list assume. -/
def Apart (c : Context) (names : List String) (open_ : List PieceId) : Prop :=
  ∀ a ∈ open_, ∀ f, c.board.assumed? a = some f → ∀ x ∈ names, x ∉ f.freeVars

theorem clash?_eq_none_iff {watched : List String} {open_ : List PieceId} :
    c.clash? watched open_ = none ↔ c.Apart watched open_ := by
  induction open_ with
  | nil => simp [clash?, Apart]
  | cons a open_ ih =>
    have hcons : c.Apart watched (a :: open_) ↔
        (∀ f, c.board.assumed? a = some f → ∀ x ∈ watched, x ∉ f.freeVars) ∧
          c.Apart watched open_ := by
      simp [Apart]
    rw [hcons, clash?]
    cases ha : c.board.assumed? a with
    | none => simp [ih]
    | some f =>
      simp only [Option.some.injEq, forall_eq']
      cases hx : (Ascending.ofList watched).find? fun x => decide (x ∈ f.freeVars) with
      | none =>
        have : ∀ x ∈ watched, x ∉ f.freeVars := fun x hxw => by
          simpa using List.find?_eq_none.mp hx x (Ascending.mem_ofList.mpr hxw)
        simp only [ih]
        exact ⟨fun h => ⟨this, h⟩, And.right⟩
      | some x =>
        have hxw := Ascending.mem_ofList.mp (List.mem_of_find?_eq_some hx)
        have hxf : x ∈ f.freeVars := by simpa using List.find?_some hx
        simp only [reduceCtorEq, false_iff]
        exact fun hnot => hnot.1 x hxw hxf

/-- The names that a quantifier must not find free in an open assumption. -/
def eigenNames : Quantifier → String → String → List String
  | .all, v, t => [t, v]
  | .exist, v, _ => [v]

/-- What a piece derives from the conclusions of its premises. -/
inductive Derives (c : Context) : List Conclusion → Conclusion → Prop
  | assumption {ps : List Conclusion} {f : Formula} (hk : c.piece.kind = .assumption)
      (hf : c.piece.params.formula = some f) : Derives c ps ⟨f, [c.piece.id]⟩
  | goal {p : Conclusion} (hk : c.piece.kind = .goal) : Derives c [p] p
  | conjunction {p q : Conclusion} (hk : c.piece.kind = .andIntro) :
      Derives c [p, q] ⟨.conj p.formula q.formula, Ascending.union p.assumptions q.assumptions⟩
  | disjunctionLeft {p : Conclusion} {other : Formula} (hk : c.piece.kind = .orIntro)
      (ho : c.piece.params.other = some other) (hs : c.piece.params.side = Params.leftSide) :
      Derives c [p] ⟨.disj p.formula other, p.assumptions⟩
  | disjunctionRight {p : Conclusion} {other : Formula} (hk : c.piece.kind = .orIntro)
      (ho : c.piece.params.other = some other) (hs : c.piece.params.side = Params.rightSide) :
      Derives c [p] ⟨.disj other p.formula, p.assumptions⟩
  | implication {p : Conclusion} {h : Formula} (hk : c.piece.kind = .impliesIntro)
      (hh : c.piece.params.hypothesis = some h) :
      Derives c [p] ⟨.imp h p.formula, c.discharge h p.assumptions⟩
  | negation {p q : Conclusion} {h : Formula} (hk : c.piece.kind = .notIntro)
      (hh : c.piece.params.hypothesis = some h) (hq : q.formula = .neg p.formula) :
      Derives c [p, q]
        ⟨.neg h, c.discharge h (Ascending.union p.assumptions q.assumptions)⟩
  | quantification {p : Conclusion} {q : Quantifier} {v t : String} {body : Formula}
      (hk : c.piece.kind = Construction.quantifierKind q)
      (hv : c.piece.params.variableName = .text v) (ht : c.piece.params.abstracted = .text t)
      (huv : isUsableName v = true) (hut : isUsableName t = true)
      (hfree : t ≠ v → v ∉ p.formula.freeVars) (hbody : p.formula.substitute t v = some body)
      (hapart : c.Apart (eigenNames q v t) p.assumptions) :
      Derives c [p] ⟨.quantified q v body, p.assumptions⟩
  /-- A term that is no text stands in no formula, so there is nothing to replace. -/
  | vacuous {p : Conclusion} {v : String} (hk : c.piece.kind.binds = true)
      (hv : c.piece.params.variableName = .text v)
      (ht : ∀ t, c.piece.params.abstracted ≠ .text t) (huv : isUsableName v = true)
      (hut : isNameable? c.piece.params.abstracted = some true) (hfree : v ∉ p.formula.freeVars)
      (hapart : c.Apart [v] p.assumptions) : Derives c [p] ⟨.exist v p.formula, p.assumptions⟩

theorem quantification_eq_status_iff {q : Quantifier} {v t : String} {p : Conclusion} :
    c.quantification q v t p = d.status ↔
      (t ≠ v → v ∉ p.formula.freeVars) ∧ c.Apart (eigenNames q v t) p.assumptions ∧
        ∃ body, p.formula.substitute t v = some body ∧
          d = ⟨.quantified q v body, p.assumptions⟩ := by
  rw [← clash?_eq_none_iff]
  unfold quantification
  by_cases hfree : t ≠ v ∧ v ∈ p.formula.freeVars
  · rw [if_pos hfree]
    constructor
    · intro h
      exact absurd h flawed_ne_status
    · rintro ⟨h, -⟩
      exact absurd hfree.2 (h hfree.1)
  rw [if_neg hfree]
  have hfree' : t ≠ v → v ∉ p.formula.freeVars := by tauto
  cases p.formula.substitute t v with
  | none => simp
  | some body =>
    -- the names that are watched depend on the quantifier alone
    cases q <;>
    · simp only [eigenNames]
      split
      · next hclash => simp [hclash]
      · next hclash =>
        cases d
        simp only [hclash, Conclusion.status, Status.derived.injEq, true_and, Option.some.injEq,
          exists_eq_left', Conclusion.mk.injEq]
        tauto

theorem vacuous_eq_status_iff {v : String} {t : Value} {p : Conclusion} :
    c.vacuous v t p = d.status ↔
      v ∉ p.formula.freeVars ∧ c.Apart [v] p.assumptions ∧
        d = ⟨.exist v p.formula, p.assumptions⟩ := by
  rw [← clash?_eq_none_iff, vacuous]
  by_cases hfree : v ∈ p.formula.freeVars
  · simp [hfree]
  rw [if_neg hfree]
  cases hclash : c.clash? [v] p.assumptions with
  | some e => simp
  | none =>
    cases d
    simp only [Conclusion.status, Status.derived.injEq, Conclusion.mk.injEq]
    tauto

theorem holds_of_usable {v : String} (h : isUsableName v = true) : Value.holds (.text v) = true := by
  simp only [isUsableName, Bool.and_eq_true] at h
  exact h.1

theorem derives_of_disjunction {p : Conclusion} (hk : c.piece.kind = .orIntro)
    (h : c.disjunction p = d.status) : Derives c [p] d := by
  unfold disjunction at h
  split at h
  · exact absurd h missing_ne_status
  next other ho =>
  split at h
  · next hs =>
    obtain rfl := eq_of_derived h
    exact .disjunctionLeft hk ho hs
  split at h
  · next hs =>
    obtain rfl := eq_of_derived h
    exact .disjunctionRight hk ho hs
  · exact absurd h flawed_ne_status

theorem derives_of_implication {p : Conclusion} (hk : c.piece.kind = .impliesIntro)
    (h : c.implication p = d.status) : Derives c [p] d := by
  unfold implication at h
  split at h
  · exact absurd h missing_ne_status
  next f hf =>
  obtain rfl := eq_of_derived h
  exact .implication hk hf

theorem derives_of_negation {p q : Conclusion} (hk : c.piece.kind = .notIntro)
    (h : c.negation p q = d.status) : Derives c [p, q] d := by
  unfold negation at h
  split at h
  · exact absurd h missing_ne_status
  next f hf =>
  split at h
  · next hq =>
    obtain rfl := eq_of_derived h
    exact .negation hk hf hq
  · exact absurd h flawed_ne_status

/-- A quantifier piece succeeds with two names, or with a name and a term that is none. -/
theorem derives_of_quantifier {q : Quantifier} {p : Conclusion}
    (hk : c.piece.kind = Construction.quantifierKind q) (h : c.quantifier q p = d.status) :
    Derives c [p] d := by
  have hbinds : c.piece.kind.binds = true := by
    rw [hk]
    cases q <;> rfl
  unfold quantifier at h
  simp only at h
  split at h
  · exact absurd h missing_ne_status
  split at h
  · exact absurd h flawed_ne_status
  next huv =>
  split at h
  · exact absurd h flawed_ne_status
  next hut =>
  rw [not_not] at huv hut
  split at h
  · next v t hv ht =>
    rw [hv, isNameable?, Option.some.injEq] at huv
    rw [ht, isNameable?, Option.some.injEq] at hut
    obtain ⟨hfree, hapart, body, hbody, rfl⟩ := quantification_eq_status_iff.mp h
    exact .quantification hk hv ht huv hut hfree hbody hapart
  · next v hv hnot =>
    rw [hv, isNameable?, Option.some.injEq] at huv
    obtain ⟨hfree, hapart, rfl⟩ := vacuous_eq_status_iff.mp h
    exact .vacuous hbinds hv (fun t ht => hnot t ht) huv hut hfree hapart
  · exact absurd h flawed_ne_status

theorem derives_of_apply (h : c.apply ps = d.status) : Derives c ps d := by
  unfold apply at h
  split at h
  · next hk =>
    unfold assumption at h
    split at h
    · exact absurd h missing_ne_status
    next f hf =>
    obtain rfl := eq_of_derived h
    exact .assumption hk hf
  · next p hk =>
    obtain rfl := eq_of_derived h
    exact .goal hk
  · next p q hk =>
    obtain rfl := eq_of_derived h
    exact .conjunction hk
  · next p hk => exact derives_of_disjunction hk h
  · next p hk => exact derives_of_implication hk h
  · next p q hk => exact derives_of_negation hk h
  · next p hk => exact derives_of_quantifier (q := .all) hk h
  · next p hk => exact derives_of_quantifier (q := .exist) hk h
  · exact absurd h (by simp [Conclusion.status])

/-- What a quantifier piece does with names of the right kind. -/
theorem quantifier_of_text {q : Quantifier} {p : Conclusion} {v t : String}
    (hv : c.piece.params.variableName = .text v) (ht : c.piece.params.abstracted = .text t)
    (huv : isUsableName v = true) (hut : isUsableName t = true) :
    c.quantifier q p = c.quantification q v t p := by
  have hnv : isNameable? (.text v) = some true := by rw [isNameable?, huv]
  have hnt : isNameable? (.text t) = some true := by rw [isNameable?, hut]
  rw [quantifier, hv, ht]
  simp only [holds_of_usable huv, hnv, hnt, not_true_eq_false, ne_eq, if_false]

theorem quantifier_of_no_text {q : Quantifier} {p : Conclusion} {v : String}
    (hv : c.piece.params.variableName = .text v) (ht : ∀ t, c.piece.params.abstracted ≠ .text t)
    (huv : isUsableName v = true) (hut : isNameable? c.piece.params.abstracted = some true) :
    c.quantifier q p = c.vacuous v c.piece.params.abstracted p := by
  have hnv : isNameable? (.text v) = some true := by rw [isNameable?, huv]
  rw [quantifier, hv]
  simp only [holds_of_usable huv, hnv, hut, not_true_eq_false, ne_eq, if_false]

/-- The rule checker derives what the rules allow, and nothing else. -/
theorem apply_eq_status_iff : c.apply ps = d.status ↔ Derives c ps d := by
  refine ⟨derives_of_apply, fun h => ?_⟩
  cases h with
  | assumption hk hf => simp [apply, hk, assumption, hf, Conclusion.status]
  | goal hk => simp [apply, hk]
  | conjunction hk => simp [apply, hk, conjunction, Conclusion.status]
  | disjunctionLeft hk ho hs => simp [apply, hk, disjunction, ho, hs, Conclusion.status]
  | disjunctionRight hk ho hs =>
    simp [apply, hk, disjunction, ho, hs, Conclusion.status, Params.leftSide, Params.rightSide]
  | implication hk hh => simp [apply, hk, implication, hh, Conclusion.status]
  | negation hk hh hq => simp [apply, hk, negation, hh, hq, Conclusion.status]
  | @quantification p q v t body hk hv ht huv hut hfree hbody hapart =>
    have hquant : c.apply [p] = c.quantifier q p := by
      cases q <;> simp only [apply, hk, Construction.quantifierKind]
    rw [hquant, quantifier_of_text hv ht huv hut]
    exact quantification_eq_status_iff.mpr ⟨hfree, hapart, body, hbody, rfl⟩
  | @vacuous p v hk hv ht huv hut hfree hapart =>
    have hquant : ∃ q, c.apply [p] = c.quantifier q p := by
      cases hkind : c.piece.kind with
      | forallIntro => exact ⟨.all, by simp only [apply, hkind]⟩
      | existsIntro => exact ⟨.exist, by simp only [apply, hkind]⟩
      | _ => simp [hkind, RuleKind.binds] at hk
    obtain ⟨q, hquant⟩ := hquant
    rw [hquant, quantifier_of_no_text hv ht huv hut]
    exact vacuous_eq_status_iff.mpr ⟨hfree, hapart, rfl⟩

/-- An open assumption is the piece itself or is open in a premise. -/
theorem Derives.assumption_or_mem {a : PieceId} (h : Derives c ps d) (ha : a ∈ d.assumptions) :
    (a = c.piece.id ∧ c.piece.kind = .assumption ∧ ∃ f, c.piece.params.formula = some f) ∨
      ∃ p ∈ ps, a ∈ p.assumptions := by
  cases h with
  | @assumption _ f hk hf => exact .inl ⟨List.mem_singleton.mp ha, hk, f, hf⟩
  | conjunction _ =>
    right
    rcases Ascending.mem_union.mp ha with h | h
    · exact ⟨_, by simp, h⟩
    · exact ⟨_, List.mem_cons_of_mem _ List.mem_cons_self, h⟩
  | implication _ _ => exact .inr ⟨_, List.mem_cons_self, List.mem_of_mem_filter ha⟩
  | negation _ _ _ =>
    right
    rcases Ascending.mem_union.mp (List.mem_of_mem_filter ha) with h | h
    · exact ⟨_, by simp, h⟩
    · exact ⟨_, List.mem_cons_of_mem _ List.mem_cons_self, h⟩
  | _ => exact .inr ⟨_, List.mem_cons_self, ha⟩

/-! What is wrong with a piece is said of that piece, and cannot be resolved by building on. -/

section Violations

variable {v : Violation}

theorem own_of_flawed {f : Flaw} (h : c.flawed f = .violated v) (hf : f.kind.isProgress = false) :
    v.piece = some c.piece.id ∧ v.kind.isProgress = false := by
  obtain rfl := Status.violated.inj h
  exact ⟨rfl, hf⟩

theorem own_of_quantifier {q : Quantifier} {e : Conclusion} (h : c.quantifier q e = .violated v) :
    v.piece = some c.piece.id ∧ v.kind.isProgress = false := by
  simp only [quantifier, quantification, vacuous] at h
  repeat' split at h
  all_goals first | exact own_of_flawed h rfl | exact Status.noConfusion h

theorem own_of_apply (h : c.apply ps = .violated v) :
    v.piece = some c.piece.id ∧ v.kind.isProgress = false := by
  unfold apply assumption disjunction implication negation at h
  repeat' split at h
  all_goals first
    | exact own_of_quantifier h
    | exact own_of_flawed h rfl
    | exact Status.noConfusion h

end Violations

section Congruence

variable {c' : Context} {open_ : List PieceId}

theorem clash?_congr {watched : List String}
    (h : ∀ a ∈ open_, c.board.assumed? a = c'.board.assumed? a) :
    c.clash? watched open_ = c'.clash? watched open_ := by
  induction open_ with
  | nil => rfl
  | cons a open_ ih =>
    have hrest := ih fun a ha => h a (List.mem_cons_of_mem _ ha)
    rw [clash?, clash?, h a List.mem_cons_self, hrest]

theorem discharge_congr {f : Formula}
    (h : ∀ a ∈ open_, c.board.assumed? a = c'.board.assumed? a) :
    c.discharge f open_ = c'.discharge f open_ :=
  List.filter_congr fun a ha => by rw [h a ha]

theorem flawed_congr {f : Flaw} (hp : SameRule c.piece c'.piece) : c.flawed f = c'.flawed f := by
  rw [flawed, flawed, hp.id]

theorem missing_congr {name : String} (hp : SameRule c.piece c'.piece) :
    c.missing name = c'.missing name := by
  rw [missing, missing, hp.kind, flawed_congr hp]

theorem quantifier_congr {q : Quantifier} {d : Conclusion} (hp : SameRule c.piece c'.piece)
    (h : ∀ a ∈ d.assumptions, c.board.assumed? a = c'.board.assumed? a) :
    c.quantifier q d = c'.quantifier q d := by
  simp only [quantifier, quantification, vacuous, clash?_congr h, flawed_congr hp,
    missing_congr hp, hp.params]

theorem apply_congr (hp : SameRule c.piece c'.piece)
    (h : ∀ d ∈ ps, ∀ a ∈ d.assumptions, c.board.assumed? a = c'.board.assumed? a) :
    c.apply ps = c'.apply ps := by
  unfold apply
  rw [hp.kind]
  split
  · rw [assumption, assumption, hp.params, hp.id, missing_congr hp]
  · rfl
  · rfl
  · simp only [disjunction, hp.params, missing_congr hp, flawed_congr hp, hp.kind]
  · next d _ =>
    simp only [implication, hp.params, missing_congr hp, discharge_congr (h d List.mem_cons_self)]
  · next d e _ =>
    have hunion : ∀ a ∈ Ascending.union d.assumptions e.assumptions,
        c.board.assumed? a = c'.board.assumed? a := by
      intro a ha
      rcases Ascending.mem_union.mp ha with ha | ha
      · exact h d List.mem_cons_self a ha
      · exact h e (List.mem_cons_of_mem _ List.mem_cons_self) a ha
    simp only [negation, hp.params, missing_congr hp, flawed_congr hp, discharge_congr hunion]
  · next d _ => exact quantifier_congr hp (h d List.mem_cons_self)
  · next d _ => exact quantifier_congr hp (h d List.mem_cons_self)
  · rfl

theorem isDefective_congr (hp : SameRule c.piece c'.piece) : c.isDefective ps = c'.isDefective ps := by
  simp only [isDefective, isIllTyped, hp.kind, hp.params]

end Congruence

end Context

theorem SameRule.premises (h : SameRule p p') : p.premises = p'.premises := by
  rw [Piece.premises, Piece.premises, h.slots]

theorem SameRule.missing (h : SameRule p p') : p.missing = p'.missing := by
  rw [Piece.missing, Piece.missing, h.slots]

theorem SameRule.isComplete (h : SameRule p p') : p.isComplete = p'.isComplete := by
  rw [Piece.isComplete, Piece.isComplete, h.missing]

/-- The status of a piece depends on what its premises derive and on what these assume. -/
theorem statusOf_congr (hp : SameRule p p')
    (hs : ∀ i ∈ p'.premises, s.conclusion? i = s'.conclusion? i)
    (hb : ∀ i ∈ p'.premises, ∀ d, s'.conclusion? i = some d →
      ∀ a ∈ d.assumptions, b.assumed? a = b'.assumed? a) :
    statusOf b p s = statusOf b' p' s' := by
  have hblocked : (p'.premises.filter fun i => (s.conclusion? i).isNone) =
      p'.premises.filter fun i => (s'.conclusion? i).isNone :=
    List.filter_congr fun i hi => by rw [hs i hi]
  have happly : (Context.mk b p).apply (p'.premises.filterMap s'.conclusion?) =
      (Context.mk b' p').apply (p'.premises.filterMap s'.conclusion?) := by
    refine Context.apply_congr hp fun d hd => ?_
    obtain ⟨i, hi, hd⟩ := List.mem_filterMap.mp hd
    exact hb i hi d hd
  simp only [statusOf, hp.isComplete, hp.missing, hp.premises, hblocked,
    List.filterMap_congr hs, happly]

/-- A piece derives something when all its premises do and its rule allows it. -/
theorem statusOf_eq_status_iff : statusOf b p s = d.status ↔
    p.isComplete = true ∧ (∀ i ∈ p.premises, (s.conclusion? i).isSome) ∧
      Context.Derives ⟨b, p⟩ (p.premises.filterMap s.conclusion?) d := by
  rw [← Context.apply_eq_status_iff]
  by_cases hcomplete : p.isComplete = true
  · have hnone : (p.premises.filter fun i => (s.conclusion? i).isNone).isEmpty = true ↔
        ∀ i ∈ p.premises, (s.conclusion? i).isSome := by
      simp [Option.isSome_iff_ne_none]
    by_cases hblocked : (p.premises.filter fun i => (s.conclusion? i).isNone).isEmpty = true
    · rw [statusOf, if_neg (not_not.mpr hcomplete), if_neg (not_not.mpr hblocked)]
      exact ⟨fun h => ⟨hcomplete, hnone.mp hblocked, h⟩, fun h => h.2.2⟩
    · rw [statusOf, if_neg (not_not.mpr hcomplete), if_pos hblocked]
      constructor
      · intro h
        exact absurd h (by simp [Conclusion.status])
      · rintro ⟨-, h, -⟩
        exact absurd (hnone.mpr h) hblocked
  · simp [statusOf, hcomplete, Conclusion.status]

theorem own_of_statusOf {v : Violation} (h : statusOf b p s = .violated v) :
    v.piece = some p.id ∧ v.kind.isProgress = false := by
  rw [statusOf] at h
  split at h
  · exact Status.noConfusion h
  dsimp only at h
  split at h
  · exact Status.noConfusion h
  · exact Context.own_of_apply h

@[simp] theorem mem_premises {i : PieceId} : i ∈ p.premises ↔ some i ∈ p.slots := by
  simp [Piece.premises]

/-- Whether a rule can be applied to a piece does not depend on the board. -/
theorem isDefective_congr (hp : SameRule p p')
    (hs : ∀ i ∈ p'.premises, s.conclusion? i = s'.conclusion? i) :
    isDefective b p s = isDefective b' p' s' := by
  have hall : (p'.premises.all fun i => (s.conclusion? i).isSome) =
      p'.premises.all fun i => (s'.conclusion? i).isSome := by
    rw [Bool.eq_iff_iff, List.all_eq_true, List.all_eq_true]
    exact forall₂_congr fun i hi => by rw [hs i hi]
  have hdefective : (Context.mk b p).isDefective (p'.premises.filterMap s'.conclusion?) =
      (Context.mk b' p').isDefective (p'.premises.filterMap s'.conclusion?) :=
    Context.isDefective_congr hp
  simp only [isDefective, hp.isComplete, hp.premises, hall, List.filterMap_congr hs, hdefective]

end DeductionBoard.Derivation
