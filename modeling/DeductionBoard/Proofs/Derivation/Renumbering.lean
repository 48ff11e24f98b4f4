import DeductionBoard.Proofs.Board.History
import DeductionBoard.Proofs.Derivation.Assumptions
import DeductionBoard.Proofs.Derivation.Strict
import Mathlib

/-! The same pieces under other numbers. Numbers decide in which order pieces are checked, which open
assumption is the first that clashes with a quantifier, and how violations are sorted; they do not
decide what is found. Main result: at any moments of two histories, boards that differ in the
numbers of their pieces are checked with corresponding statuses and the same kinds of violations, so
that a proof is accepted on both or on neither. -/

namespace DeductionBoard

open DeductionBoard.Derivation Relation

/-- The second list has the new numbers of the pieces in the first, in any order. -/
def Renumbers (σ : PieceId → PieceId) (is js : List PieceId) : Prop :=
  ∀ j, j ∈ js ↔ ∃ i ∈ is, σ i = j

/-- The same instance of a rule under other numbers. -/
structure Piece.Renumbered (σ : PieceId → PieceId) (p p' : Piece) : Prop where
  id : p'.id = σ p.id
  kind : p'.kind = p.kind
  params : p'.params = p.params
  slots : p'.slots = p.slots.map (Option.map σ)

/-- The same formula from the same assumptions under other numbers. -/
structure Derivation.Conclusion.Renumbered (σ : PieceId → PieceId) (d d' : Conclusion) : Prop where
  formula : d'.formula = d.formula
  assumptions : Renumbers σ d.assumptions d'.assumptions

/-- The same finding under other numbers; of a violation only its piece and its kind. -/
inductive Status.Renumbered (σ : PieceId → PieceId) : Status → Status → Prop
  | derived {f : Formula} {open_ open' : List PieceId} (h : Renumbers σ open_ open') :
      Renumbered σ (.derived f open_) (.derived f open')
  | incomplete (missing : List Nat) (blocked : List PieceId) :
      Renumbered σ (.incomplete missing blocked) (.incomplete missing (blocked.map σ))
  | violated {v v' : Violation} (hpiece : v'.piece = v.piece.map σ) (hkind : v'.kind = v.kind) :
      Renumbered σ (.violated v) (.violated v')

/-- The same target and premises, and the same pieces and goal under other numbers. -/
structure Board.Renumbered (σ : PieceId → PieceId) (b b' : Board) : Prop where
  target : b'.target = b.target
  premises : b'.premises = b.premises
  goal : b'.goal = b.goal.map σ
  bijection : Set.BijOn σ {i | i ∈ b.ids} {i | i ∈ b'.ids}
  piece : ∀ i p, b.piece? i = some p → ∃ p', b'.piece? (σ i) = some p' ∧ p.Renumbered σ p'

variable {σ : PieceId → PieceId} {is js is' js' : List PieceId}

theorem Renumbers.union (h : Renumbers σ is js) (h' : Renumbers σ is' js') :
    Renumbers σ (Ascending.union is is') (Ascending.union js js') := by
  intro j
  simp only [Ascending.mem_union, h j, h' j]
  constructor
  · rintro (⟨i, hi, hij⟩ | ⟨i, hi, hij⟩)
    · exact ⟨i, .inl hi, hij⟩
    · exact ⟨i, .inr hi, hij⟩
  · rintro ⟨i, hi | hi, hij⟩
    · exact .inl ⟨i, hi, hij⟩
    · exact .inr ⟨i, hi, hij⟩

theorem Derivation.Conclusion.Renumbered.status {d d' : Conclusion} (h : d.Renumbered σ d') :
    d.status.Renumbered σ d'.status := by
  rw [Conclusion.status, Conclusion.status, h.formula]
  exact .derived h.assumptions

/-! ### Rules -/

namespace Derivation.Context

variable {c c' : Context} {d d' e e' : Conclusion} {ps ps' : List Conclusion} {names : List String}

/-- The pieces of a list assume the same under their new numbers. -/
def AssumesAlike (σ : PieceId → PieceId) (c c' : Context) (open_ : List PieceId) : Prop :=
  ∀ a ∈ open_, c'.board.assumed? (σ a) = c.board.assumed? a

theorem discharge_renumbered (h : Renumbers σ is js) (hopen : AssumesAlike σ c c' is) (f : Formula) :
    Renumbers σ (c.discharge f is) (c'.discharge f js) := by
  intro j
  simp only [discharge, List.mem_filter, decide_eq_true_eq, h j]
  constructor
  · rintro ⟨⟨i, hi, rfl⟩, hne⟩
    exact ⟨i, ⟨hi, hopen i hi ▸ hne⟩, rfl⟩
  · rintro ⟨i, ⟨hi, hne⟩, rfl⟩
    exact ⟨⟨i, hi, rfl⟩, (hopen i hi).symm ▸ hne⟩

theorem apart_iff_of_renumbers (h : Renumbers σ is js) (hopen : AssumesAlike σ c c' is) :
    c'.Apart names js ↔ c.Apart names is := by
  constructor
  · intro hapart i hi f hf
    exact hapart (σ i) ((h (σ i)).mpr ⟨i, hi, rfl⟩) f ((hopen i hi).trans hf)
  · intro hapart j hj f hf
    obtain ⟨i, hi, rfl⟩ := (h j).mp hj
    exact hapart i hi f ((hopen i hi).symm.trans hf)

/-- Under other numbers another assumption may clash first, but one does if any did. -/
theorem clash?_renumbered (h : Renumbers σ is js) (hopen : AssumesAlike σ c c' is)
    (names : List String) :
    c.clash? names is = none ∧ c'.clash? names js = none ∨
      ∃ x x', c.clash? names is = some x ∧ c'.clash? names js = some x' := by
  have hiff : c'.clash? names js = none ↔ c.clash? names is = none := by
    rw [clash?_eq_none_iff, clash?_eq_none_iff, apart_iff_of_renumbers h hopen]
  cases hx : c.clash? names is with
  | none => exact .inl ⟨rfl, hiff.mpr hx⟩
  | some x =>
    obtain ⟨x', hx'⟩ := Option.ne_none_iff_exists'.mp fun hnone =>
      absurd (hx.symm.trans (hiff.mp hnone)) (by simp)
    exact .inr ⟨x, x', rfl, hx'⟩

theorem flawed_renumbered (hp : c.piece.Renumbered σ c'.piece) {f f' : Flaw}
    (hf : f'.kind = f.kind) : (c.flawed f).Renumbered σ (c'.flawed f') :=
  .violated (congrArg some hp.id) hf

theorem missing_renumbered (hp : c.piece.Renumbered σ c'.piece) (name : String) :
    (c.missing name).Renumbered σ (c'.missing name) :=
  flawed_renumbered hp rfl

theorem assumption_renumbered (hp : c.piece.Renumbered σ c'.piece) :
    c.assumption.Renumbered σ c'.assumption := by
  rw [assumption, assumption, hp.params]
  cases c.piece.params.formula with
  | none => exact missing_renumbered hp _
  | some f =>
    refine .derived fun j => ?_
    simp [hp.id, eq_comm]

theorem conjunction_renumbered (hd : d.Renumbered σ d') (he : e.Renumbered σ e') :
    (conjunction d e).Renumbered σ (conjunction d' e') := by
  rw [conjunction, conjunction, hd.formula, he.formula]
  exact .derived (hd.assumptions.union he.assumptions)

theorem disjunction_renumbered (hp : c.piece.Renumbered σ c'.piece) (hd : d.Renumbered σ d') :
    (c.disjunction d).Renumbered σ (c'.disjunction d') := by
  rw [disjunction, disjunction, hp.params, hd.formula]
  cases c.piece.params.other with
  | none => exact missing_renumbered hp _
  | some other =>
    dsimp only
    split
    · exact .derived hd.assumptions
    split
    · exact .derived hd.assumptions
    · exact flawed_renumbered hp rfl

theorem implication_renumbered (hp : c.piece.Renumbered σ c'.piece) (hd : d.Renumbered σ d')
    (hopen : AssumesAlike σ c c' d.assumptions) :
    (c.implication d).Renumbered σ (c'.implication d') := by
  rw [implication, implication, hp.params, hd.formula]
  cases c.piece.params.hypothesis with
  | none => exact missing_renumbered hp _
  | some f => exact .derived (discharge_renumbered hd.assumptions hopen f)

theorem negation_renumbered (hp : c.piece.Renumbered σ c'.piece) (hd : d.Renumbered σ d')
    (he : e.Renumbered σ e')
    (hopen : AssumesAlike σ c c' (Ascending.union d.assumptions e.assumptions)) :
    (c.negation d e).Renumbered σ (c'.negation d' e') := by
  rw [negation, negation, hp.params, hd.formula, he.formula]
  cases c.piece.params.hypothesis with
  | none => exact missing_renumbered hp _
  | some f =>
    dsimp only
    split
    · exact .derived (discharge_renumbered (hd.assumptions.union he.assumptions) hopen f)
    · exact flawed_renumbered hp rfl

theorem quantification_renumbered (hp : c.piece.Renumbered σ c'.piece) (hd : d.Renumbered σ d')
    (hopen : AssumesAlike σ c c' d.assumptions) (q : Quantifier) (v t : String) :
    (c.quantification q v t d).Renumbered σ (c'.quantification q v t d') := by
  unfold quantification
  rw [hd.formula]
  split
  · exact flawed_renumbered hp rfl
  cases d.formula.substitute t v with
  | none => exact flawed_renumbered hp rfl
  | some body =>
    have hclash := clash?_renumbered hd.assumptions hopen (eigenNames q v t)
    -- the names that are watched depend on the quantifier alone
    cases q <;>
    · simp only [eigenNames] at hclash
      rcases hclash with ⟨hx, hx'⟩ | ⟨x, x', hx, hx'⟩
      · simp only [hx, hx']
        exact .derived hd.assumptions
      · simp only [hx, hx']
        exact flawed_renumbered hp rfl

theorem vacuous_renumbered (hp : c.piece.Renumbered σ c'.piece) (hd : d.Renumbered σ d')
    (hopen : AssumesAlike σ c c' d.assumptions) (v : String) (t : Value) :
    (c.vacuous v t d).Renumbered σ (c'.vacuous v t d') := by
  rw [vacuous, vacuous, hd.formula]
  split
  · exact flawed_renumbered hp rfl
  rcases clash?_renumbered hd.assumptions hopen [v] with ⟨hx, hx'⟩ | ⟨x, x', hx, hx'⟩ <;>
    rw [hx, hx']
  · exact .derived hd.assumptions
  · exact flawed_renumbered hp rfl

theorem quantifier_renumbered (hp : c.piece.Renumbered σ c'.piece) (hd : d.Renumbered σ d')
    (hopen : AssumesAlike σ c c' d.assumptions) (q : Quantifier) :
    (c.quantifier q d).Renumbered σ (c'.quantifier q d') := by
  unfold quantifier
  rw [hp.params]
  dsimp only
  split
  · exact missing_renumbered hp _
  split
  · exact flawed_renumbered hp rfl
  split
  · exact flawed_renumbered hp rfl
  split
  · exact quantification_renumbered hp hd hopen q _ _
  · exact vacuous_renumbered hp hd hopen _ _
  · exact flawed_renumbered hp rfl

/-- A rule with all its premises comes to the same under other numbers. -/
theorem apply_renumbered (hp : c.piece.Renumbered σ c'.piece)
    (hps : List.Forall₂ (Conclusion.Renumbered σ) ps ps') (hsupplied : Supplied c.piece.kind ps)
    (hopen : ∀ d ∈ ps, AssumesAlike σ c c' d.assumptions) :
    (c.apply ps).Renumbered σ (c'.apply ps') := by
  unfold apply
  rw [hp.kind]
  generalize c.piece.kind = k at hsupplied
  cases hsupplied with
  | assumption =>
    obtain _ | _ := hps
    exact assumption_renumbered hp
  | goal d =>
    obtain _ | ⟨hd, _ | _⟩ := hps
    exact hd.status
  | conjunction d e =>
    obtain _ | ⟨hd, _ | ⟨he, _ | _⟩⟩ := hps
    exact conjunction_renumbered hd he
  | disjunction d =>
    obtain _ | ⟨hd, _ | _⟩ := hps
    exact disjunction_renumbered hp hd
  | implication d =>
    obtain _ | ⟨hd, _ | _⟩ := hps
    exact implication_renumbered hp hd (hopen d List.mem_cons_self)
  | negation d e =>
    obtain _ | ⟨hd, _ | ⟨he, _ | _⟩⟩ := hps
    refine negation_renumbered hp hd he fun a ha => ?_
    rcases Ascending.mem_union.mp ha with ha | ha
    · exact hopen d List.mem_cons_self a ha
    · exact hopen e (List.mem_cons_of_mem _ List.mem_cons_self) a ha
  | universal d =>
    obtain _ | ⟨hd, _ | _⟩ := hps
    exact quantifier_renumbered hp hd (hopen d List.mem_cons_self) .all
  | existential d =>
    obtain _ | ⟨hd, _ | _⟩ := hps
    exact quantifier_renumbered hp hd (hopen d List.mem_cons_self) .exist

theorem isIllTyped_renumbered (hp : c.piece.Renumbered σ c'.piece) (hd : d.Renumbered σ d')
    (q : Quantifier) : c'.isIllTyped q d' = c.isIllTyped q d := by
  rw [isIllTyped, isIllTyped, hp.params, hd.formula]

theorem isDefective_renumbered (hp : c.piece.Renumbered σ c'.piece)
    (hps : List.Forall₂ (Conclusion.Renumbered σ) ps ps') (hsupplied : Supplied c.piece.kind ps) :
    c'.isDefective ps' = c.isDefective ps := by
  unfold isDefective
  rw [hp.kind]
  generalize c.piece.kind = k at hsupplied
  cases hsupplied with
  | universal d =>
    obtain _ | ⟨hd, _ | _⟩ := hps
    exact isIllTyped_renumbered hp hd .all
  | existential d =>
    obtain _ | ⟨hd, _ | _⟩ := hps
    exact isIllTyped_renumbered hp hd .exist
  | _ => rfl

end Derivation.Context

/-! ### Pieces -/

section Pieces

variable {b b' : Board} {p p' : Piece} {s s' : Statuses} {i : PieceId}

theorem Piece.Renumbered.premises (h : p.Renumbered σ p') : p'.premises = p.premises.map σ := by
  rw [Piece.premises, Piece.premises, h.slots, List.filterMap_map, List.map_filterMap]
  rfl

theorem Piece.Renumbered.missing (h : p.Renumbered σ p') : p'.missing = p.missing := by
  rw [Piece.missing, Piece.missing, h.slots, List.zipIdx_map, List.filter_map, List.map_map]
  congr 1
  refine List.filter_congr ?_
  rintro ⟨slot, n⟩ -
  exact Option.isNone_map

theorem Piece.Renumbered.isComplete (h : p.Renumbered σ p') : p'.isComplete = p.isComplete := by
  rw [Piece.isComplete, Piece.isComplete, h.missing]

namespace Derivation

/-- The premises of the piece derive the same in both tables. -/
def SupportsAlike (σ : PieceId → PieceId) (s s' : Statuses) (p : Piece) : Prop :=
  ∀ i ∈ p.premises, Option.Rel (Conclusion.Renumbered σ) (s.conclusion? i) (s'.conclusion? (σ i))

theorem conclusion?_renumbered {j : PieceId} {st st' : Status} (hst : s.status? i = some st)
    (hst' : s'.status? j = some st') (h : st.Renumbered σ st') :
    Option.Rel (Conclusion.Renumbered σ) (s.conclusion? i) (s'.conclusion? j) := by
  rw [Statuses.conclusion?, Statuses.conclusion?, hst, hst']
  cases h with
  | derived hopen => exact .some ⟨rfl, hopen⟩
  | incomplete missing blocked => exact .none
  | violated hpiece hkind => exact .none

theorem isNone_conclusion?_renumbered (h : SupportsAlike σ s s' p) (hi : i ∈ p.premises) :
    (s'.conclusion? (σ i)).isNone = (s.conclusion? i).isNone := by
  have hi := h i hi
  generalize s.conclusion? i = d, s'.conclusion? (σ i) = d' at hi
  cases hi <;> rfl

/-- The conclusions of the premises, in slot order. -/
theorem forall₂_conclusions (hp : p.Renumbered σ p') (h : SupportsAlike σ s s' p) :
    List.Forall₂ (Conclusion.Renumbered σ) (p.premises.filterMap s.conclusion?)
      (p'.premises.filterMap s'.conclusion?) := by
  have hpremises : List.Forall₂ (fun i j => i ∈ p.premises ∧ σ i = j) p.premises p'.premises := by
    rw [hp.premises, List.forall₂_map_right_iff, List.forall₂_same]
    exact fun i hi => ⟨hi, rfl⟩
  refine List.rel_filterMap ?_ hpremises
  rintro i _ ⟨hi, rfl⟩
  exact h i hi

theorem blocked_renumbered (hp : p.Renumbered σ p') (h : SupportsAlike σ s s' p) :
    (p'.premises.filter fun i => (s'.conclusion? i).isNone) =
      (p.premises.filter fun i => (s.conclusion? i).isNone).map σ := by
  rw [hp.premises, List.filter_map]
  congr 1
  exact List.filter_congr fun i hi => isNone_conclusion?_renumbered h hi

/-- The status of a piece under other numbers. -/
theorem statusOf_renumbered (hp : p.Renumbered σ p') (harity : p.slots.length = p.kind.arity)
    (h : SupportsAlike σ s s' p)
    (hassumed : ∀ i ∈ p.premises, ∀ d, s.conclusion? i = some d → ∀ a ∈ d.assumptions,
      b'.assumed? (σ a) = b.assumed? a) :
    (statusOf b p s).Renumbered σ (statusOf b' p' s') := by
  unfold statusOf
  rw [hp.isComplete, hp.missing]
  split
  · exact .incomplete p.missing []
  next hcomplete =>
  dsimp only
  rw [blocked_renumbered hp h, List.isEmpty_map]
  split
  · exact .incomplete [] _
  next hblocked =>
  have hconclusions : ∀ i ∈ p.premises, (s.conclusion? i).isSome := by
    simpa [Option.isSome_iff_ne_none] using hblocked
  refine Context.apply_renumbered hp (forall₂_conclusions hp h) (Context.supplied_of_length ?_) ?_
  · exact (length_conclusions (not_not.mp hcomplete) hconclusions).trans harity
  · intro d hd a ha
    obtain ⟨i, hi, hd⟩ := List.mem_filterMap.mp hd
    exact hassumed i hi d hd a ha

theorem isDefective_renumbered (hp : p.Renumbered σ p') (harity : p.slots.length = p.kind.arity)
    (h : SupportsAlike σ s s' p) : isDefective b' p' s' = isDefective b p s := by
  have hall : (p'.premises.all fun i => (s'.conclusion? i).isSome) =
      p.premises.all fun i => (s.conclusion? i).isSome := by
    rw [hp.premises, List.all_map, Bool.eq_iff_iff, List.all_eq_true, List.all_eq_true]
    refine forall₂_congr fun i hi => ?_
    rw [Function.comp_apply, ← Option.not_isNone, ← Option.not_isNone,
      isNone_conclusion?_renumbered h hi]
  rw [isDefective, isDefective, hp.isComplete, hall]
  by_cases hready : p.isComplete = true ∧ ∀ i ∈ p.premises, (s.conclusion? i).isSome
  · have hlength := (length_conclusions hready.1 hready.2).trans harity
    have hp : (Context.mk b p).piece.Renumbered σ (Context.mk b' p').piece := hp
    rw [Context.isDefective_renumbered hp (forall₂_conclusions hp h)
      (Context.supplied_of_length hlength)]
  · have hnot : (p.isComplete && p.premises.all fun i => (s.conclusion? i).isSome) = false := by
      rw [Bool.eq_false_iff]
      simpa using hready
    rw [hnot, Bool.false_and, Bool.false_and]

end Derivation

end Pieces

/-! ### Boards -/

namespace Board

variable {b b' : Board} {i j g : PieceId} {c : CheckerSettings}

/-- The violations of the pieces, in the order of checking. -/
theorem found_eq (hb : b.WellFormed) :
    b.found = b.order.filterMap fun i => (b.statuses.status? i).bind Status.violation? := by
  rw [found, ← map_fst_statuses hb, List.filterMap_map]
  refine List.filterMap_congr fun e he => ?_
  rw [Function.comp_apply, Statuses.status?_of_mem (nodup_statuses hb) he, Option.bind_some]

/-- Under a piece stand different assumptions of the board. -/
theorem nodup_of_derived (hb : b.WellFormed) (hc : b.Current) {f : Formula} {open_ : List PieceId}
    (hi : b.statuses.status? i = some (.derived f open_)) :
    open_.Nodup ∧ ∀ a ∈ open_, a ∈ b.ids := by
  have hd : b.statuses.conclusion? i = some ⟨f, open_⟩ := Statuses.conclusion?_eq_some_iff.mpr hi
  have hascending := ascending_of_conclusion? hb (fun i p hp => hc.status?_statuses hb hp)
    (mem_ids_of_status? hb hi) hd
  refine ⟨hascending.imp fun hlt => Int.ne_of_lt hlt, fun a ha => ?_⟩
  obtain ⟨f', -, hstatus⟩ := derived_of_open hb hc hi ha
  exact mem_ids_of_status? hb hstatus

/-- A gap at the goal is explained by a violation above it. -/
theorem isExplained_iff (hb : b.WellFormed) (hc : b.Current) :
    b.isExplained g b.found = true ↔
      ∃ i v, TransGen b.Feeds i g ∧ b.statuses.status? i = some (.violated v) := by
  simp only [isExplained, List.any_eq_true, Option.any_eq_true, decide_eq_true_eq, mem_found hb,
    mem_dependencies hb.nodup hb.wired]
  constructor
  · rintro ⟨v, ⟨i, hi⟩, j, hj, hjg⟩
    obtain rfl := Option.some.inj ((piece_of_violated hb hc hi).symm.trans hj)
    exact ⟨i, v, hjg, hi⟩
  · rintro ⟨i, v, hig, hi⟩
    exact ⟨v, ⟨i, hi⟩, i, piece_of_violated hb hc hi, hig⟩

/-- A review breaks off at a piece whose rule cannot be applied, if there is one. -/
theorem isSome_defective?_iff (hb : b.WellFormed) (hc : b.Current) :
    b.defective?.isSome = true ↔
      ∃ i p, b.piece? i = some p ∧ isDefective b p b.statuses = true := by
  rw [hc.defective?_eq, List.find?_isSome]
  constructor
  · rintro ⟨i, -, hi⟩
    obtain ⟨p, hp, hdefective⟩ := (Option.any_eq_true _ _).mp hi
    exact ⟨i, p, hp, hdefective⟩
  · rintro ⟨i, p, hp, hdefective⟩
    exact ⟨i, (mem_order hb).mpr (mem_ids_of_piece? hp), by rw [hp]; exact hdefective⟩

namespace Renumbered

theorem assumed? (h : b.Renumbered σ b') (hi : i ∈ b.ids) : b'.assumed? (σ i) = b.assumed? i := by
  obtain ⟨p, hp⟩ := exists_piece? hi
  obtain ⟨p', hp', hpp⟩ := h.piece i p hp
  rw [Board.assumed?, Board.assumed?, hp, hp', Option.bind_some, Option.bind_some, hpp.params]

theorem feeds_iff (h : b.Renumbered σ b') (hi : i ∈ b.ids) :
    b'.Feeds j (σ i) ↔ ∃ k, b.Feeds k i ∧ σ k = j := by
  obtain ⟨p, hp⟩ := exists_piece? hi
  obtain ⟨p', hp', hpp⟩ := h.piece i p hp
  simp only [Feeds, producers, hp, hp', hpp.premises, List.mem_map]

/-- What a piece depends on under other numbers. -/
theorem transGen_iff (h : b.Renumbered σ b') (hb : b.WellFormed) (hg : g ∈ b.ids) :
    TransGen b'.Feeds j (σ g) ↔ ∃ i, TransGen b.Feeds i g ∧ σ i = j := by
  constructor
  · intro hj
    -- upwards from the goal, so that the lower end of each wire has an old number already
    induction hj using TransGen.head_induction_on with
    | single hj =>
      obtain ⟨i, hi, rfl⟩ := (h.feeds_iff hg).mp hj
      exact ⟨i, .single hi, rfl⟩
    | head hjk _ ih =>
      obtain ⟨i, hig, rfl⟩ := ih
      obtain ⟨k, hki, rfl⟩ := (h.feeds_iff (hb.wired.mem_ids_of_transGen hig)).mp hjk
      exact ⟨k, .head hki hig, rfl⟩
  · rintro ⟨i, hi, rfl⟩
    exact hi.lift σ fun j k hjk => (h.feeds_iff hjk.mem_ids).mpr ⟨j, hjk, rfl⟩

/-- The orders of checking have the same pieces, although not in the same order. -/
theorem order_perm (h : b.Renumbered σ b') (hb : b.WellFormed) (hb' : b'.WellFormed) :
    b'.order.Perm (b.order.map σ) := by
  have hinj : Set.InjOn σ {i | i ∈ b.order} := fun i hi j hj =>
    h.bijection.injOn ((mem_order hb).mp hi) ((mem_order hb).mp hj)
  refine (List.perm_ext_iff_of_nodup (order_nodup hb') ?_).mpr fun j => ?_
  · exact (List.nodup_map_iff_inj_on (order_nodup hb)).mpr fun i hi j hj => hinj hi hj
  · rw [mem_order hb', List.mem_map]
    constructor
    · intro hj
      obtain ⟨i, hi, rfl⟩ := h.bijection.surjOn hj
      exact ⟨i, (mem_order hb).mpr hi, rfl⟩
    · rintro ⟨i, hi, rfl⟩
      exact h.bijection.mapsTo ((mem_order hb).mp hi)

theorem judgesPremises (h : b.Renumbered σ b') (c : CheckerSettings) :
    b'.judgesPremises c = b.judgesPremises c := by
  rw [Board.judgesPremises, Board.judgesPremises, h.premises]

section Current

variable (h : b.Renumbered σ b') (hb : b.WellFormed) (hc : b.Current) (hb' : b'.WellFormed)
  (hc' : b'.Current)

include h hb hc hb' hc'

/-- The statuses of corresponding pieces correspond. -/
theorem status? (hi : i ∈ b.ids) :
    ∃ st st', b.statuses.status? i = some st ∧ b'.statuses.status? (σ i) = some st' ∧
      st.Renumbered σ st' := by
  have hrules : ∀ i p, b.piece? i = some p →
      b.statuses.status? i = some (statusOf b p b.statuses) :=
    fun i p hp => hc.status?_statuses hb hp
  -- along the wires of the first board: those of the second are the same under the new numbers
  induction i using hb.wellFounded.induction with
  | _ i ih =>
  obtain ⟨p, hp⟩ := exists_piece? hi
  obtain ⟨p', hp', hpp⟩ := h.piece i p hp
  refine ⟨_, _, hrules i p hp, hc'.status?_statuses hb' hp', ?_⟩
  refine statusOf_renumbered hpp (hb.arity i p hp) (fun j hj => ?_) fun j hj d hd a ha => ?_
  · have hji := feeds_of_mem_premises hp hj
    obtain ⟨st, st', hst, hst', hrel⟩ := ih j hji (hb.wired j i hji)
    exact conclusion?_renumbered hst hst' hrel
  · have hji := feeds_of_mem_premises hp hj
    obtain ⟨q, f, hq, -, -⟩ := exists_assumption hb hrules (hb.wired j i hji) hd ha
    exact h.assumed? (mem_ids_of_piece? hq)

theorem isExplained (hg : g ∈ b.ids) :
    b'.isExplained (σ g) b'.found = b.isExplained g b.found := by
  rw [Bool.eq_iff_iff, isExplained_iff hb hc, isExplained_iff hb' hc']
  constructor
  · rintro ⟨j, v', hj, hv'⟩
    obtain ⟨i, hi, rfl⟩ := (h.transGen_iff hb hg).mp hj
    obtain ⟨st, st', hst, hst', hrel⟩ := h.status? hb hc hb' hc' (hb.wired.mem_ids_of_transGen hi)
    obtain rfl := Option.some.inj (hst'.symm.trans hv')
    cases hrel with
    | violated hpiece hkind => exact ⟨i, _, hi, hst⟩
  · rintro ⟨i, v, hi, hv⟩
    obtain ⟨st, st', hst, hst', hrel⟩ := h.status? hb hc hb' hc' (hb.wired.mem_ids_of_transGen hi)
    obtain rfl := Option.some.inj (hst.symm.trans hv)
    cases hrel with
    | violated hpiece hkind => exact ⟨σ i, _, (h.transGen_iff hb hg).mpr ⟨i, hi, rfl⟩, hst'⟩

theorem isSome_defective? : b'.defective?.isSome = b.defective?.isSome := by
  have hsame : ∀ i p p', b.piece? i = some p → p.Renumbered σ p' →
      isDefective b' p' b'.statuses = isDefective b p b.statuses := by
    intro i p p' hp hpp
    refine isDefective_renumbered hpp (hb.arity i p hp) fun j hj => ?_
    have hji := feeds_of_mem_premises hp hj
    obtain ⟨st, st', hst, hst', hrel⟩ := h.status? hb hc hb' hc' (hb.wired j i hji)
    exact conclusion?_renumbered hst hst' hrel
  rw [Bool.eq_iff_iff, isSome_defective?_iff hb hc, isSome_defective?_iff hb' hc']
  constructor
  · rintro ⟨j, p', hp', hdefective⟩
    obtain ⟨i, hi, rfl⟩ := h.bijection.surjOn (mem_ids_of_piece? hp')
    obtain ⟨p, hp⟩ := exists_piece? hi
    obtain ⟨q', hq', hpp⟩ := h.piece i p hp
    obtain rfl := Option.some.inj (hp'.symm.trans hq')
    exact ⟨i, p, hp, hsame i p p' hp hpp ▸ hdefective⟩
  · rintro ⟨i, p, hp, hdefective⟩
    obtain ⟨p', hp', hpp⟩ := h.piece i p hp
    exact ⟨σ i, p', hp', (hsame i p p' hp hpp).trans hdefective⟩

/-- The kinds of what is wrong with pieces. -/
theorem found_perm :
    (b'.found.map Violation.kind).Perm (b.found.map Violation.kind) := by
  have hkind : ∀ i ∈ b.order,
      ((b'.statuses.status? (σ i)).bind Status.violation?).map Violation.kind =
        ((b.statuses.status? i).bind Status.violation?).map Violation.kind := by
    intro i hi
    obtain ⟨st, st', hst, hst', hrel⟩ := h.status? hb hc hb' hc' ((mem_order hb).mp hi)
    rw [hst, hst', Option.bind_some, Option.bind_some]
    cases hrel with
    | derived hopen => rfl
    | incomplete missing blocked => rfl
    | violated hpiece hkind => exact congrArg some hkind
  rw [found_eq hb, found_eq hb', List.map_filterMap, List.map_filterMap]
  refine ((h.order_perm hb hb').filterMap _).trans ?_
  rw [List.filterMap_map]
  exact .of_eq (List.filterMap_congr hkind)

/-- The assumptions that are not declared, by their kinds. -/
theorem undeclared_perm {f : Formula} {open_ open' : List PieceId}
    (hi : b.statuses.status? i = some (.derived f open_))
    (hj : b'.statuses.status? j = some (.derived f open')) (hrel : Renumbers σ open_ open') :
    ((b'.undeclared open').map Violation.kind).Perm ((b.undeclared open_).map Violation.kind) := by
  obtain ⟨hopen, hids⟩ := nodup_of_derived hb hc hi
  have hopen' := (nodup_of_derived hb' hc' hj).1
  have hperm : open'.Perm (open_.map σ) := by
    refine (List.perm_ext_iff_of_nodup hopen' ?_).mpr fun j => by rw [hrel j, List.mem_map]
    exact (List.nodup_map_iff_inj_on hopen).mpr fun i hi j hj =>
      h.bijection.injOn (hids i hi) (hids j hj)
  have hdeclared : b'.declared = b.declared := by rw [declared, declared, h.premises]
  refine ((hperm.filterMap _).map _).trans (.of_eq ?_)
  rw [undeclared, List.filterMap_map, List.map_filterMap, List.map_filterMap]
  refine List.filterMap_congr fun a ha => ?_
  rw [Function.comp_apply, h.assumed? (hids a ha), hdeclared]
  cases b.assumed? a with
  | none => rfl
  | some f =>
    dsimp only
    split <;> rfl

/-- What the policy of the goal adds, by its kinds. -/
theorem added_perm :
    ((b'.added c).map Violation.kind).Perm ((b.added c).map Violation.kind) := by
  rw [added, added, goalViolations, goalViolations, h.goal]
  cases hgoal : b.goal with
  | none => exact .refl _
  | some g =>
    obtain ⟨p, hp, -⟩ := hb.goal g hgoal
    have hg := mem_ids_of_piece? hp
    obtain ⟨st, st', hst, hst', hrel⟩ := h.status? hb hc hb' hc' hg
    rw [Option.map_some]
    dsimp only
    rw [hst, hst']
    cases hrel with
    | violated hpiece hkind => exact .refl _
    | incomplete missing blocked =>
      dsimp only
      rw [h.isExplained hb hc hb' hc' hg, goalOpen, goalOpen, h.target]
      split
      · exact .refl _
      · rw [List.map_map, List.map_map]
        exact .refl _
    | @derived f open_ open' hopen =>
      dsimp only
      rw [h.judgesPremises, List.map_append, List.map_append, goalMismatch, goalMismatch, h.target]
      refine .append ?_ ?_
      · split
        · exact .refl _
        · rw [List.map_map, List.map_map]
          exact .refl _
      · split
        · exact h.undeclared_perm hb hc hb' hc' hst hst' hopen
        · exact .refl _

/-- Where the policy of the goal lacks a formula on one board, it does on the other. -/
theorem lacksFormula : b'.lacksFormula c = b.lacksFormula c := by
  have hfound : ∀ b : Board, (b.statuses.filterMap fun e => e.2.violation?) = b.found :=
    fun _ => rfl
  rw [Board.lacksFormula, Board.lacksFormula, h.goal, hfound, hfound]
  cases hgoal : b.goal with
  | none => rfl
  | some g =>
    obtain ⟨p, hp, -⟩ := hb.goal g hgoal
    have hg := mem_ids_of_piece? hp
    obtain ⟨st, st', hst, hst', hrel⟩ := h.status? hb hc hb' hc' hg
    rw [Option.map_some]
    dsimp only
    rw [hst, hst']
    cases hrel with
    | violated hpiece hkind => rfl
    | incomplete missing blocked =>
      dsimp only
      rw [h.isExplained hb hc hb' hc' hg, h.target]
    | @derived f open_ open' hopen =>
      have hempty := (h.undeclared_perm hb hc hb' hc' hst hst' hopen).isEmpty_eq
      rw [List.isEmpty_map, List.isEmpty_map] at hempty
      dsimp only
      rw [h.judgesPremises, h.target, h.premises, hempty]

/-- Either both reviews break off for the same reason or none does. -/
theorem review :
    (∃ d, (b.review c).1 = .error d ∧ (b'.review c).1 = .error d) ∨
      ∃ r r', (b.review c).1 = .ok r ∧ (b'.review c).1 = .ok r' := by
  have hdefective := h.isSome_defective? hb hc hb' hc'
  rw [Board.review, Board.review, h.lacksFormula hb hc hb' hc']
  cases hx : b.defective? with
  | some i =>
    rw [hx, Option.isSome_some] at hdefective
    obtain ⟨i', hx'⟩ := Option.isSome_iff_exists.mp hdefective
    rw [hx']
    exact .inl ⟨.illTyped, rfl, rfl⟩
  | none =>
    rw [hx, Option.isSome_none, Option.isSome_eq_false_iff, Option.isNone_iff_eq_none] at hdefective
    rw [hdefective]
    cases b.lacksFormula c with
    | true => exact .inl ⟨.noFormula, rfl, rfl⟩
    | false => exact .inr ⟨_, _, rfl, rfl⟩

/-- The violations of the reports, by their kinds. -/
theorem violations_perm {r r' : Report} (hr : (b.review c).1 = .ok r)
    (hr' : (b'.review c).1 = .ok r') :
    (r'.violations.map Violation.kind).Perm (r.violations.map Violation.kind) := by
  have hsorted : ∀ {b : Board} {r : Report}, (b.review c).1 = .ok r →
      (r.violations.map Violation.kind).Perm
        (b.found.map Violation.kind ++ (b.added c).map Violation.kind) := by
    intro b r hr
    rw [violations_of_review hr, ← List.map_append]
    exact (List.mergeSort_perm _ _).map _
  have hparts := (h.found_perm hb hc hb' hc').append (h.added_perm (c := c) hb hc hb' hc')
  exact (hsorted hr').trans (hparts.trans (hsorted hr).symm)

theorem goalMatches {r r' : Report} (hr : (b.review c).1 = .ok r)
    (hr' : (b'.review c).1 = .ok r') : r'.goalMatches = r.goalMatches := by
  obtain ⟨-, rfl⟩ := report_of_review hr
  obtain ⟨-, rfl⟩ := report_of_review hr'
  simp only [Report.goalMatches, Report.goalConclusion, reportOf, h.goal, h.target]
  cases hgoal : b.goal with
  | none => rfl
  | some g =>
    obtain ⟨p, hp, -⟩ := hb.goal g hgoal
    obtain ⟨st, st', hst, hst', hrel⟩ := h.status? hb hc hb' hc' (mem_ids_of_piece? hp)
    rw [Option.map_some, Option.bind_some, Option.bind_some, Statuses.conclusion?,
      Statuses.conclusion?, hst, hst']
    cases hrel <;> rfl

end Current

end Renumbered

/-- At any moments of two histories, boards that differ in the numbers of their pieces only are
reviewed alike: the reviews break off for the same reason, or they find corresponding statuses for
corresponding pieces and the same kinds of violations equally often, and accept both boards or
none. -/
theorem review_renumbered (o o' : Origin) (as as' : List Action) (σ : PieceId → PieceId)
    (h : (Action.runAll o.board as).Renumbered σ (Action.runAll o'.board as'))
    (c : CheckerSettings) :
    let b := Action.runAll o.board as
    let b' := Action.runAll o'.board as'
    (∃ d, (b.review c).1 = .error d ∧ (b'.review c).1 = .error d) ∨
      ∃ r r', (b.review c).1 = .ok r ∧ (b'.review c).1 = .ok r' ∧
        (∀ i ∈ b.ids, ∃ st st', r.statuses.status? i = some st ∧
          r'.statuses.status? (σ i) = some st' ∧ st.Renumbered σ st') ∧
        (r'.violations.map Violation.kind).Perm (r.violations.map Violation.kind) ∧
        r'.isSound = r.isSound ∧ r'.isReady = r.isReady := by
  intro b b'
  obtain ⟨hb, hc⟩ : b.WellFormed ∧ b.Current := invariant_runAll (invariant_origin o) as
  obtain ⟨hb', hc'⟩ : b'.WellFormed ∧ b'.Current := invariant_runAll (invariant_origin o') as'
  rcases h.review (c := c) hb hc hb' hc' with herror | ⟨r, r', hr, hr'⟩
  · exact .inl herror
  have hperm := h.violations_perm hb hc hb' hc' hr hr'
  have hsound : r'.isSound = r.isSound := by
    have hempty := hperm.isEmpty_eq
    rwa [List.isEmpty_map, List.isEmpty_map] at hempty
  refine .inr ⟨r, r', hr, hr', fun i hi => ?_, hperm, hsound, ?_⟩
  · rw [statuses_of_review hr, statuses_of_review hr']
    exact h.status? hb hc hb' hc' hi
  · rw [Report.isReady, Report.isReady, hsound, h.goalMatches hb hc hb' hc' hr hr']

/-- Boards differ in the numbers of their pieces only where their lists of pieces do. -/
theorem renumbered_of_perm (hb' : b'.WellFormed) (htarget : b'.target = b.target)
    (hpremises : b'.premises = b.premises) (hgoal : b'.goal = b.goal.map σ)
    (hinj : Set.InjOn σ {i | i ∈ b.ids})
    (hpieces : (b'.pieces.map fun p => (p.id, p.kind, p.params, p.slots)).Perm
      (b.pieces.map fun p => (σ p.id, p.kind, p.params, p.slots.map (Option.map σ)))) :
    b.Renumbered σ b' := by
  have hthere : ∀ p ∈ b.pieces, ∃ p' ∈ b'.pieces, p.Renumbered σ p' := by
    intro p hp
    obtain ⟨p', hp', heq⟩ := List.mem_map.mp (hpieces.mem_iff.mpr (List.mem_map_of_mem hp))
    simp only [Prod.mk.injEq] at heq
    obtain ⟨hid, hkind, hparams, hslots⟩ := heq
    exact ⟨p', hp', hid, hkind, hparams, hslots⟩
  have hback : ∀ p' ∈ b'.pieces, ∃ p ∈ b.pieces, p'.id = σ p.id := by
    intro p' hp'
    obtain ⟨p, hp, heq⟩ := List.mem_map.mp (hpieces.mem_iff.mp (List.mem_map_of_mem hp'))
    exact ⟨p, hp, (congrArg Prod.fst heq).symm⟩
  refine ⟨htarget, hpremises, hgoal, ⟨fun i hi => ?_, hinj, fun j hj => ?_⟩, fun i p hp => ?_⟩
  · obtain ⟨p, hp, rfl⟩ := List.mem_map.mp hi
    obtain ⟨p', hp', hpp⟩ := hthere p hp
    exact hpp.id ▸ List.mem_map_of_mem hp'
  · obtain ⟨p', hp', rfl⟩ := List.mem_map.mp hj
    obtain ⟨p, hp, hid⟩ := hback p' hp'
    exact ⟨p.id, List.mem_map_of_mem hp, hid.symm⟩
  · obtain ⟨p', hp', hpp⟩ := hthere p (mem_of_piece? hp)
    refine ⟨p', ?_, hpp⟩
    rw [← id_of_piece? hp, ← hpp.id]
    exact piece?_of_mem hb'.nodup hp'

/-- Two assumptions about `x`, their conjunction, a universal over `x` on it, and a goal. -/
def generalized : List Action :=
  let place (kind : String) (column : Int) (fields : List (String × ParamValue)) : Action :=
    .edit (.add (.text kind) (some (.cell (column, 0))) fields)
  [place "assumption" 0 [("formula", .formula (some (.atom "P" ["x"])))],
    place "assumption" 1 [("formula", .formula (some (.atom "Q" ["x"])))],
    place "and_intro" 2 [], place "forall_intro" 3 [("variable", .raw (.text "x"))],
    place "goal" 4 [], .edit (.wire 3 0 1), .edit (.wire 3 1 2), .edit (.wire 4 0 3),
    .edit (.wire 5 0 4)]

/-- The same pieces placed from the goal up. -/
def generalizedUpward : List Action :=
  let place (kind : String) (column : Int) (fields : List (String × ParamValue)) : Action :=
    .edit (.add (.text kind) (some (.cell (column, 0))) fields)
  [place "goal" 4 [], place "forall_intro" 3 [("variable", .raw (.text "x"))],
    place "and_intro" 2 [], place "assumption" 1 [("formula", .formula (some (.atom "Q" ["x"])))],
    place "assumption" 0 [("formula", .formula (some (.atom "P" ["x"])))],
    .edit (.wire 1 0 2), .edit (.wire 2 0 3), .edit (.wire 3 0 5), .edit (.wire 3 1 4)]

def universalGoal : Origin :=
  .fresh (some (.all "x" (.conj (.atom "P" ["x"]) (.atom "Q" ["x"])))) none none Palette.full

theorem renumbered_upward :
    (Action.runAll universalGoal.board generalized).Renumbered (6 - ·)
      (Action.runAll universalGoal.board generalizedUpward) := by
  have hpieces :
      ((Action.runAll universalGoal.board generalizedUpward).pieces.map fun p =>
        (p.id, p.kind, p.params, p.slots)) =
      ((Action.runAll universalGoal.board generalized).pieces.map fun p =>
        (6 - p.id, p.kind, p.params, p.slots.map (Option.map (6 - ·)))).reverse := by
    decide_cbv
  have htarget : (Action.runAll universalGoal.board generalizedUpward).target =
      (Action.runAll universalGoal.board generalized).target := by
    decide_cbv
  have hpremises : (Action.runAll universalGoal.board generalizedUpward).premises =
      (Action.runAll universalGoal.board generalized).premises := by
    decide_cbv
  have hgoal : (Action.runAll universalGoal.board generalizedUpward).goal =
      (Action.runAll universalGoal.board generalized).goal.map (6 - ·) := by
    decide_cbv
  refine renumbered_of_perm ((wellFormed_origin _).runAll _) htarget hpremises hgoal
    (fun i _ j _ hij => ?_) (hpieces ▸ List.reverse_perm _)
  exact sub_right_injective hij

/-- The assumption that clashes first is another one under other numbers. -/
theorem review_renumbered_upward :
    ∃ r r', ((Action.runAll universalGoal.board generalized).review .standard).1 = .ok r ∧
      ((Action.runAll universalGoal.board generalizedUpward).review .standard).1 = .ok r' ∧
      r.statuses.status? 4 =
        some (.violated ⟨some 4, .notArbitrary "x" 1 (.atom "P" ["x"])⟩) ∧
      r'.statuses.status? 2 =
        some (.violated ⟨some 2, .notArbitrary "x" 4 (.atom "Q" ["x"])⟩) ∧
      (r'.violations.map Violation.kind).Perm (r.violations.map Violation.kind) ∧
      r'.isReady = r.isReady := by
  have hr : ((Action.runAll universalGoal.board generalized).review .standard).1.toOption.isSome =
      true := by
    decide_cbv
  have hfour : (Action.runAll universalGoal.board generalized).statuses.status? 4 =
      some (.violated ⟨some 4, .notArbitrary "x" 1 (.atom "P" ["x"])⟩) := by
    decide_cbv
  have htwo : (Action.runAll universalGoal.board generalizedUpward).statuses.status? 2 =
      some (.violated ⟨some 2, .notArbitrary "x" 4 (.atom "Q" ["x"])⟩) := by
    decide_cbv
  rcases review_renumbered universalGoal universalGoal generalized generalizedUpward (6 - ·)
    renumbered_upward .standard with ⟨d, hd, -⟩ | ⟨r, r', hr, hr', -, hkinds, -, hready⟩
  · rw [hd] at hr
    exact absurd hr Bool.false_ne_true
  · refine ⟨r, r', hr, hr', ?_, ?_, hkinds, hready⟩
    · rw [statuses_of_review hr, hfour]
    · rw [statuses_of_review hr', htwo]

end Board

end DeductionBoard
