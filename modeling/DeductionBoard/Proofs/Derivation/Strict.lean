import DeductionBoard.Proofs.Board.CheckingOrder
import DeductionBoard.Proofs.Data.Steps
import DeductionBoard.Proofs.Derivation.Policy
import DeductionBoard.Proofs.Derivation.Table
import DeductionBoard.Proofs.Formula.Name

/-! The rule check with nothing taken for granted. The check passes over what a board should never
show: a number without a piece, an assumption without a formula, a name that no formula may have, a
goal without a status. Here the same check breaks off there: every piece is looked up under its
number, every formula is put together through the judgement of its names, and what is not there is
reported as a snag. Main result: where the wires start at pieces of the board, the names are texts, and
what is derived is well named and rests on assumptions of the board, the strict check runs into no
snag and reports what the check reports. -/

namespace DeductionBoard

open DeductionBoard.Derivation

/-- What a strict check can run into. -/
inductive Snag where
  /-- A piece that cannot be looked up. -/
  | piece (e : EditError)
  /-- A piece that the check has given no status. -/
  | status (i : PieceId)
  /-- A formula that is not there. -/
  | formula
  | name (f : NameFault)
  /-- A name that is no text. -/
  | illTyped
  /-- A rule with another number of premises. -/
  | premises (n : Nat)
  deriving DecidableEq

/-! ### Formulas -/

namespace Formula

/-- Substitution that puts every formula it changes together anew, so that names are judged again. -/
def rebuild (t r : String) : Formula → Except NameFault (Option Formula)
  | .atom n args =>
    if t ∈ args then (mkAtom n (args.map fun a => if a = t then r else a)).map some
    else .ok (some (.atom n args))
  | .neg g => do
    let g ← g.rebuild t r
    .ok (g.map .neg)
  | .binary op l r' => do
    let l ← l.rebuild t r
    let r' ← r'.rebuild t r
    match l, r' with
    | some l, some r' => .ok (some (.binary op l r'))
    | _, _ => .ok none
  | .quantified q v g =>
    if t = v ∨ t ∉ g.freeVars then .ok (some (.quantified q v g))
    else if r = v then .ok none
    else do
      match ← g.rebuild t r with
      | none => .ok none
      | some g => (mkQuantified q v g).map some

variable {f : Formula} {n t r v : String} {args : List String}

theorem checkNames_of_usable {role : NameRole} (h : ∀ a ∈ args, isUsableName a = true) :
    checkNames role args = .ok () := by
  induction args with
  | nil => rfl
  | cons a args ih =>
    rw [checkNames, checkName_eq_ok_iff.mpr (h a List.mem_cons_self)]
    exact ih fun b hb => h b (List.mem_cons_of_mem a hb)

theorem WellNamed.mkAtom (h : (atom n args).WellNamed) : mkAtom n args = .ok (.atom n args) := by
  rw [Formula.mkAtom, checkName_eq_ok_iff.mpr h.1, checkNames_of_usable h.2]

theorem mkQuantified_of_usable (q : Quantifier) (hv : isUsableName v = true) (g : Formula) :
    mkQuantified q v g = .ok (.quantified q v g) := by
  rw [mkQuantified, checkName_eq_ok_iff.mpr hv]

/-- Where all names can be used, judging them again changes nothing. -/
theorem WellNamed.rebuild (h : f.WellNamed) (hr : isUsableName r = true) :
    f.rebuild t r = .ok (f.substitute t r) := by
  induction f with
  | atom n args =>
    have hwell : Formula.substitute t r (.atom n args) =
        some (.atom n (args.map fun a => if a = t then r else a)) := rfl
    rw [Formula.rebuild, hwell]
    split
    · rw [(WellNamed.substitute h hr hwell).mkAtom]
      rfl
    · next hnot =>
      have hsame : (args.map fun a => if a = t then r else a) = args := by
        refine (List.map_congr_left fun a ha => ?_).trans (List.map_id args)
        exact if_neg fun (hat : a = t) => hnot (hat ▸ ha)
      rw [hsame]
  | neg g ih =>
    rw [Formula.rebuild, ih h, ok_bind]
    rfl
  | binary op l r' ihl ihr =>
    rw [Formula.rebuild, ihl h.1, ihr h.2, ok_bind, ok_bind, Formula.substitute]
    cases l.substitute t r <;> cases r'.substitute t r <;> rfl
  | quantified q v g ih =>
    rw [Formula.rebuild, Formula.substitute]
    split
    · rfl
    split
    · rfl
    rw [ih h.2, ok_bind]
    cases g.substitute t r with
    | none => rfl
    | some g' =>
      simp only [mkQuantified_of_usable q h.1]
      rfl

end Formula

/-! ### Rules -/

/-- The piece of a number that has to be on the board. -/
def Board.fetch (b : Board) (i : PieceId) : Except Snag Piece := (b.require i).mapError .piece

namespace Derivation.Context

/-- The assumptions that stay open, each looked up on the board. -/
def strictDischarge (c : Context) (hypothesis : Formula) :
    List PieceId → Except Snag (List PieceId)
  | [] => .ok []
  | a :: r => do
    let p ← c.board.fetch a
    let rest ← c.strictDischarge hypothesis r
    .ok (if p.params.formula ≠ some hypothesis then a :: rest else rest)

/-- The first open assumption with a watched name; every one has to assume a formula. -/
def strictClash (c : Context) (watched : List String) :
    List PieceId → Except Snag (Option (PieceId × Formula × String))
  | [] => .ok none
  | a :: r => do
    let p ← c.board.fetch a
    match p.params.formula with
    | none => .error .formula
    | some f =>
      match (Ascending.ofList watched).find? fun x => x ∈ f.freeVars with
      | some x => .ok (some (a, f, x))
      | none => c.strictClash watched r

def strictImplication (c : Context) (p : Conclusion) : Except Snag Status :=
  match c.piece.params.hypothesis with
  | none => .ok (c.missing "hypothesis")
  | some h => do
    let rest ← c.strictDischarge h p.assumptions
    .ok (.derived (.imp h p.formula) rest)

def strictNegation (c : Context) (p q : Conclusion) : Except Snag Status :=
  match c.piece.params.hypothesis with
  | none => .ok (c.missing "hypothesis")
  | some h =>
    if q.formula = .neg p.formula then do
      let rest ← c.strictDischarge h (Ascending.union p.assumptions q.assumptions)
      .ok (.derived (.neg h) rest)
    else .ok (c.flawed (.notNegation p.formula q.formula))

def strictQuantification (c : Context) (q : Quantifier) (v t : String) (p : Conclusion) :
    Except Snag Status :=
  if t ≠ v ∧ v ∈ p.formula.freeVars then .ok (c.flawed (.conflated v (.text t) p.formula))
  else do
    match ← (p.formula.rebuild t v).mapError .name with
    | none => .ok (c.flawed (.captured v t p.formula))
    | some body =>
      let watched := match q with
        | .all => [t, v]
        | .exist => [v]
      match ← c.strictClash watched p.assumptions with
      | some (a, f, x) => .ok (c.flawed (.notArbitrary x a f))
      | none =>
        let f ← (Formula.mkQuantified q v body).mapError .name
        .ok (.derived f p.assumptions)

def strictQuantifier (c : Context) (q : Quantifier) (p : Conclusion) : Except Snag Status :=
  let v := c.piece.params.variableName
  if ¬ v.holds then .ok (c.missing "variable")
  else match v, c.piece.params.abstracted with
    | .text v, .text t =>
      if isUsableName v = false then .ok (c.flawed (.unusableName (.text v)))
      else if isUsableName t = false then .ok (c.flawed (.unusableName (.text t)))
      else c.strictQuantification q v t p
    | _, _ => .error .illTyped

/-- The status of a piece whose premises derive `ps`; every rule has its own number of premises. -/
def strictApply (c : Context) (ps : List Conclusion) : Except Snag Status :=
  match c.piece.kind, ps with
  | .assumption, _ => .ok c.assumption
  | .goal, [p] => .ok p.status
  | .andIntro, [p, q] => .ok (conjunction p q)
  | .orIntro, [p] => .ok (c.disjunction p)
  | .impliesIntro, [p] => c.strictImplication p
  | .notIntro, [p, q] => c.strictNegation p q
  | .forallIntro, [p] => c.strictQuantifier .all p
  | .existsIntro, [p] => c.strictQuantifier .exist p
  | _, ps => .error (.premises ps.length)

end Derivation.Context

namespace Board

variable {b : Board} {i : PieceId} {p : Piece}

theorem fetch_of_piece? (h : b.piece? i = some p) : b.fetch i = .ok p := by
  rw [fetch, require, h]
  rfl

/-- Every number is that of a piece with a formula to assume. -/
def Assumes (b : Board) (open_ : List PieceId) : Prop :=
  ∀ a ∈ open_, ∃ p f, b.piece? a = some p ∧ p.params.formula = some f

/-- A conclusion that a rule may be applied to. -/
structure Upholds (b : Board) (d : Conclusion) : Prop where
  wellNamed : d.formula.WellNamed
  assumes : b.Assumes d.assumptions

end Board

namespace Derivation.Context

variable {c : Context} {hypothesis : Formula} {watched : List String} {open_ : List PieceId}
  {p q : Conclusion} {ps : List Conclusion}

theorem strictDischarge_eq (h : c.board.Assumes open_) :
    c.strictDischarge hypothesis open_ = .ok (c.discharge hypothesis open_) := by
  induction open_ with
  | nil => rfl
  | cons a r ih =>
    obtain ⟨p, f, hp, hf⟩ := h a List.mem_cons_self
    have hassumed : c.board.assumed? a = p.params.formula := by rw [Board.assumed?, hp]; rfl
    have hrest := ih fun a' ha' => h a' (List.mem_cons_of_mem a ha')
    rw [strictDischarge, Board.fetch_of_piece? hp, ok_bind, hrest, ok_bind, discharge, discharge,
      List.filter_cons, hassumed]
    simp

theorem strictClash_eq (h : c.board.Assumes open_) :
    c.strictClash watched open_ = .ok (c.clash? watched open_) := by
  induction open_ with
  | nil => rfl
  | cons a r ih =>
    obtain ⟨p, f, hp, hf⟩ := h a List.mem_cons_self
    have hassumed : c.board.assumed? a = some f := by rw [Board.assumed?, hp]; exact hf
    rw [strictClash, Board.fetch_of_piece? hp, ok_bind, hf, clash?, hassumed]
    simp only
    cases (Ascending.ofList watched).find? fun x => x ∈ f.freeVars with
    | some x => rfl
    | none => exact ih fun a' ha' => h a' (List.mem_cons_of_mem a ha')

theorem strictImplication_eq (h : c.board.Upholds p) :
    c.strictImplication p = .ok (c.implication p) := by
  unfold strictImplication implication
  cases c.piece.params.hypothesis with
  | none => rfl
  | some f => simp only [strictDischarge_eq h.assumes, ok_bind]

theorem strictNegation_eq (h : c.board.Upholds p) (h' : c.board.Upholds q) :
    c.strictNegation p q = .ok (c.negation p q) := by
  have hunion : c.board.Assumes (Ascending.union p.assumptions q.assumptions) := fun a ha =>
    (Ascending.mem_union.mp ha).elim (h.assumes a) (h'.assumes a)
  unfold strictNegation negation
  cases c.piece.params.hypothesis with
  | none => rfl
  | some f =>
    simp only [strictDischarge_eq hunion, ok_bind]
    split <;> rfl

theorem strictQuantification_eq {q : Quantifier} {v t : String} (h : c.board.Upholds p)
    (hv : isUsableName v = true) :
    c.strictQuantification q v t p = .ok (c.quantification q v t p) := by
  unfold strictQuantification quantification
  split
  · rfl
  rw [h.wellNamed.rebuild hv, Except.mapError, ok_bind]
  cases p.formula.substitute t v with
  | none => rfl
  | some body =>
    simp only [strictClash_eq h.assumes, ok_bind, Formula.mkQuantified_of_usable q hv,
      Except.mapError]
    generalize c.clash? _ p.assumptions = clash
    cases clash <;> rfl

/-- With texts for names, a quantifier is judged by these texts. -/
theorem strictQuantifier_eq {q : Quantifier} (h : c.board.Upholds p)
    (hnames : c.piece.params.TextNames) : c.strictQuantifier q p = .ok (c.quantifier q p) := by
  rcases hnames.1 with hv | ⟨v, hv⟩
  · simp [strictQuantifier, quantifier, hv, Value.holds]
  · obtain ⟨t, ht⟩ := hnames.abstracted hv
    by_cases hholds : (Value.text v).holds = true
    · simp only [strictQuantifier, quantifier, hv, ht, hholds, isNameable?, not_true_eq_false,
        if_false]
      cases huv : isUsableName v with
      | false => simp
      | true =>
        cases hut : isUsableName t with
        | false => simp
        | true => simpa using strictQuantification_eq h huv
    · simp [strictQuantifier, quantifier, hv, hholds]

/-- A rule with all the premises that it asks for. -/
inductive Supplied : RuleKind → List Conclusion → Prop
  | assumption : Supplied .assumption []
  | goal (p : Conclusion) : Supplied .goal [p]
  | conjunction (p q : Conclusion) : Supplied .andIntro [p, q]
  | disjunction (p : Conclusion) : Supplied .orIntro [p]
  | implication (p : Conclusion) : Supplied .impliesIntro [p]
  | negation (p q : Conclusion) : Supplied .notIntro [p, q]
  | universal (p : Conclusion) : Supplied .forallIntro [p]
  | existential (p : Conclusion) : Supplied .existsIntro [p]

theorem supplied_of_length {k : RuleKind} (h : ps.length = k.arity) : Supplied k ps := by
  match k, ps, h with
  | .assumption, [], _ => exact .assumption
  | .goal, [p], _ => exact .goal p
  | .andIntro, [p, q], _ => exact .conjunction p q
  | .orIntro, [p], _ => exact .disjunction p
  | .impliesIntro, [p], _ => exact .implication p
  | .notIntro, [p, q], _ => exact .negation p q
  | .forallIntro, [p], _ => exact .universal p
  | .existsIntro, [p], _ => exact .existential p

/-- A rule with all its premises comes to what the rule says. -/
theorem strictApply_eq (hps : Supplied c.piece.kind ps) (h : ∀ p ∈ ps, c.board.Upholds p)
    (hnames : c.piece.params.TextNames) : c.strictApply ps = .ok (c.apply ps) := by
  unfold strictApply apply
  generalize c.piece.kind = k at hps
  cases hps with
  | assumption => rfl
  | goal p => rfl
  | conjunction p q => rfl
  | disjunction p => rfl
  | implication p => exact strictImplication_eq (h p List.mem_cons_self)
  | negation p q =>
    exact strictNegation_eq (h p List.mem_cons_self)
      (h q (List.mem_cons_of_mem p List.mem_cons_self))
  | universal p => exact strictQuantifier_eq (h p List.mem_cons_self) hnames
  | existential p => exact strictQuantifier_eq (h p List.mem_cons_self) hnames

end Derivation.Context

/-! ### Pieces and boards -/

namespace Derivation

/-- The status of a piece, given those of its producers. -/
def strictStatusOf (b : Board) (p : Piece) (s : Statuses) : Except Snag Status :=
  if ¬ p.isComplete then .ok (.incomplete p.missing [])
  else
    let blocked := p.premises.filter fun i => (s.conclusion? i).isNone
    if ¬ blocked.isEmpty then .ok (.incomplete [] blocked)
    else (Context.mk b p).strictApply (p.premises.filterMap s.conclusion?)

theorem isComplete_iff {p : Piece} : p.isComplete = true ↔ none ∉ p.slots := by
  have hmissing : p.isComplete = true ↔ ∀ s ∈ p.slots.zipIdx, s.1 ≠ none := by
    simp [Piece.isComplete, Piece.missing, List.filter_eq_nil_iff]
  rw [hmissing]
  constructor
  · intro h hnone
    obtain ⟨n, hn, hs⟩ := List.mem_iff_getElem.mp hnone
    exact h (p.slots[n], n) (List.mem_zipIdx_iff_getElem?.mpr (List.getElem?_eq_getElem hn)) hs
  · rintro h ⟨s, n⟩ hs rfl
    exact h (List.mem_of_getElem? (List.mem_zipIdx_iff_getElem?.mp hs))

/-- A piece without empty slots has a premise for each slot. -/
theorem slots_eq_of_isComplete {p : Piece} (h : p.isComplete = true) :
    p.slots = p.premises.map some := by
  have hsome : ∀ s ∈ p.slots, s.map some = some s := by
    intro s hs
    cases s with
    | none => exact absurd hs (isComplete_iff.mp h)
    | some i => rfl
  rw [Piece.premises, List.map_filterMap, List.filterMap_congr hsome, List.filterMap_some]

/-- A piece with all its wires, whose premises all derive something, has a conclusion for each slot. -/
theorem length_conclusions {p : Piece} {s : Statuses} (hcomplete : p.isComplete = true)
    (h : ∀ i ∈ p.premises, (s.conclusion? i).isSome) :
    (p.premises.filterMap s.conclusion?).length = p.slots.length := by
  rw [List.filterMap_length_eq_length.mpr h, Piece.premises, List.filterMap_length_eq_length]
  intro slot hslot
  cases slot with
  | none => exact absurd hslot (isComplete_iff.mp hcomplete)
  | some i => rfl

theorem strictStatusOf_eq {b : Board} {p : Piece} {s : Statuses}
    (harity : p.slots.length = p.kind.arity) (hnames : p.params.TextNames)
    (h : ∀ i ∈ p.premises, ∀ d, s.conclusion? i = some d → b.Upholds d) :
    strictStatusOf b p s = .ok (statusOf b p s) := by
  unfold strictStatusOf statusOf
  split
  · rfl
  next hcomplete =>
  simp only
  split
  · rfl
  next hblocked =>
  have hconclusions : ∀ i ∈ p.premises, (s.conclusion? i).isSome := by
    simpa [Option.isSome_iff_ne_none] using hblocked
  refine Context.strictApply_eq (Context.supplied_of_length ?_) (fun d hd => ?_) hnames
  · exact (length_conclusions (not_not.mp hcomplete) hconclusions).trans harity
  · obtain ⟨i, hi, hd⟩ := List.mem_filterMap.mp hd
    exact h i hi d hd

end Derivation

namespace Board

/-- Adds the status of a piece that has to be on the board. -/
def strictVisit (b : Board) (s : Statuses) (i : PieceId) : Except Snag Statuses := do
  let p ← b.fetch i
  match p.cache with
  | some st => .ok (s ++ [(i, st)])
  | none =>
    let st ← strictStatusOf b p s
    .ok (s ++ [(i, st)])

/-- The order of the pieces, whose wires have to start at pieces of the board. -/
def strictOrder (b : Board) : Except Snag (List PieceId) := do
  let _ ← (b.pieces.flatMap Piece.premises).mapM b.fetch
  .ok b.order

def strictStatuses (b : Board) : Except Snag Statuses := do
  let order ← b.strictOrder
  order.foldlM b.strictVisit []

/-- What a piece depends on; whatever is met on the way has to be on the board. -/
def strictDependencies (b : Board) (i : PieceId) : Except Snag (List PieceId) := do
  let p ← b.fetch i
  let _ ← (p.premises ++ (b.dependencies i).flatMap b.producers).mapM b.fetch
  .ok (b.dependencies i)

/-- The formula to derive. -/
def strictTarget (b : Board) : Except Snag Formula :=
  match b.target with
  | none => .error .formula
  | some t => .ok t

/-- The assumptions that no premise allows; each has to assume a formula, and no premise may be missing
once they are named. -/
def strictUndeclared (b : Board) : List PieceId → Except Snag (List Violation)
  | [] => .ok []
  | a :: r => do
    let p ← b.fetch a
    let rest ← b.strictUndeclared r
    match p.params.formula with
    | none => .error .formula
    | some f =>
      if f ∈ b.declared then .ok rest
      else if (b.premises.getD []).any Option.isNone then .error .formula
      else .ok (⟨some a, .undeclared f b.declared⟩ :: rest)

def strictGoalViolations (b : Board) (c : CheckerSettings) (s : Statuses) (found : List Violation) :
    Except Snag (List Violation) :=
  match b.goal with
  | none => .ok [⟨none, .noGoal⟩]
  | some g =>
    match s.status? g with
    | none => .error (.status g)
    | some (.incomplete missing _) => do
      let region ← b.strictDependencies g
      if found.any fun v => v.piece.any fun i => i ∈ region then .ok []
      else
        let t ← b.strictTarget
        .ok [⟨some g, .goalOpen missing.isEmpty t⟩]
    | some (.derived f open_) => do
      let mismatch ← if b.target = some f then .ok [] else do
        let t ← b.strictTarget
        .ok [⟨some g, .goalMismatch t f⟩]
      let rest ← if b.judgesPremises c then b.strictUndeclared open_ else .ok []
      .ok (mismatch ++ rest)
    | some (.violated _) => .ok []

/-- The check of a board that breaks off at the first snag. -/
def strictCheck (b : Board) (c : CheckerSettings) : Except Snag Report := do
  let s ← b.strictStatuses
  let found := s.filterMap fun e => e.2.violation?
  let added ← b.strictGoalViolations c s found
  .ok { b.reportOf c s with violations := sortViolations (found ++ added) }

/-- A goal that is wired from nowhere, which the check would pass over. -/
example :
    let start := empty (some (.atom "P" [])) none none Palette.full
    { start with
      goal := some 1
      pieces := [⟨1, .goal, .cell (0, 0), .empty, [some 9], none⟩] }.strictCheck .standard =
      .error (.piece (.unknownPiece 9)) := by
  decide_cbv

variable {b : Board} {i : PieceId} {open_ : List PieceId} {found : List Violation}

theorem exists_fetch {is : List PieceId} (h : ∀ i ∈ is, i ∈ b.ids) :
    ∃ ps, is.mapM b.fetch = .ok ps := by
  induction is with
  | nil => exact ⟨[], rfl⟩
  | cons i is ih =>
    obtain ⟨p, hp⟩ := exists_piece? (h i List.mem_cons_self)
    obtain ⟨ps, hps⟩ := ih fun j hj => h j (List.mem_cons_of_mem i hj)
    exact ⟨p :: ps, by rw [List.mapM_cons, fetch_of_piece? hp, ok_bind, hps]; rfl⟩

theorem strictOrder_eq (h : b.WellFormed) : b.strictOrder = .ok b.order := by
  have hwired : ∀ i ∈ b.pieces.flatMap Piece.premises, i ∈ b.ids := by
    intro i hi
    obtain ⟨p, hp, hi⟩ := List.mem_flatMap.mp hi
    exact h.wired i p.id (feeds_of_mem_premises (piece?_of_mem h.nodup hp) hi)
  obtain ⟨ps, hps⟩ := exists_fetch hwired
  rw [strictOrder, hps]
  rfl

/-- No visit runs into a snag, given that what the whole table derives is upheld. -/
theorem strictStatuses_eq (h : b.WellFormed) (hnames : ∀ p ∈ b.pieces, p.params.TextNames)
    (hs : ∀ i d, b.statuses.conclusion? i = some d → b.Upholds d) :
    b.strictStatuses = .ok b.statuses := by
  rw [strictStatuses, strictOrder_eq h, ok_bind]
  refine foldlM_eq_ok fun l i r horder => ?_
  have hids : ∀ j ∈ l ++ i :: r, j ∈ b.ids := fun j hj => (mem_order h).mp (horder ▸ hj)
  obtain ⟨p, hp⟩ := exists_piece? (hids i (List.mem_append_right l List.mem_cons_self))
  -- the entries that are there already are entries of the whole table
  obtain ⟨t, ht, -⟩ := foldl_visit
    (fun j hj => hids j (List.mem_append_right l hj)) (l.foldl b.visit [])
  have htable : b.statuses = l.foldl b.visit [] ++ t := by
    rw [statuses, horder, List.foldl_append, ht]
  have hupheld : ∀ j ∈ p.premises, ∀ d, (l.foldl b.visit []).conclusion? j = some d →
      b.Upholds d := by
    intro j _ d hd
    refine hs j d (Statuses.conclusion?_eq_some_iff.mpr ?_)
    rw [htable, Statuses.status?_append, Statuses.conclusion?_eq_some_iff.mp hd, Option.some_or]
  rw [strictVisit, fetch_of_piece? hp, ok_bind, visit_of_piece? hp]
  cases p.cache with
  | some st => rfl
  | none =>
    simp only [strictStatusOf_eq (h.arity i p hp) (hnames p (mem_of_piece? hp)) hupheld, ok_bind]
    rfl

theorem strictDependencies_eq (h : b.WellFormed) (hi : i ∈ b.ids) :
    b.strictDependencies i = .ok (b.dependencies i) := by
  obtain ⟨p, hp⟩ := exists_piece? hi
  have hwired : ∀ j ∈ p.premises ++ (b.dependencies i).flatMap b.producers, j ∈ b.ids := by
    intro j hj
    rcases List.mem_append.mp hj with hj | hj
    · exact h.wired j i (feeds_of_mem_premises hp hj)
    · obtain ⟨k, -, hjk⟩ := List.mem_flatMap.mp hj
      exact h.wired j k hjk
  obtain ⟨ps, hps⟩ := exists_fetch hwired
  rw [strictDependencies, fetch_of_piece? hp, ok_bind, hps]
  rfl

theorem Typed.strictUndeclared_eq (ht : b.Typed) (h : b.Assumes open_) :
    b.strictUndeclared open_ = .ok (b.undeclared open_) := by
  induction open_ with
  | nil => rfl
  | cons a r ih =>
    obtain ⟨p, f, hp, hf⟩ := h a List.mem_cons_self
    have hassumed : b.assumed? a = some f := by rw [assumed?, hp]; exact hf
    have hrest := ih fun a' ha' => h a' (List.mem_cons_of_mem a ha')
    rw [strictUndeclared, fetch_of_piece? hp, ok_bind, hrest, ok_bind, hf, ht.any_isNone, undeclared,
      undeclared, List.filterMap_cons, hassumed]
    by_cases hdeclared : f ∈ b.declared <;> simp [hdeclared]

theorem Typed.strictGoalViolations_eq (ht : b.Typed) (h : b.WellFormed) {c : CheckerSettings}
    (hs : ∀ i d, b.statuses.conclusion? i = some d → b.Upholds d) :
    b.strictGoalViolations c b.statuses found = .ok (b.goalViolations c b.statuses found) := by
  obtain ⟨t, htarget⟩ := Option.isSome_iff_exists.mp ht.target
  have hstrict : b.strictTarget = .ok t := by rw [strictTarget, htarget]
  unfold strictGoalViolations goalViolations
  cases hg : b.goal with
  | none => rfl
  | some g =>
    obtain ⟨p, hp, -⟩ := h.goal g hg
    have hstatus := status?_statuses h hp
    simp only
    generalize p.cache.getD (statusOf b p b.statuses) = st at hstatus
    rw [hstatus]
    cases st with
    | violated v => rfl
    | incomplete missing blocked =>
      simp only [strictDependencies_eq h (mem_ids_of_piece? hp), ok_bind, isExplained, hstrict,
        goalOpen, htarget, Option.toList_some, List.map_cons, List.map_nil]
      split <;> rfl
    | derived f open_ =>
      have hupheld : b.Upholds ⟨f, open_⟩ :=
        hs g _ (Statuses.conclusion?_eq_some_iff.mpr hstatus)
      simp only [ht.strictUndeclared_eq hupheld.assumes, hstrict, goalMismatch, htarget, ok_bind,
        Option.toList_some, List.map_cons, List.map_nil]
      split <;> split <;> rfl

/-- On a board whose values are of the right kind and whose conclusions are upheld, the strict
check runs into no snag and reports what the check reports. -/
theorem Typed.strictCheck_eq (ht : b.Typed) (h : b.WellFormed)
    (hs : ∀ i d, b.statuses.conclusion? i = some d → b.Upholds d) (c : CheckerSettings) :
    b.strictCheck c = .ok (b.check c).1 := by
  rw [strictCheck, strictStatuses_eq h ht.names hs, ok_bind]
  simp only [ht.strictGoalViolations_eq h hs, ok_bind]
  rfl

end Board

end DeductionBoard
