import DeductionBoard.Proofs.Level.RoundTrip
import DeductionBoard.Proofs.Search.Example

/-! What becomes of a malformed level. Most of what can be wrong with a stored level is a fault that was
foreseen and has a wording. A few shapes are not looked at: a missing target or premise, premises
without elements, a grid or parameters without fields, a position with too few items, an infinity for a
whole number, and a variable or a term that is no text. Main result: a level without these shapes is
reported or read as a puzzle that can be stored and reviewed, and no other level is read as one. -/

namespace DeductionBoard

open DeductionBoard.Derivation

variable {v : Value} {w : Option Value} {fs : List (String × Value)} {d : Draft}

/-! ### Faults -/

/-- The fault has a wording. -/
def LevelFault.IsForeseen (f : LevelFault) : Prop := ∃ m, f.message? = some m

/-- A malformation is reported under the name of the level. -/
def Trouble.IsForeseen : Trouble → Prop
  | .malformation _ => True
  | .fault f => f.IsForeseen

theorem failsWith_readFormula (field : String) (v : Value) :
    FailsWith LevelFault.IsForeseen (readFormula field v) := by
  rw [readFormula.eq_def]
  split
  · exact failsWith_ok none
  · split
    · exact failsWith_ok _
    · exact failsWith_error ⟨_, rfl⟩
  · exact failsWith_error ⟨_, rfl⟩

theorem failsWith_elementsOf (v : Value) : FailsWith Trouble.IsForeseen (elementsOf v) := by
  rw [elementsOf]
  split
  · exact failsWith_ok _
  · exact failsWith_error trivial

namespace Params

theorem failsWith_unknownNames (vs : List Value) : FailsWith Trouble.IsForeseen (unknownNames vs) := by
  rw [unknownNames]
  split
  · exact failsWith_error trivial
  rw [ordered.eq_def]
  split
  · exact failsWith_ok _
  · exact failsWith_ok _
  · split
    · exact failsWith_ok _
    · exact failsWith_error trivial

theorem failsWith_readFields (fs : List (String × Value)) :
    FailsWith LevelFault.IsForeseen (readFields fs) := by
  rw [readFields]
  split
  · exact failsWith_error ⟨_, rfl⟩
  split
  · next h => exact failsWith_error (failsWith_readFormula _ _ _ h)
  · next h _ => exact failsWith_error (failsWith_readFormula _ _ _ h)
  · next h _ _ => exact failsWith_error (failsWith_readFormula _ _ _ h)
  · exact failsWith_ok _

/-- Parameters that are looked at: names of parameters stand in an object only, and there the variable
and the term are texts or missing. -/
structure Judgeable (v : Value) : Prop where
  fields : ∀ xs, v.elements? = some xs → unknownNames xs = .ok [] → ∃ gs, v = .object gs
  variableName : ∀ gs, v = .object gs → (Value.field? "variable" gs).getD .null = .null ∨
    ∃ s, (Value.field? "variable" gs).getD .null = .text s
  term : ∀ gs, v = .object gs → (Value.field? "term" gs).getD .null = .null ∨
    ∃ s, (Value.field? "term" gs).getD .null = .text s

theorem Judgeable.failsWith_read (h : Judgeable v) : FailsWith Trouble.IsForeseen (Params.read v) := by
  refine (failsWith_elementsOf v).bind fun xs hxs => (failsWith_unknownNames xs).bind fun ns hns => ?_
  cases ns with
  | cons n ns => exact failsWith_error ⟨_, rfl⟩
  | nil =>
    rw [elementsOf] at hxs
    split at hxs
    · next ys helements =>
      obtain rfl := Except.ok.inj hxs
      obtain ⟨gs, rfl⟩ := h.fields ys helements hns
      dsimp only
      split
      · exact failsWith_ok _
      · next he => exact failsWith_error (failsWith_readFields gs _ he)
    · exact nomatch hxs

/-- Of an object, parameters are read with the variable and the term that stand there. -/
theorem names_of_readFields {p : Params} (h : readFields fs = .ok p) :
    p.variableName = (Value.field? "variable" fs).getD .null ∧
      p.term = (Value.field? "term" fs).getD .null := by
  rw [readFields] at h
  split at h
  · cases h
  split at h
  · cases h
  · cases h
  · cases h
  · obtain rfl := Except.ok.inj h
    exact ⟨rfl, rfl⟩

theorem judgeable_iff_of_read {p : Params} (h : Params.read v = .ok p) : Judgeable v ↔ p.TextNames := by
  obtain ⟨gs, rfl, -, hfields⟩ := read_eq_ok_iff.mp h
  obtain ⟨hvariable, hterm⟩ := names_of_readFields hfields
  rw [TextNames, hvariable, hterm]
  refine ⟨fun hj => ⟨hj.variableName gs rfl, hj.term gs rfl⟩, fun hnames => ?_⟩
  refine ⟨fun xs _ _ => ⟨gs, rfl⟩, ?_, ?_⟩
  · rintro _ ⟨⟩
    exact hnames.1
  · rintro _ ⟨⟩
    exact hnames.2

end Params

namespace Level

/-! ### Shapes that are not looked at -/

/-- The value is no infinity. -/
def IsFinite (v : Value) : Prop := v.toInteger ≠ .error .infinite

/-- A position that is looked at: it has no items, or keys, or at least two items of which the first two
are not infinite. -/
def PositionJudgeable (v : Value) : Prop :=
  ∀ xs, v.elements? = some xs → (∃ gs, v = .object gs) ∨
    ∃ x y rest, xs = x :: y :: rest ∧ IsFinite x ∧ IsFinite y

/-- A level without the shapes that are not looked at. -/
structure Judgeable (fs : List (String × Value)) : Prop where
  target : Value.field? "target" fs ≠ some .null
  premises : ∀ v, Value.field? "premises" fs = some v → ∃ xs, v.elements? = some xs ∧ Value.null ∉ xs
  grid : ∀ v, Value.field? "grid" fs = some v → ∃ gs, v = .object gs ∧
    IsFinite ((Value.field? "width" gs).getD (.int Frame.standardSize)) ∧
    IsFinite ((Value.field? "height" gs).getD (.int Frame.standardSize))
  positions : ∀ v xs gs position, Value.field? "pieces" fs = some v → v.elements? = some xs →
    .object gs ∈ xs → Value.field? "position" gs = some position → PositionJudgeable position
  params : ∀ v xs gs, Value.field? "pieces" fs = some v → v.elements? = some xs → .object gs ∈ xs →
    Params.Judgeable ((Value.field? "params" gs).getD (.object []))

theorem failsWith_rule (v : Value) : FailsWith Trouble.IsForeseen (rule v) := by
  rw [rule]
  split
  · exact failsWith_ok _
  · exact failsWith_error trivial

theorem failsWith_required (key : String) (v : Value) :
    FailsWith Trouble.IsForeseen (required key v) := by
  rw [required.eq_def]
  split
  · split
    · exact failsWith_ok _
    · exact failsWith_error trivial
  · exact failsWith_error trivial
  · exact failsWith_error trivial
  · exact failsWith_error trivial

theorem isFinite_of_integer {n : Int} (h : integer v = .ok n) : IsFinite v := by
  intro hinfinite
  rw [integer, hinfinite] at h
  exact nomatch h

theorem IsFinite.failsWith_integer (h : IsFinite v) : FailsWith Trouble.IsForeseen (integer v) := by
  rw [integer]
  split
  · exact failsWith_ok _
  · exact failsWith_error trivial
  · next hinfinite => exact absurd hinfinite h
  · exact failsWith_error trivial
  · exact failsWith_error trivial

theorem failsWith_readPalette (w : Option Value) : FailsWith Trouble.IsForeseen (readPalette w) := by
  rw [readPalette.eq_def]
  split
  · exact failsWith_ok _
  · refine (failsWith_elementsOf _).bind fun xs _ => ?_
    exact (FailsWith.mapM fun x _ => failsWith_rule x).bind fun ks _ => failsWith_ok _

theorem Judgeable.failsWith_readGrid (h : Judgeable fs) :
    FailsWith Trouble.IsForeseen (readGrid (Value.field? "grid" fs)) := by
  cases hgrid : Value.field? "grid" fs with
  | none => exact failsWith_ok _
  | some v =>
    obtain ⟨gs, rfl, hwidth, hheight⟩ := h.grid v hgrid
    refine hwidth.failsWith_integer.bind fun width _ => hheight.failsWith_integer.bind fun height _ => ?_
    split
    · exact failsWith_ok _
    · exact failsWith_error trivial

/-- Both coordinates are looked for among the items. -/
theorem PositionJudgeable.failsWith_coordinate (h : PositionJudgeable v) {i : Nat} (hi : i < 2) :
    FailsWith Trouble.IsForeseen (coordinate v i) := by
  rw [coordinate.eq_def]
  split
  · exact failsWith_error trivial
  next hobject =>
  split
  · exact failsWith_error trivial
  next xs hxs =>
  obtain ⟨gs, rfl⟩ | ⟨x, y, rest, rfl, hx, hy⟩ := h xs hxs
  · exact absurd rfl (hobject gs)
  · match i with
    | 0 => exact hx.failsWith_integer
    | 1 => exact hy.failsWith_integer

theorem failsWith_readPlacement
    (hposition : ∀ gs position, v = .object gs → Value.field? "position" gs = some position →
      PositionJudgeable position)
    (hparams : ∀ gs, v = .object gs → Params.Judgeable ((Value.field? "params" gs).getD (.object []))) :
    FailsWith Trouble.IsForeseen (readPlacement v) := by
  have hcoordinate : ∀ {position i}, required "position" v = .ok position → i < 2 →
      FailsWith Trouble.IsForeseen (coordinate position i) := by
    intro position i hrequired hi
    obtain ⟨gs, hgs, hfield⟩ := required_eq_ok_iff.mp hrequired
    exact (hposition gs position hgs hfield).failsWith_coordinate hi
  refine (failsWith_required "kind" v).bind fun kind hkind => (failsWith_rule kind).bind fun k _ => ?_
  refine (failsWith_required "position" v).bind fun position hrequired => ?_
  refine (hcoordinate hrequired (by decide)).bind fun x _ => ?_
  refine (failsWith_required "position" v).bind fun position hrequired => ?_
  refine (hcoordinate hrequired (by decide)).bind fun y _ => ?_
  obtain ⟨gs, rfl, -⟩ := required_eq_ok_iff.mp hkind
  exact (hparams gs rfl).failsWith_read.bind fun p _ => failsWith_ok _

theorem Judgeable.failsWith_readPieces (h : Judgeable fs) :
    FailsWith Trouble.IsForeseen (readPieces (Value.field? "pieces" fs)) := by
  cases hpieces : Value.field? "pieces" fs with
  | none => exact failsWith_ok _
  | some v =>
    refine (failsWith_elementsOf v).bind fun xs hxs => .mapM fun x hx => ?_
    have helements : v.elements? = some xs := by
      rw [elementsOf] at hxs
      split at hxs
      · next helements => exact helements.trans (congrArg some (Except.ok.inj hxs))
      · exact nomatch hxs
    refine failsWith_readPlacement (fun gs position hgs hposition => ?_) fun gs hgs => ?_
    · exact h.positions v xs gs position hpieces helements (hgs ▸ hx) hposition
    · exact h.params v xs gs hpieces helements (hgs ▸ hx)

theorem Judgeable.failsWith_readPremises (h : Judgeable fs) :
    FailsWith LevelFault.IsForeseen (readPremises (Value.field? "premises" fs)) := by
  cases hpremises : Value.field? "premises" fs with
  | none => exact failsWith_ok _
  | some v =>
    obtain ⟨xs, hxs, -⟩ := h.premises v hpremises
    rw [readPremises, hxs]
    exact .mapM fun x _ => failsWith_readFormula "premises" x

/-- What is wrong with a judgeable level was foreseen. -/
theorem Judgeable.failsWith_read (h : Judgeable fs) :
    FailsWith LevelFault.IsForeseen (read (.object fs)) := by
  have hparts : FailsWith Trouble.IsForeseen (readParts fs) :=
    (failsWith_readPalette _).bind fun palette _ => h.failsWith_readGrid.bind fun grid _ =>
      h.failsWith_readPieces.bind fun pieces _ => failsWith_ok _
  rw [read]
  split
  · next hnone => cases hnone
  · exact failsWith_error ⟨_, rfl⟩
  rw [readFields]
  split
  · next hfault => exact failsWith_error (hparts _ hfault)
  · exact failsWith_error ⟨_, rfl⟩
  split
  · next htarget => exact failsWith_error (failsWith_readFormula _ _ _ htarget)
  · next hpremises _ => exact failsWith_error (h.failsWith_readPremises _ hpremises)
  · exact failsWith_ok _

end Level

/-! ### Reviews of boards with empty slots -/

namespace Board

variable {b : Board} {i : PieceId} {p : Piece}

/-- A rule is applied to premises only, so nothing is defective without wires. -/
theorem isDefective_of_unwired (h : ∀ j i, ¬ b.Feeds j i) (hp : b.piece? i = some p) (s : Statuses) :
    isDefective b p s = false := by
  have hpremises : p.premises = [] :=
    List.eq_nil_iff_forall_not_mem.mpr fun j hj => h j i (feeds_of_mem_premises hp hj)
  rw [isDefective, hpremises, Bool.and_eq_false_iff]
  right
  cases hk : p.kind <;> simp [Context.isDefective, hk]

/-- A goal without a wire lacks its premise. -/
theorem statusOf_of_unwired_goal (hwf : b.WellFormed) (h : ∀ j i, ¬ b.Feeds j i)
    (hp : b.piece? i = some p) (hk : p.kind = .goal) (s : Statuses) :
    statusOf b p s = .incomplete [0] [] := by
  obtain ⟨slot, hslots⟩ : ∃ slot, p.slots = [slot] := by
    refine List.length_eq_one_iff.mp ?_
    rw [hwf.arity i p hp, hk]
    rfl
  obtain rfl : slot = none := by
    refine Option.eq_none_iff_forall_ne_some.mpr fun j hj => h j i (feeds_iff.mpr ⟨p, hp, ?_⟩)
    rw [hslots, hj]
    exact List.mem_singleton_self _
  have hmissing : p.missing = [0] := by
    rw [Piece.missing, hslots]
    rfl
  rw [statusOf, Piece.isComplete, hmissing]
  rfl

/-- A board without wires can be reviewed if it has a target. -/
theorem exists_review_of_unwired (hwf : b.WellFormed) (hcurrent : b.Current)
    (h : ∀ j i, ¬ b.Feeds j i) (ht : b.target.isSome = true) (c : CheckerSettings) :
    ∃ r, (b.review c).1 = .ok r := by
  have hdefective : b.defective? = none := by
    rw [hcurrent.defective?_eq]
    refine List.find?_eq_none.mpr fun i _ => ?_
    cases hp : b.piece? i with
    | none => exact Bool.false_ne_true
    | some p => simp [isDefective_of_unwired h hp]
  have hformula : b.lacksFormula c = false := by
    rw [lacksFormula]
    cases hgoal : b.goal with
    | none => rfl
    | some g =>
      obtain ⟨p, hp, hk⟩ := hwf.goal g hgoal
      have hnone : b.target.isNone = false := Option.isNone_eq_false_iff.mpr ht
      simp only [hcurrent.status?_statuses hwf hp, statusOf_of_unwired_goal hwf h hp hk, hnone,
        Bool.false_and]
  exact ⟨_, congrArg Prod.fst (review_eq_check hdefective hformula)⟩

end Board

namespace Level

/-- The board of a level has its target and no wires. -/
theorem board_unwired (l : Draft) : l.board.WellFormed ∧ l.board.Current ∧
    (∀ j i, ¬ l.board.Feeds j i) ∧ l.board.target = l.target := by
  have hinvariant := (enlarged_foldl_add (Board.empty l.target (some l.premises) (some l.id) l.palette)
    l.pieces).invariant (Board.wellFormed_empty _ _ _ _) (Board.current_empty _ _ _ _)
  refine ⟨hinvariant.1, hinvariant.2, ?_⟩
  have hempty := Board.untouched_empty l.target (some l.premises) (some l.id) l.palette
  have hfold := List.foldlRecOn (motive := fun b : Board => b.WellFormed ∧ (∀ j i, ¬ b.Feeds j i) ∧
    b.target = l.target) l.pieces (fun b q => b.add q.kind (.cell q.cell) q.params)
    ⟨hempty.healthy.wellFormed, hempty.unwired, rfl⟩ fun b hb q _ =>
      ⟨hb.1.add _ _ _, Board.not_feeds_add hb.1 hb.2.1 _ _ _, hb.2.2⟩
  exact hfold.2

/-! ### Levels that are let through -/

/-- A level that is a puzzle: its target and its premises are formulas, so that it can be stored,
variables and terms are texts or missing, and every review of its board ends. -/
structure Proper (d : Draft) : Prop where
  complete : ∃ p, complete? d = some p
  names : ∀ q ∈ d.pieces, q.params.TextNames
  review : ∀ c, ∃ r, (d.board.review c).1 = .ok r

theorem positionJudgeable_of_coordinates {m n : Int} (hx : coordinate v 0 = .ok m)
    (hy : coordinate v 1 = .ok n) : PositionJudgeable v := by
  intro xs hxs
  have hitem : ∀ {i k}, coordinate v i = .ok k → (∃ gs, v = .object gs) ∨
      ∃ x, xs[i]? = some x ∧ IsFinite x := by
    intro i k hk
    rw [coordinate.eq_def] at hk
    split at hk
    · next gs => exact .inl ⟨gs, rfl⟩
    rw [hxs] at hk
    dsimp only at hk
    split at hk
    · next x hx => exact .inr ⟨x, hx, isFinite_of_integer hk⟩
    · exact nomatch hk
  obtain hobject | ⟨x, hx, hfinite⟩ := hitem hx
  · exact .inl hobject
  obtain hobject | ⟨y, hy, hfinite'⟩ := hitem hy
  · exact .inl hobject
  match xs with
  | [] => exact nomatch hx
  | [_] => exact nomatch hy
  | x' :: y' :: rest =>
    obtain rfl := Option.some.inj hx
    obtain rfl := Option.some.inj hy
    exact .inr ⟨x', y', rest, rfl, hfinite, hfinite'⟩

theorem exists_of_grid (h : readGrid (some v) = .ok d.grid) : ∃ gs, v = .object gs ∧
    IsFinite ((Value.field? "width" gs).getD (.int Frame.standardSize)) ∧
    IsFinite ((Value.field? "height" gs).getD (.int Frame.standardSize)) := by
  cases v with
  | object gs =>
    obtain ⟨width, height, hwidth, hheight, -⟩ := readGrid_eq_ok_iff.mp h
    exact ⟨gs, rfl, isFinite_of_integer hwidth, isFinite_of_integer hheight⟩
  | null | bool _ | int _ | decimal _ | text _ | list _ => exact nomatch h

/-- The pieces of a level are read from the elements of its field, one for each. -/
theorem Describes.forall₂_pieces (h : Describes fs d) {xs : List Value}
    (hv : Value.field? "pieces" fs = some v) (hxs : v.elements? = some xs) :
    List.Forall₂ (fun x q => readPlacement x = .ok q) xs d.pieces := by
  have hpieces := h.pieces
  rw [hv, readPieces, elementsOf, hxs] at hpieces
  exact mapM_eq_ok_iff.mp hpieces

/-- The premises of a level are read from the elements of its field, one for each. -/
theorem Describes.forall₂_premises (h : Describes fs d) {xs : List Value}
    (hv : Value.field? "premises" fs = some v) (hxs : v.elements? = some xs) :
    List.Forall₂ (fun x o => readFormula "premises" x = .ok o) xs d.premises := by
  have hpremises := h.premises
  rw [hv, readPremises, hxs] at hpremises
  exact mapM_eq_ok_iff.mp hpremises

theorem judgeable_of_proper (h : Describes fs d) (hd : Proper d) : Judgeable fs := by
  obtain ⟨htarget, hpremises⟩ := exists_complete?_iff.mp hd.complete
  refine ⟨fun hnull => ?_, fun v hv => ?_, fun v hv => ?_, fun v xs gs position hv hxs hgs hfield => ?_,
    fun v xs gs hv hxs hgs => ?_⟩
  · have hread := h.target
    rw [hnull] at hread
    rw [← Except.ok.inj hread] at htarget
    exact Bool.false_ne_true htarget
  · have hread := h.premises
    rw [hv] at hread
    cases hxs : v.elements? with
    | none =>
      rw [readPremises, hxs] at hread
      exact nomatch hread
    | some xs =>
      refine ⟨xs, rfl, fun hnull => ?_⟩
      obtain ⟨o, ho, hnone⟩ := exists_of_mem_right (h.forall₂_premises hv hxs).flip hnull
      have := hpremises o ho
      rw [← Except.ok.inj hnone] at this
      exact Bool.false_ne_true this
  · exact exists_of_grid (hv ▸ h.grid)
  · obtain ⟨q, -, hq⟩ := exists_of_mem_right (h.forall₂_pieces hv hxs).flip hgs
    obtain ⟨gs', _, position', hgs', -, -, hposition, hx, hy, -⟩ := readPlacement_eq_ok_iff.mp hq
    obtain rfl := Value.object.inj hgs'
    obtain rfl := Option.some.inj (hposition.symm.trans hfield)
    exact positionJudgeable_of_coordinates hx hy
  · obtain ⟨q, hmem, hq⟩ := exists_of_mem_right (h.forall₂_pieces hv hxs).flip hgs
    obtain ⟨gs', _, _, hgs', -, -, -, -, -, hparams⟩ := readPlacement_eq_ok_iff.mp hq
    obtain rfl := Value.object.inj hgs'
    exact (Params.judgeable_iff_of_read hparams).mpr (hd.names q hmem)

theorem proper_of_judgeable (h : Describes fs d) (hj : Judgeable fs) : Proper d := by
  have htarget : d.target.isSome = true := by
    obtain ⟨v, hv⟩ := Option.isSome_iff_exists.mp (h.mentioned "target" (by decide))
    refine Option.isSome_iff_ne_none.mpr fun hnone => hj.target ?_
    have hread := h.target
    rw [hnone, hv, Option.getD_some] at hread
    rw [hv, readFormula_eq_ok_none_iff.mp hread]
  refine ⟨exists_complete?_iff.mpr ⟨htarget, fun o ho => ?_⟩, fun q hq => ?_, fun c => ?_⟩
  · cases hv : Value.field? "premises" fs with
    | none =>
      have hread := h.premises
      rw [hv] at hread
      exact absurd (Except.ok.inj hread ▸ ho) List.not_mem_nil
    | some v =>
      obtain ⟨xs, hxs, hnull⟩ := hj.premises v hv
      obtain ⟨x, hx, hread⟩ := exists_of_mem_right (h.forall₂_premises hv hxs) ho
      refine Option.isSome_iff_ne_none.mpr fun hnone => hnull ?_
      rwa [← readFormula_eq_ok_none_iff.mp (hread.trans (congrArg Except.ok hnone))]
  · cases hv : Value.field? "pieces" fs with
    | none =>
      have hread := h.pieces
      rw [hv] at hread
      exact absurd (Except.ok.inj hread ▸ hq) List.not_mem_nil
    | some v =>
      obtain ⟨xs, hxs⟩ : ∃ xs, v.elements? = some xs := by
        have hread := h.pieces
        rw [hv, readPieces, elementsOf] at hread
        cases hxs : v.elements? with
        | none =>
          rw [hxs] at hread
          exact nomatch hread
        | some xs => exact ⟨xs, rfl⟩
      obtain ⟨x, hx, hread⟩ := exists_of_mem_right (h.forall₂_pieces hv hxs) hq
      obtain ⟨gs, _, _, rfl, -, -, -, -, -, hparams⟩ := readPlacement_eq_ok_iff.mp hread
      exact (Params.judgeable_iff_of_read hparams).mp (hj.params v xs gs hv hxs hx)
  · obtain ⟨hwf, hcurrent, hunwired, hboard⟩ := board_unwired d
    exact Board.exists_review_of_unwired hwf hcurrent hunwired (hboard ▸ htarget) c

/-- A level without the shapes that are not looked at is reported or is read as a proper level, and a
level that has one of them is never read as a proper one: it is reported for something else, it breaks
off the reading, or it is let through. -/
theorem reported_or_proper (fs : List (String × Value)) :
    (Judgeable fs → (∃ f m, read (.object fs) = .error f ∧ f.message? = some m) ∨
      ∃ d, read (.object fs) = .ok d ∧ Proper d) ∧
    ∀ d, read (.object fs) = .ok d → Proper d → Judgeable fs := by
  refine ⟨fun hjudgeable => ?_, fun d hread => judgeable_of_proper (read_object_eq_ok_iff.mp hread)⟩
  cases hread : read (.object fs) with
  | error f =>
    obtain ⟨m, hm⟩ := hjudgeable.failsWith_read f hread
    exact .inl ⟨f, m, rfl, hm⟩
  | ok d => exact .inr ⟨d, rfl, proper_of_judgeable (read_object_eq_ok_iff.mp hread) hjudgeable⟩

/-- A level of the given width. -/
def widthFields (n : Int) : List (String × Value) :=
  [("id", .text "t"), ("name", .text "T"), ("target", .text "P"), ("grid", .object [("width", .int n)])]

theorem reported_or_proper_widths :
    read (.object (widthFields 0)) = .error (.malformed (.text "t") .dimensions) ∧
      (∃ f m, read (.object (widthFields 0)) = .error f ∧ f.message? = some m) ∧
      ∃ d, read (.object (widthFields 3)) = .ok d ∧ Proper d ∧ Judgeable (widthFields 3) := by
  have hjudgeable : ∀ n, Judgeable (widthFields n) := by
    intro n
    refine ⟨by simp [widthFields, Value.field?], fun v hv => by simp [widthFields, Value.field?] at hv,
      fun v hv => ?_, fun v _ _ _ hv => by simp [widthFields, Value.field?] at hv,
      fun v _ _ hv => by simp [widthFields, Value.field?] at hv⟩
    obtain rfl : .object [("width", .int n)] = v := Option.some.inj hv
    exact ⟨_, rfl, by simp [IsFinite, Value.field?, Value.toInteger],
      by simp [IsFinite, Value.field?, Value.toInteger]⟩
  have hnarrow : read (.object (widthFields 0)) = .error (.malformed (.text "t") .dimensions) := by
    decide +kernel
  have hwide : (read (.object (widthFields 3))).toOption.isSome = true := by
    decide +kernel
  refine ⟨hnarrow, ?_, ?_⟩
  · rcases (reported_or_proper (widthFields 0)).1 (hjudgeable 0) with h | ⟨d, hread, -⟩
    · exact h
    · cases hnarrow.symm.trans hread
  · rcases (reported_or_proper (widthFields 3)).1 (hjudgeable 3) with ⟨f, m, hread, -⟩ | ⟨d, hread, hd⟩
    · rw [hread] at hwide
      cases hwide
    · exact ⟨d, hread, hd, (reported_or_proper (widthFields 3)).2 d hread hd⟩

/-- A level with one assumption at the given position. -/
def positionFields (position : Value) : List (String × Value) :=
  [("id", .text "t"), ("name", .text "T"), ("target", .text "P"),
    ("pieces", .list [.object [("kind", .text "assumption"), ("position", position)]])]

/-- A position with one item breaks off the reading without a wording, and a missing target is let
through: neither level is reported, and neither is read as a proper one. -/
theorem not_reported_of_short_position :
    ¬ ((∃ f m, read (.object (positionFields (.list [.int 0]))) = .error f ∧ f.message? = some m) ∨
        ∃ d, read (.object (positionFields (.list [.int 0]))) = .ok d ∧ Proper d) ∧
      ¬ ((∃ f m, read (.object [("id", .text "t"), ("name", .text "T"), ("target", .null)]) = .error f ∧
          f.message? = some m) ∨
        ∃ d, read (.object [("id", .text "t"), ("name", .text "T"), ("target", .null)]) = .ok d ∧
          Proper d) := by
  have hshort : read (.object (positionFields (.list [.int 0]))) = .error .tooShort := by
    decide +kernel
  have hmissing : (read (.object [("id", .text "t"), ("name", .text "T"), ("target", .null)])).map
      Level.target = .ok none := by
    decide +kernel
  constructor
  · rintro (⟨f, m, hread, hm⟩ | ⟨d, hread, -⟩)
    · obtain rfl := Except.error.inj (hshort.symm.trans hread)
      exact nomatch hm
    · exact nomatch hshort.symm.trans hread
  · rintro (⟨f, m, hread, -⟩ | ⟨d, hread, hd⟩)
    · rw [hread] at hmissing
      exact nomatch hmissing
    · rw [hread] at hmissing
      have hsome := (exists_complete?_iff.mp hd.complete).1
      rw [Except.ok.inj hmissing] at hsome
      exact Bool.false_ne_true hsome

end Level

end DeductionBoard
