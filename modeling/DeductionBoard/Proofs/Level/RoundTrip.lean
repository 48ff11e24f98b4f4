import DeductionBoard.Proofs.Formula.RoundTrip
import DeductionBoard.Proofs.Level.Reading
import Mathlib.Data.Set.List

/-! Stored levels read back. What reading accepts is legible: every part of it, written again, is read
as the same part, because printed formulas parse to themselves, numbers are whole already, and what
was left out has its standard value. Main result: writing a level that was read and reading it again
changes nothing, whatever the notation of the first text was. -/

namespace DeductionBoard

variable {f : Formula} {v : Value} {field key : String}

/-! ### Fields -/

namespace Value

variable {fs gs : List (String × Value)}

theorem field?_append : field? key (fs ++ gs) = (field? key fs).or (field? key gs) := by
  induction fs with
  | nil => rfl
  | cons e fs ih =>
    obtain ⟨k, v⟩ := e
    rw [List.cons_append, field?, field?]
    split
    · rfl
    · exact ih

/-- A field that is left out where there is no value. -/
def given (key : String) : Option Value → List (String × Value)
  | none => []
  | some v => [(key, v)]

theorem field?_given {k : String} (v : Option Value) :
    field? key (given k v) = if k = key then v else none := by
  cases v <;> simp [given, field?]

theorem fst_of_mem_given {v : Option Value} {e : String × Value} (he : e ∈ given key v) :
    e.1 = key := by
  cases v with
  | none => exact absurd he List.not_mem_nil
  | some v => exact List.mem_singleton.mp he ▸ rfl

theorem mem_of_mem_distinct {vs : List Value} (h : v ∈ distinct vs) : v ∈ vs := by
  refine List.foldlRecOn (motive := fun acc => ∀ w ∈ acc, w ∈ vs) vs _ (by simp)
    (fun acc hacc w hw x hx => ?_) v h
  split at hx
  · exact hacc x hx
  · rcases List.mem_append.mp hx with hx | hx
    · exact hacc x hx
    · exact List.mem_singleton.mp hx ▸ hw

end Value

/-! ### Formulas -/

/-- The formula is what its printed text is read as. -/
def Formula.Legible (f : Formula) : Prop := Formula.parse f.pretty = .ok f

theorem Formula.legible_of_parse {s : String} (h : Formula.parse s = .ok f) : f.Legible :=
  parse_pretty (isWritable_of_parse h)

theorem legible_of_readFormula (h : readFormula field v = .ok (some f)) : f.Legible := by
  obtain ⟨s, -, hparse⟩ := exists_text_of_readFormula h
  exact Formula.legible_of_parse hparse

theorem Formula.Legible.readFormula (h : f.Legible) (field : String) :
    readFormula field (.text f.pretty) = .ok (some f) := by
  rw [DeductionBoard.readFormula, h]

/-- A formula that may be missing is read back from the field that is left out without it. -/
theorem readFormula_given {o : Option Formula} (h : ∀ f, o = some f → f.Legible) (field : String) :
    readFormula field ((o.map fun f => Value.text f.pretty).getD .null) = .ok o := by
  cases o with
  | none => rfl
  | some f => exact (h f rfl).readFormula field

/-! ### Parameters -/

namespace Params

variable {p : Params} {fs : List (String × Value)}

/-- Parameters as reading leaves them. -/
structure Legible (p : Params) : Prop where
  formula : ∀ f, p.formula = some f → f.Legible
  other : ∀ f, p.other = some f → f.Legible
  hypothesis : ∀ f, p.hypothesis = some f → f.Legible
  side : p.side = leftSide ∨ p.side = rightSide

theorem fields_eq (p : Params) :
    p.fields = Value.given "formula" (p.formula.map fun f => .text f.pretty) ++
      Value.given "other" (p.other.map fun f => .text f.pretty) ++
      Value.given "hypothesis" (p.hypothesis.map fun f => .text f.pretty) ++
      Value.given "side" (if p.side = leftSide then none else some p.side) ++
      Value.given "variable" (if p.variableName = .null then none else some p.variableName) ++
      Value.given "term" (if p.term = .null then none else some p.term) := by
  obtain ⟨formula, other, hypothesis, side, variableName, term⟩ := p
  rw [fields]
  cases formula <;> cases other <;> cases hypothesis <;> dsimp only <;> split <;> split <;> split <;> rfl

theorem getD_of_standard (v standard : Value) :
    (if v = standard then none else some v : Option Value).getD standard = v := by
  split
  · next h => exact h.symm
  · rfl

theorem readFields_fields (h : p.Legible) : readFields p.fields = .ok p := by
  have hside : ¬ (p.side ≠ leftSide ∧ p.side ≠ rightSide) := by
    rintro ⟨hleft, hright⟩
    exact h.side.elim hleft hright
  rw [readFields]
  simp only [fields_eq, Value.field?_append, Value.field?_given]
  simp only [String.reduceEq, if_true, if_false, Option.or_none, Option.none_or, getD_of_standard,
    readFormula_given h.formula, readFormula_given h.other, readFormula_given h.hypothesis, if_neg hside]

theorem mem_knownNames_of_mem_fields : ∀ e ∈ p.fields, e.1 ∈ knownNames := by
  rw [fields_eq]
  simp only [List.forall_mem_append]
  refine ⟨⟨⟨⟨⟨?_, ?_⟩, ?_⟩, ?_⟩, ?_⟩, ?_⟩ <;>
  · intro e he
    rw [Value.fst_of_mem_given he]
    decide

/-- Where all names are known, none is reported. -/
theorem unknownNames_eq_nil (h : ∀ e ∈ fs, e.1 ∈ knownNames) :
    unknownNames (fs.map fun e => .text e.1) = .ok [] := by
  have hkeys : (fs.map fun e => Value.text e.1).find? (fun v => !v.isKey) = none := by
    refine List.find?_eq_none.mpr fun v hv => ?_
    obtain ⟨e, -, rfl⟩ := List.mem_map.mp hv
    simp [Value.isKey]
  have hunknown : ((Value.distinct (fs.map fun e => Value.text e.1)).filter
      fun v => v.text?.all fun s => s ∉ knownNames) = [] := by
    refine List.filter_eq_nil_iff.mpr fun v hv => ?_
    obtain ⟨e, he, rfl⟩ := List.mem_map.mp (Value.mem_of_mem_distinct hv)
    simp [Value.text?, h e he]
  rw [unknownNames, hkeys]
  dsimp only
  rw [hunknown, ordered]

theorem Legible.read (h : p.Legible) : Params.read (.object p.fields) = .ok p :=
  read_eq_ok_iff.mpr
    ⟨p.fields, rfl, unknownNames_eq_nil mem_knownNames_of_mem_fields, readFields_fields h⟩

theorem Legible.of_readFields (h : readFields fs = .ok p) : p.Legible := by
  rw [readFields] at h
  split at h
  · exact nomatch h
  next hside =>
  split at h
  · exact nomatch h
  · exact nomatch h
  · exact nomatch h
  next hformula hother hhypothesis =>
  obtain rfl := Except.ok.inj h
  refine ⟨fun f hf => ?_, fun f hf => ?_, fun f hf => ?_, ?_⟩
  · exact legible_of_readFormula (hformula.trans (congrArg _ hf))
  · exact legible_of_readFormula (hother.trans (congrArg _ hf))
  · exact legible_of_readFormula (hhypothesis.trans (congrArg _ hf))
  · exact Classical.or_iff_not_imp_left.mpr fun hleft => not_not.mp fun hright => hside ⟨hleft, hright⟩

end Params

namespace Level

variable {w : Option Value} {p : Placement}

/-! ### Palette and grid -/


theorem exists_of_readPalette {palette : Palette} (h : readPalette w = .ok palette) :
    ∃ ks, palette = Palette.ofList ks := by
  cases w with
  | none => exact ⟨RuleKind.all, (Except.ok.inj h).symm.trans (by decide)⟩
  | some v =>
    obtain ⟨vs, -, h⟩ := exists_of_bind_eq_ok h
    obtain ⟨ks, -, h⟩ := exists_of_bind_eq_ok h
    exact ⟨ks, (Except.ok.inj h).symm⟩

theorem rule_name (k : RuleKind) : rule (.text k.name) = .ok k := by
  rw [rule, RuleKind.ofValue, RuleKind.ofName?_name]

theorem readPalette_stored (ks : List RuleKind) :
    readPalette (some (.list ((Palette.ofList ks).kinds.map fun k => .text k.name))) =
      .ok (Palette.ofList ks) := by
  have hks : ((Palette.ofList ks).kinds.map fun k => Value.text k.name).mapM rule =
      .ok (Palette.ofList ks).kinds := by
    rw [mapM_eq_ok_iff, List.forall₂_map_left_iff]
    exact List.forall₂_same.mpr fun k _ => rule_name k
  have hsame : Palette.ofList (Palette.ofList ks).kinds = Palette.ofList ks := by
    simp [Palette.ofList, RuleKind.mem_all]
  rw [readPalette]
  dsimp only [elementsOf, Value.elements?]
  rw [ok_bind, hks, ok_bind, hsame]
  rfl

/-- The value that sets the limit of a grid. -/
def limitValue (g : Grid) : Value := g.limit.elim .null PieceLimit.written

theorem of_make {width height : Int} {limit : Value} {g : Grid}
    (h : Grid.make width height limit = .ok g) :
    width = g.width ∧ height = g.height ∧ limit = limitValue g := by
  have hlimit : ∀ l, Frame.limitOf limit = .ok l → limit = l.elim .null PieceLimit.written := by
    intro l hl
    rw [Frame.limitOf] at hl
    split at hl
    · next hnull => exact Except.ok.inj hl ▸ hnull
    · split at hl
      · exact nomatch hl
      · exact nomatch hl
      · exact Except.ok.inj hl ▸ rfl
  rw [Grid.make, Frame.ofValues.eq_def] at h
  split at h
  · exact nomatch h
  · exact nomatch h
  split at h
  · exact nomatch h
  · exact nomatch h
  cases hl : Frame.limitOf limit with
  | error e =>
    rw [hl] at h
    exact nomatch h
  | ok l =>
    rw [hl] at h
    obtain rfl := Except.ok.inj h
    exact ⟨rfl, rfl, hlimit l hl⟩

/-- The grid is what its size and its limit make. -/
def LegibleGrid (g : Grid) : Prop := Grid.make g.width g.height (limitValue g) = .ok g

theorem legible_of_readGrid {g : Grid} (h : readGrid w = .ok g) : LegibleGrid g := by
  cases w with
  | none =>
    obtain rfl := Except.ok.inj h
    rfl
  | some v =>
    cases v with
    | object gs =>
      obtain ⟨width, height, -, -, hmake⟩ := readGrid_eq_ok_iff.mp h
      obtain ⟨rfl, rfl, hlimit⟩ := of_make hmake
      rwa [LegibleGrid, ← hlimit]
    | _ => exact nomatch h

theorem LegibleGrid.readGrid {g : Grid} (h : LegibleGrid g) :
    readGrid (some (storedGrid g)) = .ok g := by
  obtain ⟨fs, hfs, hwidth, hheight, hlimit⟩ : ∃ fs, storedGrid g = .object fs ∧
      Value.field? "width" fs = some (.int g.width) ∧
      Value.field? "height" fs = some (.int g.height) ∧
      (Value.field? "max_pieces" fs).getD .null = limitValue g := by
    refine ⟨_, rfl, rfl, rfl, ?_⟩
    rw [limitValue]
    cases g.limit <;> rfl
  rw [hfs, readGrid_eq_ok_iff, hwidth, hheight, hlimit]
  exact ⟨g.width, g.height, rfl, rfl, h⟩

/-! ### Pieces -/

theorem legible_of_readPlacement (h : readPlacement v = .ok p) : p.params.Legible := by
  obtain ⟨_, _, _, -, -, -, -, -, -, hparams⟩ := readPlacement_eq_ok_iff.mp h
  obtain ⟨_, -, -, hfields⟩ := Params.read_eq_ok_iff.mp hparams
  exact .of_readFields hfields

theorem readPlacement_stored (h : p.params.Legible) : readPlacement (storedPlacement p) = .ok p :=
  readPlacement_eq_ok_iff.mpr ⟨_, .text p.kind.name, .list [.int p.cell.1, .int p.cell.2], rfl, rfl,
    rule_name p.kind, rfl, rfl, rfl, h.read⟩

/-! ### Levels -/

theorem complete?_eq_some_iff {d : Draft} {p : Puzzle} : complete? d = some p ↔ d = ofPuzzle p := by
  constructor
  · intro h
    rw [complete?] at h
    split at h
    · next target premises htarget hpremises =>
      obtain rfl := Option.some.inj h
      have hsame := mapM_eq_some_iff.mp hpremises
      rw [List.map_id'] at hsame
      rw [ofPuzzle, ← htarget, ← hsame]
    · exact nomatch h
  · rintro rfl
    have hpremises : ((ofPuzzle p).premises.mapM fun f => f) = some p.premises :=
      mapM_eq_some_iff.mpr (List.map_id' _)
    rw [complete?, hpremises]
    rfl

/-- A level is complete where it has a target and no premise is missing. -/
theorem exists_complete?_iff {d : Draft} :
    (∃ p, complete? d = some p) ↔ d.target.isSome = true ∧ ∀ o ∈ d.premises, o.isSome = true := by
  constructor
  · rintro ⟨p, hp⟩
    rw [complete?_eq_some_iff.mp hp]
    refine ⟨rfl, fun o ho => ?_⟩
    obtain ⟨f, -, rfl⟩ := List.mem_map.mp ho
    rfl
  · rintro ⟨htarget, hpremises⟩
    obtain ⟨target, ht⟩ := Option.isSome_iff_exists.mp htarget
    obtain ⟨premises, hps⟩ : d.premises ∈ Set.range (List.map some) := by
      rw [Set.range_list_map]
      exact fun o ho => (Option.isSome_iff_exists.mp (hpremises o ho)).imp fun f hf => hf.symm
    refine ⟨⟨d.id, d.name, d.description, target, premises, d.palette, d.grid, d.pieces⟩,
      complete?_eq_some_iff.mpr ?_⟩
    rw [ofPuzzle, hps, ← ht]

/-- A puzzle as reading leaves it. -/
structure Legible (p : Puzzle) : Prop where
  target : p.target.Legible
  premises : ∀ f ∈ p.premises, f.Legible
  palette : ∃ ks, p.palette = Palette.ofList ks
  grid : LegibleGrid p.grid
  pieces : ∀ q ∈ p.pieces, q.params.Legible

theorem Legible.read_stored {p : Puzzle} (h : Legible p) : read (stored p) = .ok (ofPuzzle p) := by
  obtain ⟨ks, hks⟩ := h.palette
  have hpremises : (p.premises.map fun f => Value.text f.pretty).mapM (readFormula "premises") =
      .ok (p.premises.map some) := by
    rw [mapM_eq_ok_iff, List.forall₂_map_left_iff, List.forall₂_map_right_iff]
    exact List.forall₂_same.mpr fun f hf => (h.premises f hf).readFormula "premises"
  have hpieces : (p.pieces.map storedPlacement).mapM readPlacement = .ok p.pieces := by
    rw [mapM_eq_ok_iff, List.forall₂_map_left_iff]
    exact List.forall₂_same.mpr fun q hq => readPlacement_stored (h.pieces q hq)
  refine read_object_eq_ok_iff.mpr ⟨by simp [requiredFields, Value.field?], ?_, h.grid.readGrid, hpieces,
    h.target.readFormula "target", hpremises, rfl, rfl, rfl⟩
  show readPalette (some (.list (p.palette.kinds.map fun k => .text k.name))) = .ok p.palette
  rw [hks]
  exact readPalette_stored ks

/-- A level without gaps that was read is legible. -/
theorem legible_of_read {fs : List (String × Value)} {p : Puzzle}
    (h : read (.object fs) = .ok (ofPuzzle p)) : Legible p := by
  obtain ⟨-, hpalette, hgrid, hpieces, htarget, hpremises, -, -, -⟩ := read_object_eq_ok_iff.mp h
  refine ⟨legible_of_readFormula htarget, fun f hf => ?_, exists_of_readPalette hpalette,
    legible_of_readGrid hgrid, fun q hq => ?_⟩
  · obtain ⟨w, hw⟩ := exists_of_mem_premises hpremises (List.mem_map_of_mem hf)
    exact legible_of_readFormula hw
  · obtain ⟨w, hw⟩ := exists_of_mem_pieces hpieces hq
    exact legible_of_readPlacement hw

/-- Texts are read as formulas, so that a level of texts has no gaps. -/
theorem exists_complete? {fs : List (String × Value)} {d : Draft} (h : read (.object fs) = .ok d)
    (htarget : ∃ s, Value.field? "target" fs = some (.text s))
    (hpremises : ∀ v, Value.field? "premises" fs = some v →
      ∃ ss : List String, v = .list (ss.map .text)) :
    ∃ p, complete? d = some p := by
  obtain ⟨-, -, -, -, htargetRead, hpremisesRead, -, -, -⟩ := read_object_eq_ok_iff.mp h
  have htext : ∀ {field s o}, readFormula field (.text s) = .ok o → o.isSome = true := by
    intro field s o ho
    refine Option.isSome_iff_ne_none.mpr fun hnone => ?_
    exact Value.noConfusion (readFormula_eq_ok_none_iff.mp (ho.trans (congrArg Except.ok hnone)))
  refine exists_complete?_iff.mpr ⟨?_, fun o ho => ?_⟩
  · obtain ⟨s, hs⟩ := htarget
    rw [hs] at htargetRead
    exact htext htargetRead
  · cases hfield : Value.field? "premises" fs with
    | none =>
      rw [hfield] at hpremisesRead
      exact absurd (Except.ok.inj hpremisesRead ▸ ho) List.not_mem_nil
    | some v =>
      obtain ⟨ss, rfl⟩ := hpremises v hfield
      rw [hfield] at hpremisesRead
      obtain ⟨w, hw, hread⟩ := exists_of_mem_right (mapM_eq_ok_iff.mp hpremisesRead) ho
      obtain ⟨s, -, rfl⟩ := List.mem_map.mp hw
      exact htext hread

/-- A stored level whose target is a text and whose premises are texts is read as a puzzle, whatever
else it leaves out or writes in another notation. The stored value of this puzzle is read as the same
puzzle, which is stored as the same value again. -/
theorem read_stored_of_read {fs : List (String × Value)} {d : Draft} (h : read (.object fs) = .ok d)
    (htarget : ∃ s, Value.field? "target" fs = some (.text s))
    (hpremises : ∀ v, Value.field? "premises" fs = some v →
      ∃ ss : List String, v = .list (ss.map .text)) :
    ∃ p, complete? d = some p ∧ read (stored p) = .ok d ∧
      ∀ d' p', read (stored p) = .ok d' → complete? d' = some p' → p' = p ∧ stored p' = stored p := by
  obtain ⟨p, hp⟩ := exists_complete? h htarget hpremises
  have hd := complete?_eq_some_iff.mp hp
  have hstored : read (stored p) = .ok d := by
    rw [hd]
    exact (legible_of_read (hd ▸ h)).read_stored
  refine ⟨p, hp, hstored, fun d' p' hread hcomplete => ?_⟩
  obtain rfl : d = d' := Except.ok.inj (hstored.symm.trans hread)
  obtain rfl : p = p' := Option.some.inj (hp.symm.trans hcomplete)
  exact ⟨rfl, rfl⟩

/-- A level in careless notation: its id is a number and its width a text, a rule is named twice, the
formulas have signs and brackets that are not printed, the position of the piece is a text and its
variable is empty. -/
def carelessFields : List (String × Value) :=
  [("id", .int 7), ("name", .null), ("target", .text "~ (P)"),
    ("premises", .list [.text "(P & (Q))", .text "!P"]),
    ("available_rules", .list [.text "or_intro", .text "assumption", .text "or_intro"]),
    ("grid", .object [("width", .text " +1_2 "), ("max_pieces", .bool true)]),
    ("pieces", .list [.object [("kind", .text "or_intro"), ("position", .text "34"),
      ("params", .object [("term", .null), ("variable", .text ""), ("side", .text "right"),
        ("other", .text "((Q))")])]])]

def carelessPuzzle : Puzzle :=
  ⟨"7", .null, .text "", .neg (.atom "P" []),
    [.conj (.atom "P" []) (.atom "Q" []), .neg (.atom "P" [])], Palette.ofList [.assumption, .orIntro],
    ⟨12, 10, some ⟨some 1, .bool true⟩⟩,
    [⟨.orIntro, (3, 4), { Params.empty with
      other := some (.atom "Q" []), side := Params.rightSide, variableName := .text "" }⟩]⟩

theorem read_stored_careless : read (.object carelessFields) = .ok (ofPuzzle carelessPuzzle) ∧
    read (stored carelessPuzzle) = .ok (ofPuzzle carelessPuzzle) ∧
    stored carelessPuzzle ≠ .object carelessFields := by
  have hread : read (.object carelessFields) = .ok (ofPuzzle carelessPuzzle) := by
    decide +kernel
  obtain ⟨p, hp, hstored, -⟩ := read_stored_of_read hread ⟨_, rfl⟩ fun v hv =>
    ⟨["(P & (Q))", "!P"], (Option.some.inj hv).symm⟩
  obtain rfl : carelessPuzzle = p :=
    Option.some.inj ((complete?_eq_some_iff.mpr rfl).symm.trans hp)
  exact ⟨hread, hstored, by decide +kernel⟩

end Level

end DeductionBoard
