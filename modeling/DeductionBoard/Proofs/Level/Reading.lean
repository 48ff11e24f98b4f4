import DeductionBoard.Level.Storage
import DeductionBoard.Proofs.Data.Steps

/-! How levels are read. A level comes out where each of its parts does, and a fault is the first one
that a part has; lists are read item by item. The equations here say which parts these are, so that
nothing else looks into the order of the reading. -/

namespace DeductionBoard

variable {fs : List (String × Value)} {d : Draft} {v : Value}

/-! ### Formulas and parameters -/

/-- A formula that was read stands in a text. -/
theorem exists_text_of_readFormula {field : String} {g : Formula}
    (h : readFormula field v = .ok (some g)) :
    ∃ s, v = .text s ∧ Formula.parse s = .ok g := by
  rw [readFormula.eq_def] at h
  split at h
  · exact nomatch Except.ok.inj h
  · next s =>
    split at h
    · next hparse =>
      obtain rfl := Option.some.inj (Except.ok.inj h)
      exact ⟨s, rfl, hparse⟩
    · exact nomatch h
  · exact nomatch h

theorem readFormula_eq_ok_none_iff {field : String} : readFormula field v = .ok none ↔ v = .null := by
  constructor
  · intro h
    rw [readFormula.eq_def] at h
    split at h
    · rfl
    · split at h
      · exact nomatch Except.ok.inj h
      · exact nomatch h
    · exact nomatch h
  · rintro rfl
    rfl

theorem Params.read_eq_ok_iff {p : Params} :
    Params.read v = .ok p ↔ ∃ gs, v = .object gs ∧
      Params.unknownNames (gs.map fun e => .text e.1) = .ok [] ∧ Params.readFields gs = .ok p := by
  constructor
  · intro h
    obtain ⟨vs, hvs, hnames⟩ := exists_of_bind_eq_ok h
    obtain ⟨ns, hns, hfields⟩ := exists_of_bind_eq_ok hnames
    cases ns with
    | cons n ns => exact nomatch hfields
    | nil =>
      cases v with
      | object gs =>
        obtain rfl := Except.ok.inj hvs
        refine ⟨gs, rfl, hns, ?_⟩
        cases hq : Params.readFields gs with
        | error e =>
          simp only [hq] at hfields
          exact nomatch hfields
        | ok q =>
          simp only [hq] at hfields
          exact congrArg Except.ok (Except.ok.inj hfields)
      | null | bool _ | int _ | decimal _ | text _ | list _ => exact nomatch hfields
  · rintro ⟨gs, rfl, hns, hp⟩
    have helements : elementsOf (.object gs) = .ok (gs.map fun e => .text e.1) := rfl
    rw [Params.read, helements, ok_bind, hns, ok_bind]
    dsimp only
    rw [hp]

namespace Level

/-! ### Parts -/

theorem required_eq_ok_iff {key : String} {w : Value} :
    required key v = .ok w ↔ ∃ gs, v = .object gs ∧ Value.field? key gs = some w := by
  cases v with
  | object gs =>
    rw [required]
    cases hw : Value.field? key gs with
    | none => simp [hw]
    | some u => simp [hw]
  | _ => simp [required, misused]

/-- A piece is read where its rule, both coordinates and its parameters are. -/
theorem readPlacement_eq_ok_iff {p : Placement} :
    readPlacement v = .ok p ↔ ∃ gs kind position, v = .object gs ∧
      Value.field? "kind" gs = some kind ∧ rule kind = .ok p.kind ∧
      Value.field? "position" gs = some position ∧ coordinate position 0 = .ok p.cell.1 ∧
      coordinate position 1 = .ok p.cell.2 ∧
      Params.read ((Value.field? "params" gs).getD (.object [])) = .ok p.params := by
  constructor
  · intro h
    obtain ⟨kind, hkind, h⟩ := exists_of_bind_eq_ok h
    obtain ⟨k, hk, h⟩ := exists_of_bind_eq_ok h
    obtain ⟨position, hposition, h⟩ := exists_of_bind_eq_ok h
    obtain ⟨x, hx, h⟩ := exists_of_bind_eq_ok h
    obtain ⟨position', hposition', h⟩ := exists_of_bind_eq_ok h
    obtain ⟨y, hy, h⟩ := exists_of_bind_eq_ok h
    obtain ⟨ps, hps, h⟩ := exists_of_bind_eq_ok h
    obtain rfl := Except.ok.inj h
    obtain rfl := Except.ok.inj (hposition.symm.trans hposition')
    obtain ⟨gs, hgs, hkindField⟩ := required_eq_ok_iff.mp hkind
    obtain ⟨_, hgs', hpositionField⟩ := required_eq_ok_iff.mp hposition
    obtain rfl := Value.object.inj (hgs.symm.trans hgs')
    subst hgs
    exact ⟨gs, kind, position, rfl, hkindField, hk, hpositionField, hx, hy, hps⟩
  · rintro ⟨gs, kind, position, rfl, hkind, hk, hposition, hx, hy, hps⟩
    have hkind := required_eq_ok_iff.mpr ⟨gs, rfl, hkind⟩
    have hposition := required_eq_ok_iff.mpr ⟨gs, rfl, hposition⟩
    rw [readPlacement.eq_def, hkind, ok_bind, hk, ok_bind, hposition, ok_bind, hx, ok_bind, ok_bind, hy,
      ok_bind]
    dsimp only
    rw [hps]
    rfl

theorem readGrid_eq_ok_iff {gs : List (String × Value)} {g : Grid} :
    readGrid (some (.object gs)) = .ok g ↔ ∃ width height,
      integer ((Value.field? "width" gs).getD (.int Frame.standardSize)) = .ok width ∧
      integer ((Value.field? "height" gs).getD (.int Frame.standardSize)) = .ok height ∧
      Grid.make width height ((Value.field? "max_pieces" gs).getD .null) = .ok g := by
  constructor
  · intro h
    obtain ⟨width, hwidth, h⟩ := exists_of_bind_eq_ok h
    obtain ⟨height, hheight, h⟩ := exists_of_bind_eq_ok h
    refine ⟨width, height, hwidth, hheight, ?_⟩
    split at h
    · next hg => exact Except.ok.inj h ▸ hg
    · exact nomatch h
  · rintro ⟨width, height, hwidth, hheight, hg⟩
    rw [readGrid, hwidth, ok_bind, hheight, ok_bind, hg]

/-- Every piece of a level was read. -/
theorem exists_of_mem_pieces {o : Option Value} {ps : List Placement} {p : Placement}
    (h : readPieces o = .ok ps) (hp : p ∈ ps) : ∃ w, readPlacement w = .ok p := by
  cases o with
  | none =>
    obtain rfl := Except.ok.inj h
    exact absurd hp List.not_mem_nil
  | some w =>
    obtain ⟨ws, -, hws⟩ := exists_of_bind_eq_ok h
    obtain ⟨u, -, hu⟩ := exists_of_mem_right (mapM_eq_ok_iff.mp hws) hp
    exact ⟨u, hu⟩

theorem exists_of_mem_premises {o : Option Value} {gs : List (Option Formula)} {g : Option Formula}
    (h : readPremises o = .ok gs) (hg : g ∈ gs) : ∃ w, readFormula "premises" w = .ok g := by
  rw [readPremises.eq_def] at h
  split at h
  · obtain rfl := Except.ok.inj h
    exact absurd hg List.not_mem_nil
  split at h
  · exact nomatch h
  · obtain ⟨w, -, hw⟩ := exists_of_mem_right (mapM_eq_ok_iff.mp h) hg
    exact ⟨w, hw⟩

/-! ### Levels -/

/-- The parts of a level as the fields of an object give them. -/
structure Describes (fs : List (String × Value)) (d : Draft) : Prop where
  mentioned : ∀ n ∈ requiredFields, (Value.field? n fs).isSome = true
  palette : readPalette (Value.field? "available_rules" fs) = .ok d.palette
  grid : readGrid (Value.field? "grid" fs) = .ok d.grid
  pieces : readPieces (Value.field? "pieces" fs) = .ok d.pieces
  target : readFormula "target" ((Value.field? "target" fs).getD .null) = .ok d.target
  premises : readPremises (Value.field? "premises" fs) = .ok d.premises
  id : ((Value.field? "id" fs).getD .null).display = d.id
  name : (Value.field? "name" fs).getD .null = d.name
  description : (Value.field? "description" fs).getD (.text "") = d.description

theorem readParts_eq_ok_iff {palette : Palette} {grid : Grid} {pieces : List Placement} :
    readParts fs = .ok (palette, grid, pieces) ↔
      readPalette (Value.field? "available_rules" fs) = .ok palette ∧
        readGrid (Value.field? "grid" fs) = .ok grid ∧
        readPieces (Value.field? "pieces" fs) = .ok pieces := by
  constructor
  · intro h
    obtain ⟨p, hp, h⟩ := exists_of_bind_eq_ok h
    obtain ⟨g, hg, h⟩ := exists_of_bind_eq_ok h
    obtain ⟨qs, hqs, h⟩ := exists_of_bind_eq_ok h
    obtain ⟨rfl, rfl, rfl⟩ : p = palette ∧ g = grid ∧ qs = pieces := by
      simpa [pure, Except.pure] using h
    exact ⟨hp, hg, hqs⟩
  · rintro ⟨hp, hg, hqs⟩
    rw [readParts, hp, hg, hqs]
    rfl

theorem missingField?_object :
    missingField? (.object fs) = some none ↔
      ∀ n ∈ requiredFields, (Value.field? n fs).isSome = true := by
  simp [missingField?, List.find?_eq_none, Option.isSome_iff_ne_none]

/-- A level is read from an object where each of its parts is. -/
theorem read_eq_ok_iff : read v = .ok d ↔ ∃ fs, v = .object fs ∧ Describes fs d := by
  constructor
  · intro h
    rw [read.eq_def] at h
    split at h
    · exact nomatch h
    · exact nomatch h
    next hmentioned =>
    split at h
    · rw [readFields] at h
      split at h
      · exact nomatch h
      · exact nomatch h
      next palette grid pieces hparts =>
      obtain ⟨hpalette, hgrid, hpieces⟩ := readParts_eq_ok_iff.mp hparts
      split at h
      · exact nomatch h
      · exact nomatch h
      next target premises htarget hpremises =>
      obtain rfl := Except.ok.inj h
      exact ⟨_, rfl, missingField?_object.mp hmentioned, hpalette, hgrid, hpieces, htarget, hpremises,
        rfl, rfl, rfl⟩
    · exact nomatch h
  · rintro ⟨fs, rfl, h⟩
    have hmentioned := missingField?_object.mpr h.mentioned
    have hparts := readParts_eq_ok_iff.mpr ⟨h.palette, h.grid, h.pieces⟩
    rw [read, hmentioned]
    dsimp only
    rw [readFields, hparts, h.target, h.premises, h.id, h.name, h.description]

theorem read_object_eq_ok_iff : read (.object fs) = .ok d ↔ Describes fs d := by
  rw [read_eq_ok_iff]
  exact ⟨fun ⟨_, hfs, h⟩ => Value.object.inj hfs ▸ h, fun h => ⟨fs, rfl, h⟩⟩

end Level

end DeductionBoard
