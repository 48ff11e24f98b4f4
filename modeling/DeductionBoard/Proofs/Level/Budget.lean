import DeductionBoard.Proofs.Level.Room
import DeductionBoard.Proofs.Search.Budget

/-! Levels with a larger budget. The search tries alternatives in a fixed order and goes back on
none that it has taken, so a larger budget may lose a solution: an alternative comes in for which
there was no room before, and what it takes is missing later on. Main result: a larger budget loses
no solution whose construction is steady, and it finds the same solution again where the
construction is firm. -/

namespace DeductionBoard

open DeductionBoard.Search

/-- The second limit allows what the first one allows; a limit that is missing allows everything. -/
def PieceLimit.Within (limit limit' : Option PieceLimit) : Prop :=
  Room.Within (limit.bind (·.count)) (limit'.bind (·.count))

namespace Level

/-- The level with another limit on the number of pieces. -/
def withLimit {F : Type} (l : Level F) (limit : Option PieceLimit) : Level F :=
  { l with grid := { l.grid with limit := limit } }

variable {l : Draft} {s : SearchSettings} {target : Formula} {b : Board} {c : Construction}
  {limit : Option PieceLimit}

/-! ### Solutions -/

theorem Admits.of_append {F : Type} {l : Level F} {fs gs : List (RuleKind × Position)}
    (h : l.Admits (fs ++ gs)) : l.Admits fs where
  allowed f hf := h.allowed f (List.mem_append_left _ hf)
  apart := (List.pairwise_append.mp h.apart).1

/-- Where a construction was accepted, the pieces that stand on the board from the start are in
place, and there is a cell. -/
theorem admits_of_accepted (hc : Found (l.resources s) target (Ascending.ofList l.declared) c)
    (hb : l.accepted? (l.board.build (some l.grid) c) = some b) :
    l.Admits l.board.footprints ∧ ∃ cell, l.grid.inBounds cell = true := by
  obtain ⟨hbuild, hvalid⟩ := accepted?_eq_some_iff.mp hb
  have hadmits := (isValid_layout_iff.mp hvalid).1
  rcases Board.build_cases (some l.grid) (extensible_board l) (isKey_of_mem_board l)
    (supports_of_found hc) with
    ⟨-, b', qs, root, added, hbuild', -, hwired, hfurnished⟩ | ⟨-, b', _, hbuild', -⟩
  swap
  · exact absurd (hbuild'.symm.trans hbuild) (by simp)
  obtain rfl : b' = b := (Built.mk.inj (Except.ok.inj (hbuild'.symm.trans hbuild))).1
  rw [hfurnished.footprints] at hadmits
  have hbase := hadmits.of_append
  refine ⟨hbase, ?_⟩
  cases hgoal : l.board.goal with
  | some g =>
    obtain ⟨p, hp, -⟩ := (extensible_board l).wellFormed.goal g hgoal
    obtain ⟨q, -, -, hposition⟩ := exists_cell_of_mem_board (Board.mem_of_piece? hp)
    have hon := (hbase.allowed p.footprint (List.mem_map_of_mem (Board.mem_of_piece? hp))).1
    rw [Piece.footprint, hposition] at hon
    exact ⟨q.cell, hon⟩
  | none =>
    cases hwired with
    | there hg => exact absurd (hgoal.symm.trans hg) (by simp)
    | added =>
      obtain ⟨cells, hstand⟩ := hfurnished.cells
      obtain ⟨cell, -, hvacant⟩ := hstand.exists_cell
        (List.mem_append_right _ (List.mem_singleton.mpr rfl))
      exact ⟨cell, hvacant.inBounds _ rfl⟩

/-! ### A larger budget -/

theorem admits_withLimit {fs : List (RuleKind × Position)} (h : l.Admits fs) :
    (l.withLimit limit).Admits fs := ⟨h.allowed, h.apart⟩

/-- The cells do not depend on the limit. -/
theorem build_withLimit (l : Draft) (limit : Option PieceLimit) (b : Board) (c : Construction) :
    b.build (some (l.withLimit limit).grid) c = b.build (some l.grid) c := by
  have hcells : ∀ taken wanted, freeCell (some (l.withLimit limit).grid) taken wanted =
      freeCell (some l.grid) taken wanted := fun _ _ => rfl
  exact Board.build_congr hcells b c

theorem within_room (h : PieceLimit.Within l.grid.limit limit) :
    Room.Within (some l.room) (some (l.withLimit limit).room) := by
  rintro _ ⟨⟩
  refine ⟨_, rfl, ?_⟩
  have hcells := room_le_cells l
  have hcount : (l.withLimit limit).count = limit.bind (·.count) := rfl
  rw [room_eq (l.withLimit limit), hcount]
  cases hk : limit.bind (·.count) with
  | none =>
    show l.room ≤ l.grid.width * l.grid.height - _
    exact Int.le_sub_right_of_add_le hcells
  | some k' =>
    obtain ⟨k, hk, hle⟩ := h k' hk
    have := room_le_count hk
    show l.room ≤ min (l.grid.width * l.grid.height - _) (k' - _)
    exact le_min (Int.le_sub_right_of_add_le hcells) (Int.le_sub_right_of_add_le (this.trans hle))

/-- A level allows what it allowed with a smaller budget. -/
theorem isValid_layout_withLimit (h : PieceLimit.Within l.grid.limit limit)
    (hvalid : (l.layout b).isValid = true) : ((l.withLimit limit).layout b).isValid = true := by
  obtain ⟨hadmits, hcount⟩ := isValid_layout_iff.mp hvalid
  refine isValid_layout_iff.mpr ⟨admits_withLimit hadmits, fun k' hk' => ?_⟩
  obtain ⟨k, hk, hle⟩ := h k' hk'
  exact (hcount k hk).trans hle

/-- The search for the target runs out of goals. -/
def Exhausts (l : Draft) (s : SearchSettings) (target : Formula) : Prop :=
  ∃ o, l.search s target = .ok o ∧ o.exhausted = true

/-- What the search for the target finds is steady. -/
def FindsSteady (l : Draft) (s : SearchSettings) (target : Formula) : Prop :=
  ∀ o c, l.search s target = .ok o → o.found = some c →
    Steady (l.resources s) target (Ascending.ofList l.declared) c

/-- What the search for the target finds is firm. -/
def FindsFirm (l : Draft) (s : SearchSettings) (target : Formula) : Prop :=
  ∀ o c, l.search s target = .ok o → o.found = some c →
    Firm (l.resources s) target (Ascending.ofList l.declared) c

/-- A larger budget, or none, loses no solution with a steady construction, where the search in the
larger budget comes to an end. A solution with a firm construction is found again as it is. -/
theorem solution_withLimit (p : Puzzle) (s : SearchSettings) {limit : Option PieceLimit}
    (hlimit : PieceLimit.Within p.grid.limit limit) {b : Board}
    (h : (ofPuzzle p).solution s = .ok (some b))
    (hend : ¬ (ofPuzzle (p.withLimit limit)).Exhausts s p.target) :
    ((ofPuzzle p).FindsSteady s p.target →
      ∃ b', (ofPuzzle (p.withLimit limit)).solution s = .ok (some b')) ∧
    ((ofPuzzle p).FindsFirm s p.target →
      (ofPuzzle (p.withLimit limit)).solution s = .ok (some b)) := by
  have htarget : ((ofPuzzle p).withLimit limit).target = some p.target := rfl
  have hwiden : ofPuzzle (p.withLimit limit) = (ofPuzzle p).withLimit limit := rfl
  rw [hwiden, solution_eq_some_iff htarget]
  rw [hwiden] at hend
  simp only [solution_eq_some_iff htarget]
  obtain ⟨hroom, o, c, ho, hc, hb⟩ := (solution_eq_some_iff rfl).mp h
  -- the two searches differ in their room only
  have hwithin := within_room (l := ofPuzzle p) hlimit
  have hgap : ((ofPuzzle p).resources s).gap = false := by simp [resources, ofPuzzle]
  obtain ⟨o', ho'⟩ := exists_prove_of_within hgap hwithin ho hc
  have hend' : o'.exhausted = false := Bool.eq_false_iff.mpr fun hx => hend ⟨o', ho', hx⟩
  obtain ⟨hfirm, hsteady⟩ := found_of_within hwithin ho hc ho' hend'
  have hroom' : 0 ≤ ((ofPuzzle p).withLimit limit).room := by
    obtain ⟨k, hk, hle⟩ := hwithin _ rfl
    exact hroom.trans (Option.some.inj hk ▸ hle)
  obtain ⟨hbase, cell, hcell⟩ := admits_of_accepted (found_of_prove ho hc) hb
  constructor
  · intro hs
    obtain ⟨c', hc'⟩ := hsteady (hs o c ho hc)
    have hholds : Room.Holds (some ((ofPuzzle p).withLimit limit).room) c'.newPieces :=
      holds_of_prove (fun k hk => Option.some.inj hk ▸ hroom') ho' hc'
    simp only [Grid.inBounds, Bool.and_eq_true, decide_eq_true_eq] at hcell
    have hwidth : 0 ≤ ((ofPuzzle p).withLimit limit).grid.width :=
      hcell.1.1.1.trans hcell.1.1.2.le
    have hheight : 0 ≤ ((ofPuzzle p).withLimit limit).grid.height := hcell.1.2.trans hcell.2.le
    obtain ⟨b', hb'⟩ := exists_accepted (l := (ofPuzzle p).withLimit limit) hwidth hheight
      (admits_withLimit hbase) (found_of_prove ho' hc') (hholds _ rfl)
    exact ⟨b', hroom', o', c', ho', hc', hb'⟩
  · intro hf
    obtain ⟨hbuild, hvalid⟩ := accepted?_eq_some_iff.mp hb
    refine ⟨hroom', o', c, ho', hfirm (hf o c ho hc), accepted?_eq_some_iff.mpr ⟨?_, ?_⟩⟩
    · rw [build_withLimit]
      exact hbuild
    · exact isValid_layout_withLimit hlimit hvalid

theorem not_exhausts {o : Outcome} (h : l.search s target = .ok o) (hend : o.exhausted = false) :
    ¬ l.Exhausts s target := by
  rintro ⟨o', ho', hx⟩
  obtain rfl := Except.ok.inj (h.symm.trans ho')
  exact absurd hx (by simp [hend])

/-- A budget of so many pieces. -/
def piecesUpTo (k : Int) : Option PieceLimit := some ⟨some k, .int k⟩

/-- The first premise of the target offers a choice, but only one side of it can ever be found. -/
def oneSided : Puzzle :=
  ⟨"t", .text "T", .text "", .conj (.disj (.atom "P" []) (.atom "Q" [])) (.atom "Q" []),
    [.atom "Q" []], Palette.full, ⟨3, 3, piecesUpTo 5⟩, []⟩

def oneSidedConstruction : Construction :=
  .both (.rightOf (.atom "P" []) (.assume (.atom "Q" []))) (.assume (.atom "Q" []))

def oneSidedExample : Board :=
  ⟨some oneSided.target, some [some (.atom "Q" [])], some "t", Palette.full, some 5,
    [⟨1, .assumption, .cell (0, 0), { Params.empty with formula := some (.atom "Q" []) }, [], none⟩,
      ⟨2, .orIntro, .cell (1, 0), { Params.empty with
        other := some (.atom "P" []), side := Params.rightSide }, [some 1], none⟩,
      ⟨3, .assumption, .cell (0, 1), { Params.empty with formula := some (.atom "Q" []) }, [],
        none⟩,
      ⟨4, .andIntro, .cell (2, 0), Params.empty, [some 2, some 3], none⟩,
      ⟨5, .goal, .cell (2, 1), Params.empty, [some 4], none⟩], 6, 9⟩

/-- No piece and no premise is the other side. -/
theorem firm_oneSided : Firm ((ofPuzzle oneSided).resources .standard) oneSided.target
    [.atom "Q" []] oneSidedConstruction := by
  refine .both (.rightOf (fun d hd => ?_) .assume) .assume
  cases hd with
  | reuse hp => exact absurd hp.symm (Option.some_ne_none _)
  | assume _ _ hctx => exact absurd hctx (by decide)

theorem solution_withLimit_oneSided :
    PieceLimit.Within (piecesUpTo 5) none ∧
      (ofPuzzle oneSided).solution .standard = .ok (some oneSidedExample) ∧
      ¬ (ofPuzzle (oneSided.withLimit none)).Exhausts .standard oneSided.target ∧
      (ofPuzzle oneSided).FindsFirm .standard oneSided.target ∧
      (ofPuzzle (oneSided.withLimit none)).solution .standard = .ok (some oneSidedExample) := by
  have hlimit : PieceLimit.Within (piecesUpTo 5) none := fun _ hk => absurd hk (by simp)
  have hsolution : (ofPuzzle oneSided).solution .standard = .ok (some oneSidedExample) := by
    cbv
  have hend : ¬ (ofPuzzle (oneSided.withLimit none)).Exhausts .standard oneSided.target :=
    not_exhausts (o := ⟨some oneSidedConstruction, 5, false⟩) (by cbv) rfl
  have hfirm : (ofPuzzle oneSided).FindsFirm .standard oneSided.target := by
    intro o c ho hc
    have hsearch : (ofPuzzle oneSided).search .standard oneSided.target =
        .ok ⟨some oneSidedConstruction, 5, false⟩ := by
      cbv
    obtain rfl := Except.ok.inj (hsearch.symm.trans ho)
    obtain rfl := Option.some.inj hc
    exact firm_oneSided
  exact ⟨hlimit, hsolution, hend, hfirm,
    (solution_withLimit oneSided .standard hlimit hsolution hend).2 hfirm⟩

/-! ### A solution that is lost -/

/-- The first premise of the target follows from the second premise of the level, and in more pieces
from both premises; the search tries the second way first. -/
def trap (limit : Int) : Puzzle :=
  ⟨"t", .text "T", .text "",
    .conj (.disj (.conj (.atom "B" []) (.atom "C" [])) (.atom "B" [])) (.atom "C" []),
    [.atom "B" [], .atom "C" []], Palette.full, ⟨4, 4, piecesUpTo limit⟩, []⟩

def trapExample : Board :=
  ⟨some (trap 5).target, some [some (.atom "B" []), some (.atom "C" [])], some "t", Palette.full,
    some 5,
    [⟨1, .assumption, .cell (0, 0), { Params.empty with formula := some (.atom "B" []) }, [], none⟩,
      ⟨2, .orIntro, .cell (1, 0), { Params.empty with
        other := some (.conj (.atom "B" []) (.atom "C" [])), side := Params.rightSide }, [some 1],
        none⟩,
      ⟨3, .assumption, .cell (0, 1), { Params.empty with formula := some (.atom "C" []) }, [],
        none⟩,
      ⟨4, .andIntro, .cell (2, 0), Params.empty, [some 2, some 3], none⟩,
      ⟨5, .goal, .cell (3, 0), Params.empty, [some 4], none⟩], 6, 9⟩

/-- With one more piece in the budget the longer way fits, and the room that it takes is missing for
the rest: a larger budget may lose a solution although no search runs out of goals. -/
theorem exists_solution_lost : ¬ ∀ (p : Puzzle) (s : SearchSettings) (limit : Option PieceLimit),
    PieceLimit.Within p.grid.limit limit → ¬ (ofPuzzle p).Exhausts s p.target →
    ¬ (ofPuzzle (p.withLimit limit)).Exhausts s p.target →
    (∃ b, (ofPuzzle p).solution s = .ok (some b)) →
    ∃ b, (ofPuzzle (p.withLimit limit)).solution s = .ok (some b) := by
  intro h
  have hlimit : PieceLimit.Within (piecesUpTo 5) (piecesUpTo 6) := by
    rintro _ ⟨⟩
    exact ⟨5, rfl, by decide⟩
  have hsmall : (ofPuzzle (trap 5)).solution .standard = .ok (some trapExample) := by
    cbv
  have hlarge : (ofPuzzle ((trap 5).withLimit (piecesUpTo 6))).solution .standard = .ok none := by
    cbv
  obtain ⟨b, hb⟩ := h (trap 5) .standard (piecesUpTo 6) hlimit
    (not_exhausts (o := ⟨some (.both (.rightOf (.conj (.atom "B" []) (.atom "C" []))
      (.assume (.atom "B" []))) (.assume (.atom "C" []))), 7, false⟩) (by cbv) rfl)
    (not_exhausts (o := ⟨none, 6, false⟩) (by cbv) rfl) ⟨trapExample, hsmall⟩
  exact absurd (hlarge.symm.trans hb) (by simp)

end Level

end DeductionBoard
