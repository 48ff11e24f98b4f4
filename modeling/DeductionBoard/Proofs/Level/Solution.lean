import DeductionBoard.Proofs.Level.Room

/-! Solutions of a level. The room that a search is given is what the grid and the budget leave, so
nothing that is found has to be dropped: it fits on the board, and the level allows the result where
the pieces that stand there from the start are in place. Main result: whatever is found is built,
and every solution honours the level. -/

namespace DeductionBoard.Level

variable {l : Draft} {s : SearchSettings} {b : Board} {built : Except EditError Built}

/-! ### What is found is built -/

/-- What it comes to when something that a search finds in the room of a level is built there. For a
target that is missing, an assumption without a formula is all that can be found. -/
inductive Builds (l : Draft) (s : SearchSettings) : Except EditError Built → Prop
  | construction {target : Formula} {o : Search.Outcome} {c : Construction} (hroom : 0 ≤ l.room)
      (ht : l.target = some target) (ho : l.search s target = .ok o) (hc : o.found = some c) :
      l.Builds s (l.board.build (some l.grid) c)
  | blank (hroom : 0 ≤ l.room) (ht : l.target = none)
      (hfound : Search.provesBlank (l.resources s) (Search.depthLimit s) (some l.room) = .ok true) :
      l.Builds s (l.board.buildBlank (some l.grid))

/-- A solution is what is built, if the level allows it. -/
theorem solution_eq_some_iff_builds :
    l.solution s = .ok (some b) ↔ ∃ built, l.Builds s built ∧ l.accepted? built = some b := by
  cases ht : l.target with
  | some target =>
    rw [solution_eq_some_iff ht]
    constructor
    · rintro ⟨hroom, o, c, ho, hc, hb⟩
      exact ⟨_, .construction hroom ht ho hc, hb⟩
    · rintro ⟨_, hbuilds, hb⟩
      cases hbuilds with
      | construction hroom ht' ho hc =>
        obtain rfl := Option.some.inj (ht.symm.trans ht')
        exact ⟨hroom, _, _, ho, hc, hb⟩
      | blank _ ht' => exact absurd (ht.symm.trans ht') (by simp)
  | none =>
    rw [solution, ht]
    constructor
    · intro h
      split at h
      · exact absurd h (by simp)
      · next hroom =>
        obtain ⟨found, hfound, h⟩ := exists_of_map_eq_ok h
        split at h
        · next hyes => exact ⟨_, .blank (not_lt.mp hroom) ht (hyes ▸ hfound), h⟩
        · exact absurd h (by simp)
    · rintro ⟨_, hbuilds, hb⟩
      cases hbuilds with
      | construction _ ht' => exact absurd (ht.symm.trans ht') (by simp)
      | blank hroom _ hfound =>
        rw [if_neg (not_lt.mpr hroom)]
        dsimp only
        rw [hfound]
        exact congrArg Except.ok hb

/-- A missing target is found by assuming a missing premise for it, which takes a piece. -/
theorem of_provesBlank {r : Search.Resources} {depth : Search.Limit} {k : Int}
    (h : Search.provesBlank r depth (some k) = .ok true) :
    (r.gap = true ∧ r.palette.contains .assumption = true) ∧ 1 ≤ k := by
  have hroom : ¬ Search.Room.isUsedUp (some k) = true → 1 ≤ k := by
    simp [Search.Room.isUsedUp]
  have hleaf : ∀ {skip : Bool}, (if skip = true then Except.error Defect.illTyped
      else .ok (r.gap && r.palette.contains .assumption)) = .ok true →
      r.gap = true ∧ r.palette.contains .assumption = true := by
    intro skip hok
    split at hok
    · exact absurd hok (by simp)
    · exact Bool.and_eq_true_iff.mp (Except.ok.inj hok)
  rw [Search.provesBlank.eq_def] at h
  split at h
  · exact absurd h (by simp)
  · split at h
    · exact absurd h (by simp)
    · next hstop => exact ⟨hleaf h, hroom fun hused => hstop (.inr hused)⟩
  · split at h
    · exact absurd h (by simp)
    · next hstop => exact ⟨hleaf h, hroom hstop⟩

/-- What is found fits on the board of the level. -/
theorem Builds.exists_fits (h : l.Builds s built) (hwidth : 0 ≤ l.grid.width)
    (hheight : 0 ≤ l.grid.height) : ∃ b, built = .ok ⟨b, true⟩ := by
  cases h with
  | construction hroom _ ho hc =>
    have hholds := Search.holds_of_prove (fun k hk => Option.some.inj hk ▸ hroom) ho hc
    exact exists_build_of_room hwidth hheight (Search.found_of_prove ho hc) (hholds _ rfl)
  | blank _ _ hfound =>
    rcases Board.buildBlank_cases (some l.grid) (extensible_board l) with
      ⟨-, b, _, _, hbuild, -⟩ | ⟨hfull, -⟩
    · exact ⟨b, hbuild⟩
    · have hone := (of_provesBlank hfound).2
      exact absurd (hasVacancies_of_room hwidth hheight (n := 1) hone) hfull

/-- What fits on the board of the level enlarges it within its room. -/
theorem Builds.exists_enlarges (h : l.Builds s built) (hb : built = .ok ⟨b, true⟩) :
    ∃ n : Nat, (n : Int) ≤ l.room ∧ l.Enlarges n b := by
  cases h with
  | @construction target o c hroom ht ho hc =>
    have hholds := Search.holds_of_prove (fun k hk => Option.some.inj hk ▸ hroom) ho hc
    exact ⟨c.newPieces, hholds _ rfl, enlarges_of_build (Search.found_of_prove ho hc) hb⟩
  | blank _ _ hfound =>
    obtain ⟨⟨-, hassumption⟩, hone⟩ := of_provesBlank hfound
    rcases Board.buildBlank_cases (some l.grid) (extensible_board l) with
      ⟨-, b', q, added, hbuild, hq, hwired, hfurnished⟩ | ⟨-, b', _, hbuild, -⟩
    · obtain rfl : b' = b := (Built.mk.inj (Except.ok.inj (hbuild.symm.trans hb))).1
      obtain ⟨goals, rfl, hgoals⟩ := hwired.exists_goals
      refine ⟨1, hone, [q], goals, hfurnished, rfl, ?_, hgoals⟩
      exact List.forall_mem_singleton.mpr (hq.kind ▸ hassumption)
    · exact absurd (hbuild.symm.trans hb) (by simp)

/-- A solution enlarges the board of its level, and the level allows it. -/
theorem exists_enlarges_of_solution (h : l.solution s = .ok (some b)) :
    (∃ n, l.Enlarges n b) ∧ (l.layout b).isValid = true := by
  obtain ⟨built, hbuilds, haccepted⟩ := solution_eq_some_iff_builds.mp h
  obtain ⟨hbuilt, hvalid⟩ := accepted?_eq_some_iff.mp haccepted
  obtain ⟨n, -, henlarges⟩ := hbuilds.exists_enlarges hbuilt
  exact ⟨⟨n, henlarges⟩, hvalid⟩

/-! ### Levels whose pieces are in place -/

/-- The pieces that stand on the board from the start do so inside the grid, each on a cell of its
own. -/
structure InPlace {F : Type} (l : Level F) : Prop where
  inBounds : ∀ q ∈ l.pieces, l.grid.inBounds q.cell = true
  apart : (l.pieces.map Placement.cell).Nodup

theorem inPlace_iff_admits : l.InPlace ↔ l.Admits l.board.footprints := by
  rw [footprints_board]
  constructor
  · intro h
    constructor
    · intro f hf
      obtain ⟨q, hq, rfl⟩ := List.mem_map.mp hf
      refine ⟨h.inBounds q hq, ?_⟩
      rw [allows, Bool.or_eq_true]
      exact .inr (List.any_eq_true.mpr ⟨q, hq, decide_eq_true rfl⟩)
    · refine List.pairwise_map.mpr ((List.pairwise_map.mp h.apart).imp fun {q q'} hne => ?_)
      simpa [Position.alike] using hne
  · intro h
    constructor
    · exact fun q hq => (h.allowed _ (List.mem_map_of_mem hq)).1
    · refine List.pairwise_map.mpr ((List.pairwise_map.mp h.apart).imp fun {q q'} hne => ?_)
      simpa [Position.alike] using hne

/-! ### What a solution honours -/

theorem positions_eq_map_cell {ps : List Piece} (h : ∀ p ∈ ps, ∃ cell, p.position = .cell cell) :
    ps.map Piece.position = (ps.filterMap (·.position.cell?)).map .cell := by
  induction ps with
  | nil => rfl
  | cons p ps ih =>
    obtain ⟨⟨cell, hcell⟩, hps⟩ := List.forall_mem_cons.mp h
    rw [List.map_cons, ih hps, List.filterMap_cons, hcell]
    rfl

/-- A board that honours a level: the pieces that stood there stay, what is added is of the palette,
or a goal where there was none, the budget is kept, and every piece stands inside the grid on a cell
of its own. -/
structure Honours (l : Draft) (b : Board) : Prop where
  pieces : ∃ kept news goals, b.pieces = kept ++ (news ++ goals) ∧
    List.Forall₂ (Piece.Stays l.board.goal) l.board.pieces kept ∧
    (∀ q ∈ news, l.palette.contains q.kind = true) ∧
    goals.map Piece.kind = List.replicate l.board.missingGoals .goal
  budget : ∀ k, l.count = some k → (b.pieces.length : Int) ≤ k
  positions : b.pieces.map Piece.position = b.occupied.map .cell
  apart : b.occupied.Nodup
  inBounds : ∀ cell ∈ b.occupied, l.grid.inBounds cell = true

theorem Enlarges.honours (h : l.Enlarges n b) (hvalid : (l.layout b).isValid = true) :
    l.Honours b := by
  obtain ⟨hadmits, hbudget⟩ := isValid_layout_iff.mp hvalid
  obtain ⟨news, goals, hfurnished, -, hnews, hgoals⟩ := h
  obtain ⟨kept, hpieces, hkept⟩ := hfurnished.pieces
  have hcells : ∀ f ∈ b.footprints, ∃ cell, f.2 = .cell cell := by
    rw [hfurnished.footprints, footprints_board]
    intro f hf
    rcases List.mem_append.mp hf with hf | hf
    · obtain ⟨q, -, rfl⟩ := List.mem_map.mp hf
      exact ⟨q.cell, rfl⟩
    · obtain ⟨q, hq, rfl⟩ := List.mem_map.mp hf
      obtain ⟨_, hstand⟩ := hfurnished.cells
      obtain ⟨cell, hcell, -⟩ := hstand.exists_cell hq
      exact ⟨cell, hcell⟩
  have hpositions : b.pieces.map Piece.position = b.occupied.map .cell :=
    positions_eq_map_cell fun p hp => hcells p.footprint (List.mem_map_of_mem hp)
  have hfootprints : b.footprints.map Prod.snd = b.occupied.map .cell := by
    rw [← hpositions, Board.footprints, List.map_map]
    rfl
  refine ⟨⟨kept, news, goals, hpieces, hkept, hnews, hgoals⟩, hbudget, hpositions, ?_, ?_⟩
  · have hapart : (b.footprints.map Prod.snd).Pairwise fun p q => ¬ p.alike q = true :=
      List.pairwise_map.mpr hadmits.apart
    rw [hfootprints, List.pairwise_map] at hapart
    exact hapart.imp fun {c d} hne => by simpa [Position.alike] using hne
  · intro cell hcell
    have hmem : Position.cell cell ∈ b.footprints.map Prod.snd :=
      hfootprints ▸ List.mem_map_of_mem hcell
    obtain ⟨f, hf, heq⟩ := List.mem_map.mp hmem
    have hon := (hadmits.allowed f hf).1
    rw [heq] at hon
    exact hon

/-- Whatever a search finds in the room of a level fits on its board, it is a solution where the
pieces that stand there from the start are in place, and every solution honours the level. -/
theorem solution_exact (l : Draft) (hwidth : 0 < l.grid.width) (hheight : 0 < l.grid.height)
    (s : SearchSettings) :
    (∀ built, l.Builds s built →
      ∃ b, built = .ok ⟨b, true⟩ ∧ (l.InPlace → l.solution s = .ok (some b))) ∧
    ∀ b, l.solution s = .ok (some b) → l.Honours b := by
  constructor
  · intro built hbuilds
    obtain ⟨b, hbuilt⟩ := hbuilds.exists_fits hwidth.le hheight.le
    obtain ⟨n, hroom, henlarges⟩ := hbuilds.exists_enlarges hbuilt
    refine ⟨b, hbuilt, fun hplace => solution_eq_some_iff_builds.mpr ⟨built, hbuilds, ?_⟩⟩
    exact accepted?_eq_some_iff.mpr
      ⟨hbuilt, henlarges.isValid_layout hroom (inPlace_iff_admits.mp hplace)⟩
  · intro b hsolution
    obtain ⟨⟨_, henlarges⟩, hvalid⟩ := exists_enlarges_of_solution hsolution
    exact henlarges.honours hvalid

/-- Four cells and a budget of four: two new pieces and the goal have to go where one piece stands.
-/
def tightLevel : Puzzle :=
  ⟨"t", .text "T", .text "", .conj (.atom "P" []) (.atom "Q" []), [.atom "P" [], .atom "Q" []],
    Palette.full, ⟨2, 2, some ⟨some 4, .int 4⟩⟩,
    [⟨.assumption, (1, 1), { Params.empty with formula := some (.atom "P" []) }⟩]⟩

def tightConstruction : Construction :=
  .both (.reused 1 .assumption (.atom "P" []) [.atom "P" []]) (.assume (.atom "Q" []))

theorem solution_exact_tight :
    (ofPuzzle tightLevel).room = 2 ∧ tightConstruction.newPieces = 2 ∧
      ∃ b, (ofPuzzle tightLevel).Builds .standard (.ok ⟨b, true⟩) ∧
        (ofPuzzle tightLevel).solution .standard = .ok (some b) ∧
        (ofPuzzle tightLevel).Honours b := by
  have hsearch : (ofPuzzle tightLevel).search .standard tightLevel.target =
      .ok ⟨some tightConstruction, 3, false⟩ := by
    cbv
  have hbuilds : (ofPuzzle tightLevel).Builds .standard
      ((ofPuzzle tightLevel).board.build (some (ofPuzzle tightLevel).grid) tightConstruction) :=
    .construction (by decide) rfl hsearch rfl
  have hplace : (ofPuzzle tightLevel).InPlace := ⟨by decide, by decide⟩
  obtain ⟨hbuilt, hhonours⟩ :=
    solution_exact (ofPuzzle tightLevel) (by decide) (by decide) .standard
  obtain ⟨b, hb, hsolution⟩ := hbuilt _ hbuilds
  exact ⟨by decide, rfl, b, hb ▸ hbuilds, hsolution hplace, hhonours b (hsolution hplace)⟩

end DeductionBoard.Level
