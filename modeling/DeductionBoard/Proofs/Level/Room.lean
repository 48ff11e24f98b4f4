import DeductionBoard.Proofs.Search.Example
import DeductionBoard.Proofs.Search.Layout
import DeductionBoard.Proofs.Search.Limits

/-! The room of a level. It is just what the grid and the budget leave for new pieces: where the
pieces that stand on the board from the start are in place, whatever a search finds in that room is
built, and the level allows the result. -/

namespace DeductionBoard.Level

variable {F : Type} {b : Board} {c : Construction} {n : Nat}

/-! ### Layouts without errors -/

/-- Footprints that a level allows: on the grid, by rules that are available, no two at one place.
-/
structure Admits (l : Level F) (fs : List (RuleKind × Position)) : Prop where
  allowed : ∀ f ∈ fs, l.grid.hasOn f.2 = true ∧ l.allows f.1 = true
  apart : fs.Pairwise fun f g => ¬ f.2.alike g.2 = true

theorem layoutErrorsFrom_eq_nil_iff {l : Level F} {before ps : List Piece} :
    l.layoutErrorsFrom before ps = [] ↔
      (∀ q ∈ before, ∀ p ∈ ps, ¬ q.position.alike p.position = true) ∧
        l.Admits (ps.map Piece.footprint) := by
  induction ps generalizing before with
  | nil =>
    refine ⟨fun _ => ⟨fun _ _ p hp => absurd hp (by simp), ⟨fun f hf => absurd hf (by simp), .nil⟩⟩,
      fun _ => rfl⟩
  | cons p ps ih =>
    cases hfind : before.find? fun q => q.position.alike p.position with
    | some q =>
      have halike : q.position.alike p.position = true :=
        List.find?_some (p := fun q : Piece => q.position.alike p.position) hfind
      have hoverlap : ¬ ∀ q ∈ before, ∀ p' ∈ p :: ps, ¬ q.position.alike p'.position = true :=
        fun h => h q (List.mem_of_find?_eq_some hfind) p List.mem_cons_self halike
      refine ⟨fun h => ?_, fun h => absurd h.1 hoverlap⟩
      simp [layoutErrorsFrom, hfind] at h
    | none =>
      have hbefore := List.find?_eq_none.mp hfind
      simp only [layoutErrorsFrom, hfind, List.append_eq_nil_iff, ite_eq_left_iff, List.cons_ne_nil,
        imp_false, not_not, and_true, ih]
      constructor
      · rintro ⟨⟨hon, hallows⟩, hrest, hallowed, hapart⟩
        refine ⟨fun q hq => List.forall_mem_cons.mpr ⟨hbefore q hq,
          hrest q (List.mem_append_left _ hq)⟩, List.forall_mem_cons.mpr ⟨⟨hon, hallows⟩, hallowed⟩,
          List.pairwise_cons.mpr ⟨fun f hf => ?_, hapart⟩⟩
        obtain ⟨q, hq, rfl⟩ := List.mem_map.mp hf
        exact hrest p (List.mem_append_right _ (List.mem_singleton.mpr rfl)) q hq
      · rintro ⟨hrest, hallowed, hapart⟩
        obtain ⟨hself, hallowed⟩ := List.forall_mem_cons.mp hallowed
        obtain ⟨hfirst, hapart⟩ := List.pairwise_cons.mp hapart
        refine ⟨hself, fun q hq r hr => ?_, hallowed, hapart⟩
        rcases List.mem_append.mp hq with hq | hq
        · exact hrest q hq r (List.mem_cons_of_mem _ hr)
        · rw [List.mem_singleton.mp hq]
          exact hfirst _ (List.mem_map_of_mem hr)

/-- The number of pieces that the budget allows. -/
def count (l : Level F) : Option Int := l.grid.limit.bind (·.count)

theorem overfullErrors_eq_nil_iff {l : Level F} :
    l.overfullErrors n = [] ↔ ∀ k, l.count = some k → (n : Int) ≤ k := by
  rw [overfullErrors, count]
  cases l.grid.limit with
  | none => simp
  | some limit =>
    cases hcount : limit.count with
    | none => simp [PieceLimit.isExceeded, hcount]
    | some k => simp [PieceLimit.isExceeded, hcount]

theorem isValid_layout_iff {l : Level F} : (l.layout b).isValid = true ↔
    l.Admits b.footprints ∧ ∀ k, l.count = some k → (b.pieces.length : Int) ≤ k := by
  rw [LayoutReport.isValid, layout, List.isEmpty_iff, List.append_eq_nil_iff,
    layoutErrorsFrom_eq_nil_iff, overfullErrors_eq_nil_iff]
  exact and_congr_left' (and_iff_right fun _ hq => absurd hq (by simp))

/-- Pieces on vacant cells are added. -/
theorem Admits.furnished {l : Level F} {b' : Board} {added : List Piece} (h : l.Admits b.footprints)
    (hcells : ∀ p ∈ b.pieces, ∃ cell, p.position = .cell cell)
    (hb' : b.Furnished (some l.grid) added b') (hallows : ∀ q ∈ added, l.allows q.kind = true) :
    l.Admits b'.footprints := by
  obtain ⟨cells, hstand⟩ := hb'.cells
  rw [hb'.footprints]
  constructor
  · intro f hf
    rcases List.mem_append.mp hf with hf | hf
    · exact h.allowed f hf
    · obtain ⟨q, hq, rfl⟩ := List.mem_map.mp hf
      obtain ⟨cell, hposition, hvacant⟩ := hstand.exists_cell hq
      exact ⟨by rw [Piece.footprint, hposition]; exact hvacant.inBounds _ rfl, hallows q hq⟩
  · rw [List.pairwise_append]
    refine ⟨h.apart, ?_, fun f hf g hg => ?_⟩
    · have hpositions : (added.map Piece.position).Pairwise fun p q => ¬ p.alike q = true := by
        rw [hstand.positions, List.pairwise_map]
        exact hstand.nodup.imp fun {c d} hne => by simpa [Position.alike] using hne
      exact List.pairwise_map.mpr (List.pairwise_map.mp hpositions)
    · obtain ⟨p, hp, rfl⟩ := List.mem_map.mp hf
      obtain ⟨q, hq, rfl⟩ := List.mem_map.mp hg
      obtain ⟨cell, hcell⟩ := hcells p hp
      obtain ⟨cell', hcell', hvacant⟩ := hstand.exists_cell hq
      rw [Piece.footprint, Piece.footprint, hcell, hcell']
      simp only [Position.alike, decide_eq_true_eq]
      rintro rfl
      exact hvacant.free (List.mem_filterMap.mpr ⟨p, hp, by rw [hcell]; rfl⟩)

/-! ### The board of a level -/

section Draft

variable {l : Draft} {s : SearchSettings} {goal : Formula} {ctx : List Formula}

theorem footprints_foldl_add (qs : List Placement) (b : Board) :
    (qs.foldl (fun b q => b.add q.kind (.cell q.cell) q.params) b).footprints =
      b.footprints ++ qs.map fun q => (q.kind, .cell q.cell) := by
  induction qs generalizing b with
  | nil => exact (List.append_nil _).symm
  | cons q qs ih =>
    rw [List.foldl_cons, ih, show (b.add q.kind (.cell q.cell) q.params).footprints =
      b.footprints ++ [(q.kind, .cell q.cell)] from List.map_append, List.append_assoc]
    rfl

theorem footprints_board (l : Draft) :
    l.board.footprints = l.pieces.map fun q => (q.kind, .cell q.cell) :=
  footprints_foldl_add l.pieces _

theorem exists_cell_of_mem_board {p : Piece} (hp : p ∈ l.board.pieces) :
    ∃ q ∈ l.pieces, p.kind = q.kind ∧ p.position = .cell q.cell := by
  have hmem : p.footprint ∈ l.board.footprints := List.mem_map_of_mem hp
  rw [footprints_board] at hmem
  obtain ⟨q, hq, heq⟩ := List.mem_map.mp hmem
  obtain ⟨hk, hposition⟩ := Prod.mk.inj heq
  exact ⟨q, hq, hk.symm, hposition.symm⟩

theorem isKey_of_mem_board (l : Draft) : ∀ p ∈ l.board.pieces, p.position.isKey = true := by
  intro p hp
  obtain ⟨q, -, -, hposition⟩ := exists_cell_of_mem_board hp
  rw [hposition]
  rfl

theorem extensible_board (l : Draft) : l.board.Extensible := by
  have hboard : l.board.WellFormed ∧ ∀ j i, ¬ l.board.Feeds j i := by
    refine List.foldlRecOn (motive := fun b : Board => b.WellFormed ∧ ∀ j i, ¬ b.Feeds j i)
      l.pieces _ ?_ fun b hb q _ => ?_
    · have hempty := Board.untouched_empty l.target (some l.premises) (some l.id) l.palette
      exact ⟨hempty.healthy.wellFormed, hempty.unwired⟩
    · exact ⟨hb.1.add _ _ _, Board.not_feeds_add hb.1 hb.2 _ _ _⟩
  exact ⟨hboard.1, fun g _ => hboard.2 g⟩

/-- What a search reuses on the board of a level is an assumption that stands there. -/
theorem supports_of_found (h : Search.Found (l.resources s) goal ctx c) : l.board.Supports c := by
  intro d hd i hi
  obtain ⟨goal', ctx', hfound⟩ := Construction.exists_found_of_mem_postOrder h hd
  cases hfound with
  | @reuse _ _ e hlookup _ =>
    obtain rfl := Option.some.inj hi
    obtain ⟨p, hp, hk, -, rfl⟩ := exists_piece_of_lookup hlookup
    have hwf := (extensible_board l).wellFormed
    have hpiece := Board.piece?_of_mem hwf.nodup hp
    obtain ⟨q, -, -, hposition⟩ := exists_cell_of_mem_board hp
    refine ⟨fun hgoal => ?_, p, q.cell, hpiece, by rw [hposition]; rfl⟩
    obtain ⟨p', hp', hk'⟩ := hwf.goal p.id hgoal
    obtain rfl := Option.some.inj (hpiece.symm.trans hp')
    exact absurd (hk.symm.trans hk') (by simp)
  | _ => exact absurd hi (by simp [Construction.piece?])

/-- The pieces that a search adds to a level are of its palette. -/
theorem contains_of_becomes (h : Search.Found (l.resources s) goal ctx c) {qs : List Piece}
    {root : PieceId} (hc : c.Becomes qs root) : ∀ q ∈ qs, l.palette.contains q.kind = true := by
  intro q hq
  have hmem : q.kind ∈ c.steps.map Construction.kind := hc.kinds ▸ List.mem_map_of_mem hq
  obtain ⟨d, hd, hk⟩ := List.mem_map.mp hmem
  obtain ⟨goal', ctx', hfound⟩ :=
    Construction.exists_found_of_mem_postOrder h (List.mem_of_mem_filter hd)
  exact hk ▸ (hfound.of_new (Construction.piece?_of_mem_steps hd)).1

/-! ### Room -/

theorem room_eq (l : Draft) :
    l.room = match l.count with
      | some k =>
        min (l.grid.width * l.grid.height - (l.board.pieces.length + l.board.missingGoals))
          (k - (l.board.pieces.length + l.board.missingGoals))
      | none => l.grid.width * l.grid.height - (l.board.pieces.length + l.board.missingGoals) := by
  have hmissing : ((l.board.missingGoals : Nat) : Int) = if l.board.goal.isSome then 0 else 1 := by
    rw [Board.missingGoals]
    split <;> rfl
  rw [hmissing]
  rfl

theorem room_le_cells (l : Draft) :
    l.room + (l.board.pieces.length + l.board.missingGoals) ≤ l.grid.width * l.grid.height := by
  rw [room_eq]
  cases l.count with
  | none => dsimp only; omega
  | some k => dsimp only; omega

theorem room_le_count {k : Int} (h : l.count = some k) :
    l.room + (l.board.pieces.length + l.board.missingGoals) ≤ k := by
  rw [room_eq, h]
  dsimp only
  omega

/-- Pieces for which there is room find vacant cells, and so does the goal. -/
theorem hasVacancies_of_room (hwidth : 0 ≤ l.grid.width) (hheight : 0 ≤ l.grid.height)
    (hroom : (n : Int) ≤ l.room) :
    HasVacancies (some l.grid) l.board.occupied (n + l.board.missingGoals) := by
  intro g hg
  obtain rfl := Option.some.inj hg
  have hcells := l.grid.length_cells_le l.board.occupied
  have hoccupied : l.board.occupied.length ≤ l.board.pieces.length := List.length_filterMap_le _ _
  have hsize : (l.grid.cells.length : Int) = l.grid.width * l.grid.height := by
    rw [Grid.length_cells, Nat.cast_mul, Int.toNat_of_nonneg hwidth, Int.toNat_of_nonneg hheight]
  have hle := room_le_cells l
  omega

/-- The board of a level with `n` more pieces of the palette, and with a goal if it had none; all of
them stand on vacant cells of their own. -/
def Enlarges (l : Draft) (n : Nat) (b : Board) : Prop :=
  ∃ news goals, l.board.Furnished (some l.grid) (news ++ goals) b ∧ news.length = n ∧
    (∀ q ∈ news, l.palette.contains q.kind = true) ∧
    goals.map Piece.kind = List.replicate l.board.missingGoals .goal

theorem Enlarges.length_eq (h : l.Enlarges n b) :
    b.pieces.length = l.board.pieces.length + (n + l.board.missingGoals) := by
  obtain ⟨news, goals, hfurnished, hlength, -, hgoals⟩ := h
  have hpieces := congrArg List.length hfurnished.footprints
  have hgoals := congrArg List.length hgoals
  simp only [Board.footprints, List.length_map, List.length_append, List.length_replicate] at *
  omega

/-- The level allows what is added in its room, where it allows what stood there. -/
theorem Enlarges.isValid_layout (h : l.Enlarges n b) (hroom : (n : Int) ≤ l.room)
    (hbase : l.Admits l.board.footprints) : (l.layout b).isValid = true := by
  have hlength := h.length_eq
  obtain ⟨news, goals, hfurnished, -, hnews, hgoals⟩ := h
  have hcells : ∀ p ∈ l.board.pieces, ∃ cell, p.position = .cell cell := by
    intro p hp
    obtain ⟨q, -, -, hposition⟩ := exists_cell_of_mem_board hp
    exact ⟨q.cell, hposition⟩
  have hallows : ∀ q ∈ news ++ goals, l.allows q.kind = true := by
    intro q hq
    rcases List.mem_append.mp hq with hq | hq
    · rw [allows, hnews q hq, Bool.true_or, Bool.true_or]
    · have hk : q.kind = .goal := List.eq_of_mem_replicate (hgoals ▸ List.mem_map_of_mem hq)
      rw [hk, allows, decide_eq_true rfl, Bool.or_true, Bool.true_or]
  refine isValid_layout_iff.mpr ⟨hbase.furnished hcells hfurnished hallows, fun k hk => ?_⟩
  have := room_le_count hk
  omega

/-- What fits on the board of a level enlarges it. -/
theorem enlarges_of_build (hc : Search.Found (l.resources s) goal ctx c)
    (hbuild : l.board.build (some l.grid) c = .ok ⟨b, true⟩) : l.Enlarges c.newPieces b := by
  rcases Board.build_cases (some l.grid) (extensible_board l) (isKey_of_mem_board l)
    (supports_of_found hc) with
    ⟨-, b', qs, root, added, hbuild', hbecomes, hwired, hfurnished⟩ | ⟨-, b', _, hbuild', -⟩
  · obtain rfl : b' = b := (Built.mk.inj (Except.ok.inj (hbuild'.symm.trans hbuild))).1
    obtain ⟨goals, rfl, hgoals⟩ := hwired.exists_goals
    exact ⟨qs, goals, hfurnished, hbecomes.length_eq, contains_of_becomes hc hbecomes, hgoals⟩
  · exact absurd (hbuild'.symm.trans hbuild) (by simp)

/-- What is found in the room of a level is built on its board. -/
theorem exists_build_of_room (hwidth : 0 ≤ l.grid.width) (hheight : 0 ≤ l.grid.height)
    (hc : Search.Found (l.resources s) goal ctx c) (hroom : (c.newPieces : Int) ≤ l.room) :
    ∃ b', l.board.build (some l.grid) c = .ok ⟨b', true⟩ := by
  rcases Board.build_cases (some l.grid) (extensible_board l) (isKey_of_mem_board l)
    (supports_of_found hc) with ⟨-, b', _, _, _, hbuild, -⟩ | ⟨hfull, -⟩
  · exact ⟨b', hbuild⟩
  · exact absurd (hasVacancies_of_room hwidth hheight hroom) hfull

/-- The level allows what is found in its room, where it allows what stood there. -/
theorem exists_accepted (hwidth : 0 ≤ l.grid.width) (hheight : 0 ≤ l.grid.height)
    (hbase : l.Admits l.board.footprints) (hc : Search.Found (l.resources s) goal ctx c)
    (hroom : (c.newPieces : Int) ≤ l.room) :
    ∃ b', l.accepted? (l.board.build (some l.grid) c) = some b' := by
  obtain ⟨b', hbuild⟩ := exists_build_of_room hwidth hheight hc hroom
  exact ⟨b', accepted?_eq_some_iff.mpr
    ⟨hbuild, (enlarges_of_build hc hbuild).isValid_layout hroom hbase⟩⟩

end Draft

end DeductionBoard.Level
