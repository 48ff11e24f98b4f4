import DeductionBoard.Proofs.Search.Cells
import DeductionBoard.Proofs.Search.NextStep

/-! Where a construction comes to stand. Every node that is not on the board yet becomes a piece on
a free cell, wired to the pieces of its premises, whatever stands on the board and whether anything
is wrong there. What stands there stays as it is, but for the slot of the goal. Main result: a
construction is built if the grid has a free cell for each of its new pieces and for the goal, if
that has to be added; otherwise it does not fit. -/

namespace DeductionBoard

variable {b b' : Board} {i j : PieceId} {c d e : Construction} {grid : Option Grid} {n m : Nat}
  {q : Piece} {qs rs : List Piece} {ps : List PieceId} {taken cells : List Cell} {cell : Cell}

/-! ### New nodes -/

/-- The piece of a rule with the given parameters, wired to other pieces in slot order. -/
structure Piece.Applies (q : Piece) (kind : RuleKind) (params : Params) (ps : List PieceId) :
    Prop where
  kind : q.kind = kind
  params : q.params = params
  slots : q.slots = ps.map some

namespace Construction

/-- The nodes that become pieces, each after its premises. -/
def steps (c : Construction) : List Construction := c.postOrder.filter fun d => d.piece?.isNone

theorem steps_of_new (hnew : c.piece? = none) : c.steps = c.premises.flatMap steps ++ [c] := by
  have hself : [c].filter (fun d => d.piece?.isNone) = [c] := by
    rw [List.filter_cons_of_pos (by rw [hnew]; rfl), List.filter_nil]
  rw [steps, postOrder_of_new hnew, List.filter_append, List.filter_flatMap, hself]
  rfl

theorem piece?_of_mem_steps (h : d ∈ c.steps) : d.piece? = none :=
  Option.isNone_iff_eq_none.mp (List.mem_filter.mp h).2

theorem newPieces_of_new (hnew : c.piece? = none) :
    c.newPieces = c.premises.foldr (·.newPieces + ·) 1 := by
  cases c with
  | reused => exact absurd hnew (by simp [piece?])
  | assume => rfl
  | _ =>
    simp only [newPieces, premises, List.foldr_cons, List.foldr_nil]
    omega

/-- The pieces that the new nodes become, each behind those of its premises and wired to them, and
the piece of the root. -/
inductive Becomes : Construction → List Piece → PieceId → Prop
  | reused {i : PieceId} {k : RuleKind} {f : Formula} {fs : List Formula} :
      Becomes (.reused i k f fs) [] i
  | leaf {c : Construction} {q : Piece} (hnew : c.piece? = none) (hc : c.premises = [])
      (hq : q.Applies c.kind c.params []) : Becomes c [q] q.id
  | above {c d : Construction} {qs : List Piece} {i : PieceId} {q : Piece} (hnew : c.piece? = none)
      (hc : c.premises = [d]) (hd : Becomes d qs i) (hq : q.Applies c.kind c.params [i]) :
      Becomes c (qs ++ [q]) q.id
  | aboveBoth {c d e : Construction} {qs rs : List Piece} {i j : PieceId} {q : Piece}
      (hnew : c.piece? = none) (hc : c.premises = [d, e]) (hd : Becomes d qs i)
      (he : Becomes e rs j) (hq : q.Applies c.kind c.params [i, j]) :
      Becomes c (qs ++ (rs ++ [q])) q.id

theorem Becomes.length_eq (h : c.Becomes qs i) : qs.length = c.newPieces := by
  induction h with
  | reused => rfl
  | leaf hnew hc _ => simp [newPieces_of_new hnew, hc]
  | above hnew hc _ _ ih => simp [newPieces_of_new hnew, hc, ih]
  | aboveBoth hnew hc _ _ _ ihd ihe => simp [newPieces_of_new hnew, hc, ihd, ihe]

theorem Becomes.kinds (h : c.Becomes qs i) : qs.map Piece.kind = c.steps.map kind := by
  induction h with
  | reused => rfl
  | leaf hnew hc hq => simp [steps_of_new hnew, hc, hq.kind]
  | above hnew hc _ hq ih => simp [steps_of_new hnew, hc, hq.kind, ih]
  | aboveBoth hnew hc _ _ hq ihd ihe => simp [steps_of_new hnew, hc, hq.kind, ihd, ihe]

end Construction

/-! ### Pieces that are added -/

/-- The rule of a piece and its position. -/
def Piece.footprint (p : Piece) : RuleKind × Position := (p.kind, p.position)

/-- Each of the pieces stands on the vacant cell of its own. -/
structure StandOn (grid : Option Grid) (taken : List Cell) (qs : List Piece) (cells : List Cell) :
    Prop where
  positions : qs.map Piece.position = cells.map .cell
  nodup : cells.Nodup
  vacant : ∀ cell ∈ cells, IsVacant grid taken cell

theorem StandOn.nil : StandOn grid taken [] [] :=
  ⟨rfl, List.nodup_nil, fun _ h => absurd h (by simp)⟩

theorem StandOn.exists_cell (h : StandOn grid taken qs cells) (hq : q ∈ qs) :
    ∃ cell, q.position = .cell cell ∧ IsVacant grid taken cell := by
  have hmem : q.position ∈ cells.map .cell := h.positions ▸ List.mem_map_of_mem hq
  obtain ⟨cell, hcell, hposition⟩ := List.mem_map.mp hmem
  exact ⟨cell, hposition.symm, h.vacant cell hcell⟩

theorem StandOn.snoc (h : StandOn grid taken qs cells)
    (hcell : IsVacant grid (cells.reverse ++ taken) cell) (hq : q.position = .cell cell) :
    StandOn grid taken (qs ++ [q]) (cells ++ [cell]) where
  positions := by simp [h.positions, hq]
  nodup := by
    have hfree := hcell.free
    rw [List.mem_append, List.mem_reverse, not_or] at hfree
    exact h.nodup.append (List.nodup_singleton _) (by simpa using hfree.1)
  vacant cell' hcell' := by
    rcases List.mem_append.mp hcell' with hcell' | hcell'
    · exact h.vacant cell' hcell'
    · rw [List.mem_singleton.mp hcell']
      exact ⟨fun hmem => hcell.free (List.mem_append_right _ hmem), hcell.inBounds⟩

/-- What a piece keeps: the slots of the goal may be filled anew, and every status be forgotten. -/
structure Piece.Stays (goal : Option PieceId) (p q : Piece) : Prop where
  id : q.id = p.id
  kind : q.kind = p.kind
  position : q.position = p.position
  params : q.params = p.params
  slots : goal ≠ some p.id → q.slots = p.slots

theorem Piece.Stays.refl (goal : Option PieceId) (p : Piece) : p.Stays goal p :=
  ⟨rfl, rfl, rfl, rfl, fun _ => rfl⟩

namespace Board

def footprints (b : Board) : List (RuleKind × Position) := b.pieces.map Piece.footprint

/-- The cells that pieces stand on. -/
def occupied (b : Board) : List Cell := b.pieces.filterMap (·.position.cell?)

/-- Pieces are added behind those of a board, on vacant cells, and those of the board stay. -/
structure Furnished (b : Board) (grid : Option Grid) (added : List Piece) (b' : Board) :
    Prop where
  pieces : ∃ kept, b'.pieces = kept ++ added ∧ List.Forall₂ (Piece.Stays b.goal) b.pieces kept
  nodup : b'.ids.Nodup
  cells : ∃ cells, StandOn grid b.occupied added cells

theorem Furnished.footprints {added : List Piece} (h : b.Furnished grid added b') :
    b'.footprints = b.footprints ++ added.map Piece.footprint := by
  obtain ⟨kept, hpieces, hkept⟩ := h.pieces
  have hsame : b.pieces.map Piece.footprint = kept.map Piece.footprint :=
    List.forall₂_eq_eq_eq ▸ List.forall₂_map_left_iff.mpr (List.forall₂_map_right_iff.mpr
      (hkept.imp fun p q hpq => by rw [Piece.footprint, Piece.footprint, hpq.kind, hpq.position]))
  rw [Board.footprints, Board.footprints, hpieces, List.map_append, hsame]

/-- The goal is wired to a piece; it is the one that was there, or it is added last. -/
inductive GoalWired (b b' : Board) (qs : List Piece) (root : PieceId) : List Piece → Prop
  | there {g : PieceId} {p : Piece} (hg : b.goal = some g) (hg' : b'.goal = some g)
      (hp : b'.piece? g = some p) (hslots : p.slots = [some root]) : GoalWired b b' qs root qs
  | added {q : Piece} (hg : b.goal = none) (hg' : b'.goal = some q.id)
      (hq : q.Applies .goal Params.empty [root]) : GoalWired b b' qs root (qs ++ [q])

/-- The number of goals that have to be added. -/
def missingGoals (b : Board) : Nat := if b.goal.isSome then 0 else 1

/-- What is added besides the pieces of a construction is the goal, where there was none. -/
theorem GoalWired.exists_goals {root : PieceId} {added : List Piece}
    (h : b.GoalWired b' qs root added) :
    ∃ goals, added = qs ++ goals ∧ goals.map Piece.kind = List.replicate b.missingGoals .goal := by
  cases h with
  | there hg => exact ⟨[], (List.append_nil _).symm, by simp [missingGoals, hg]⟩
  | @added q hg _ hq => exact ⟨[q], rfl, by simp [missingGoals, hg, hq.kind]⟩

/-! ### What a construction rests on -/

/-- A piece that a construction may rest on: it stands on a cell, and it is not the goal. -/
structure Holds (b : Board) (i : PieceId) : Prop where
  ne_goal : b.goal ≠ some i
  cell : ∃ p cell, b.piece? i = some p ∧ p.position.cell? = some cell

theorem Holds.usable (h : b.Holds i) : b.Usable i := by
  obtain ⟨p, _, hp, -⟩ := h.cell
  exact ⟨mem_ids_of_piece? hp, h.ne_goal⟩

/-- All pieces that a construction rests on may be rested on. -/
def Supports (b : Board) (c : Construction) : Prop :=
  ∀ d ∈ c.postOrder, ∀ i, d.piece? = some i → b.Holds i

theorem Supports.premises (h : b.Supports c) (he : e ∈ c.premises) : b.Supports e := by
  intro d hd i hi
  refine h d ?_ i hi
  cases hnew : c.piece? with
  | some j =>
    cases c with
    | reused => exact absurd he (by simp [Construction.premises])
    | _ => exact absurd hnew (by simp [Construction.piece?])
  | none =>
    rw [Construction.postOrder_of_new hnew]
    exact List.mem_append_left _ (List.mem_flatMap.mpr ⟨e, he, hd⟩)

end Board

namespace Site

variable {s s' s'' : Site} {a : Attempt} {next : Site → Standing → Attempt}
  {P Q : List Piece → PieceId → Prop} {kind : RuleKind} {params : Params}

/-! ### Pieces on the board -/

/-- A site with some pieces added to it, each on a vacant cell and on top of standing pieces. -/
inductive Laid (grid : Option Grid) (s : Site) : List Piece → Site → Prop
  | refl (row : Int) : Laid grid s [] ⟨s.board, s.occupied, row⟩
  | piece {qs : List Piece} {s' : Site} {kind : RuleKind} {params : Params} {cell : Cell}
      {ps : List PieceId} (h : Laid grid s qs s') (hps : ∀ j ∈ ps, s'.board.Usable j)
      (harity : ps.length = kind.arity) (hcell : IsVacant grid s'.occupied cell) (n : Nat)
      (row : Int) :
      Laid grid s (qs ++ [s'.board.pieceOn kind (.cell cell) params ps])
        ⟨s'.board.extended (s'.board.pieceOn kind (.cell cell) params ps) s'.board.goal n,
          cell :: s'.occupied, row⟩

/-- The row of the next leaf is of no account. -/
theorem Laid.withRow (h : Laid grid s qs s') (row : Int) :
    Laid grid s qs ⟨s'.board, s'.occupied, row⟩ := by
  cases h with
  | refl => exact .refl row
  | piece h hps harity hcell n => exact h.piece hps harity hcell n row

theorem Laid.trans (h : Laid grid s qs s') (h' : Laid grid s' rs s'') :
    Laid grid s (qs ++ rs) s'' := by
  induction h' with
  | refl row =>
    rw [List.append_nil]
    exact h.withRow row
  | piece _ hps harity hcell n row ih =>
    rw [← List.append_assoc]
    exact ih.piece hps harity hcell n row

theorem Laid.goal (h : Laid grid s qs s') : s'.board.goal = s.board.goal := by
  induction h with
  | refl => rfl
  | piece _ _ _ _ _ _ ih => exact ih

theorem Laid.pieces (h : Laid grid s qs s') : s'.board.pieces = s.board.pieces ++ qs := by
  induction h with
  | refl => rw [List.append_nil]
  | piece _ _ _ _ _ _ ih =>
    rw [← List.append_assoc, ← ih]
    rfl

theorem Laid.cache (h : Laid grid s qs s') : ∀ q ∈ qs, q.cache = none := by
  induction h with
  | refl => simp
  | piece _ _ _ _ _ _ ih =>
    intro q hq
    rcases List.mem_append.mp hq with hq | hq
    · exact ih q hq
    · rw [List.mem_singleton.mp hq]
      rfl

theorem Laid.extensible (h : Laid grid s qs s') (hs : s.board.Extensible) :
    s'.board.Extensible := by
  induction h with
  | refl => exact hs
  | piece _ hps harity _ n _ ih => exact ih.extended hps harity n

theorem Laid.usable (h : Laid grid s qs s') (hi : s.board.Usable i) : s'.board.Usable i := by
  induction h with
  | refl => exact hi
  | piece _ _ _ _ n _ ih => exact ih.extended n

theorem Laid.piece? {p : Piece} (h : Laid grid s qs s') (hp : s.board.piece? i = some p) :
    s'.board.piece? i = some p := by
  induction h with
  | refl => exact hp
  | piece _ _ _ _ _ _ ih => exact Board.piece?_extended_of_piece? ih

theorem Laid.supports (h : Laid grid s qs s') (hc : s.board.Supports c) : s'.board.Supports c := by
  intro d hd i hi
  obtain ⟨hne, p, cell, hp, hcell⟩ := hc d hd i hi
  exact ⟨h.goal ▸ hne, p, cell, h.piece? hp, hcell⟩

/-- Every piece takes a vacant cell. -/
theorem Laid.hasVacancies_iff (h : Laid grid s qs s') :
    HasVacancies grid s'.occupied n ↔ HasVacancies grid s.occupied (qs.length + n) := by
  induction h generalizing n with
  | refl => rw [List.length_nil, Nat.zero_add]
  | piece _ _ _ hcell _ _ ih =>
    rw [hasVacancies_cons hcell, ih, List.length_append, List.length_singleton]
    exact iff_of_eq (congrArg _ (by omega))

theorem Laid.standOn (h : Laid grid s qs s') :
    ∃ cells, s'.occupied = cells.reverse ++ s.occupied ∧ StandOn grid s.occupied qs cells := by
  induction h with
  | refl => exact ⟨[], rfl, .nil⟩
  | @piece qs s' kind params cell ps _ _ _ hcell n row ih =>
    obtain ⟨cells, hoccupied, hcells⟩ := ih
    exact ⟨cells ++ [cell], by simp [hoccupied], hcells.snoc (hoccupied ▸ hcell) rfl⟩

/-! ### Attempts -/

/-- What an attempt to add `n` pieces comes to: all of them are added, as `P` says of them and of
the piece that it comes to, if there are cells for them, and otherwise it breaks off. -/
inductive Settles (grid : Option Grid) (s : Site) (n : Nat) (P : List Piece → PieceId → Prop)
    (a : Attempt) : Prop
  | laid {s' : Site} {p : Standing} {qs : List Piece} (hcells : HasVacancies grid s.occupied n)
      (ha : a = .ok (s', some p)) (hlaid : Laid grid s qs s') (hlength : qs.length = n)
      (husable : s'.board.Usable p.piece) (hp : P qs p.piece)
  | short {s' : Site} {qs : List Piece} (hcells : ¬ HasVacancies grid s.occupied n)
      (ha : a = .ok (s', none)) (hlaid : Laid grid s qs s')

theorem Settles.imp (h : s.Settles grid n P a) (hPQ : ∀ qs i, P qs i → Q qs i) :
    s.Settles grid n Q a := by
  cases h with
  | laid hcells ha hlaid hlength husable hp =>
    exact .laid hcells ha hlaid hlength husable (hPQ _ _ hp)
  | short hcells ha hlaid => exact .short hcells ha hlaid

theorem settles_install {wanted : Cell} (hs : s.board.Extensible) (hkind : kind ≠ .goal)
    (hps : ∀ j ∈ ps, s.board.Usable j) (harity : ps.length = kind.arity) (row : Int) :
    s.Settles grid 1 (fun qs i => ∃ q, qs = [q] ∧ i = q.id ∧ q.Applies kind params ps)
      (install ⟨s.board, s.occupied, row⟩ grid kind params wanted ps) := by
  rw [install]
  rcases freeCell_spec grid s.occupied wanted with ⟨hnone, hfull⟩ | ⟨cell, hcell, hvacant, hroom⟩
  · rw [hnone]
    exact .short hfull rfl (.refl row)
  · obtain ⟨n, hn⟩ := Board.exists_wireAll_add hs.wellFormed kind (.cell cell) params
      (fun j hj => (hps j hj).mem) harity
    rw [if_neg fun hgoal => hkind hgoal.1] at hn
    rw [hcell]
    dsimp only
    rw [hn]
    exact .laid hroom rfl ((Laid.refl row).piece hps harity hvacant n row) rfl
      (hs.wellFormed.usable_pieceOn n) ⟨_, rfl, rfl, rfl, rfl, rfl⟩

theorem Settles.andThen (h : s.Settles grid n P a)
    (hnext : ∀ (s' : Site) p qs, Laid grid s qs s' → s'.board.Usable p.piece → P qs p.piece →
      s'.Settles grid m (fun rs => Q (qs ++ rs)) (next s' p)) :
    s.Settles grid (n + m) Q (a.andThen next) := by
  cases h with
  | @laid s' p qs hcells ha hlaid hlength husable hp =>
    have hroom : HasVacancies grid s'.occupied m ↔ HasVacancies grid s.occupied (n + m) := by
      rw [hlaid.hasVacancies_iff, hlength]
    rw [ha]
    cases hnext s' p qs hlaid husable hp with
    | laid hcells' ha' hlaid' hlength' husable' hq =>
      exact .laid (hroom.mp hcells') ha' (hlaid.trans hlaid')
        (by rw [List.length_append, hlength, hlength']) husable' hq
    | short hcells' ha' hlaid' =>
      exact .short (fun h => hcells' (hroom.mpr h)) ha' (hlaid.trans hlaid')
  | short hcells ha hlaid =>
    rw [ha]
    exact .short (fun h => hcells (h.mono (Nat.le_add_right _ _))) rfl hlaid

/-- One premise, and the node on top of it. -/
theorem Settles.above (h : s.Settles grid d.newPieces d.Becomes a) (hs : s.board.Extensible)
    (hnew : c.piece? = none) (hc : c.premises = [d]) :
    s.Settles grid c.newPieces c.Becomes (a.andThen fun s p => s.installAbove grid c p) := by
  have harity := c.length_premises hnew
  have hsize := c.newPieces_of_new hnew
  rw [hc] at harity hsize
  rw [hsize, List.foldr_cons, List.foldr_nil]
  refine h.andThen fun s' p qs hlaid hp hd => ?_
  refine (settles_install (hlaid.extensible hs) (c.kind_ne_goal hnew)
    (List.forall_mem_singleton.mpr hp) harity _).imp ?_
  rintro _ _ ⟨q, rfl, rfl, hq⟩
  exact .above hnew hc hd hq

/-- Two premises, and the node on top of them. -/
theorem Settles.aboveBoth {second : Site → Attempt} (h : s.Settles grid d.newPieces d.Becomes a)
    (hsecond : ∀ s' qs, Laid grid s qs s' → s'.Settles grid e.newPieces e.Becomes (second s'))
    (hs : s.board.Extensible) (hnew : c.piece? = none) (hc : c.premises = [d, e]) :
    s.Settles grid c.newPieces c.Becomes (a.andThen fun s p => (second s).andThen fun s q =>
      s.installAboveBoth grid c p q) := by
  have harity := c.length_premises hnew
  have hsize := c.newPieces_of_new hnew
  rw [hc] at harity hsize
  rw [hsize, List.foldr_cons, List.foldr_cons, List.foldr_nil]
  refine h.andThen fun s₁ p qs hlaid₁ hp hd => ?_
  refine (hsecond s₁ qs hlaid₁).andThen fun s₂ p' rs hlaid₂ hp' he => ?_
  have hpremises : ∀ j ∈ [p.piece, p'.piece], s₂.board.Usable j :=
    List.forall_mem_cons.mpr ⟨hlaid₂.usable hp, List.forall_mem_singleton.mpr hp'⟩
  refine (settles_install (hlaid₂.extensible (hlaid₁.extensible hs)) (c.kind_ne_goal hnew)
    hpremises harity _).imp ?_
  rintro _ _ ⟨q, rfl, rfl, hq⟩
  exact .aboveBoth hnew hc hd he hq

theorem settles_place (grid : Option Grid) (hs : s.board.Extensible) (hc : s.board.Supports c) :
    s.Settles grid c.newPieces c.Becomes (place grid s c) := by
  induction c generalizing s with
  | reused i k f fs =>
    have hholds := hc _ (List.mem_singleton.mpr rfl) i rfl
    obtain ⟨p, cell, hp, hcell⟩ := hholds.cell
    rw [place, hp]
    dsimp only
    rw [hcell]
    exact .laid (fun _ _ => Nat.zero_le _) rfl (.refl _) rfl hholds.usable .reused
  | assume f =>
    have hnone : ∀ j ∈ ([] : List PieceId), s.board.Usable j := fun _ hj => absurd hj (by simp)
    refine (settles_install (s := s) hs ((Construction.assume f).kind_ne_goal rfl) hnone rfl
      (s.nextRow + 1)).imp ?_
    rintro _ _ ⟨q, rfl, rfl, hq⟩
    exact .leaf rfl rfl hq
  | both l r ihl ihr =>
    exact (ihl hs (hc.premises (by simp [Construction.premises]))).aboveBoth
      (fun s' qs hlaid => ihr (hlaid.extensible hs)
        (hlaid.supports (hc.premises (by simp [Construction.premises])))) hs rfl rfl
  | refute h l r ihl ihr =>
    exact (ihl hs (hc.premises (by simp [Construction.premises]))).aboveBoth
      (fun s' qs hlaid => ihr (hlaid.extensible hs)
        (hlaid.supports (hc.premises (by simp [Construction.premises])))) hs rfl rfl
  | leftOf d _ ih | rightOf _ d ih | implies _ d ih =>
    exact (ih hs (hc.premises (by simp [Construction.premises]))).above hs rfl rfl
  | quantify q _ _ _ d ih =>
    exact (ih hs (hc.premises (by simp [Construction.premises]))).above hs rfl rfl

end Site

/-! ### The goal -/

namespace Board

variable {P : List Piece → PieceId → Prop} {a : Site.Attempt} {s' : Site} {g root : PieceId}

theorem furnished_of_laid (h : Site.Laid grid (.ofBoard b) qs s') (hb : b.Extensible) :
    b.Furnished grid qs s'.board := by
  obtain ⟨cells, -, hcells⟩ := h.standOn
  exact ⟨⟨b.pieces, h.pieces, List.forall₂_same.mpr fun p _ => .refl _ p⟩,
    (h.extensible hb).wellFormed.nodup, cells, hcells⟩

theorem position_forgetIn (is : List PieceId) (p : Piece) :
    (forgetIn is p).position = p.position := by
  rcases forgetIn_eq_or is p with h | h <;> rw [h]
  rfl

/-- A piece after a slot of the goal was wired. -/
def rewired (g : PieceId) (s : Option PieceId) (is : List PieceId) (p : Piece) : Piece :=
  forgetIn is (if p.id ∈ [g] then { p with slots := p.slots.set 0 s } else p)

theorem stays_rewired (g : PieceId) (s : Option PieceId) (is : List PieceId) (p : Piece) :
    p.Stays (some g) (rewired g s is p) := by
  have hforgets := forgets_forgetIn is
  refine ⟨(hforgets.id _).trans ?_, (hforgets.kind _).trans ?_, (position_forgetIn is _).trans ?_,
    (hforgets.params _).trans ?_, fun hne => (hforgets.slots _).trans ?_⟩
  · split <;> rfl
  · split <;> rfl
  · split <;> rfl
  · split <;> rfl
  · rw [if_neg fun hp => hne (congrArg some (List.mem_singleton.mp hp).symm)]

theorem rewired_of_ne {s : Option PieceId} {is : List PieceId} (hq : q.id ≠ g)
    (hcache : q.cache = none) : rewired g s is q = q := by
  rw [rewired, if_neg fun hp => hq (List.mem_singleton.mp hp)]
  rcases forgetIn_eq_or is q with h | h <;> rw [h]
  exact forget_of_cache_eq_none hcache

/-- Wiring the goal changes no piece that was added. -/
theorem furnished_rewire (h : Site.Laid grid (.ofBoard b) qs s') (hb : b.Extensible)
    (hg : b.goal = some g) (s : Option PieceId) :
    b.Furnished grid qs (s'.board.rewire g 0 s) := by
  obtain ⟨cells, -, hcells⟩ := h.standOn
  have hids : (s'.board.rewire g 0 s).ids = s'.board.ids :=
    (ids_mapPieces (forgets_forgetIn _).id).trans (ids_mapPieces fun p => by split <;> rfl)
  have hnodup := (h.extensible hb).wellFormed.nodup
  obtain ⟨p, hp, -⟩ := hb.wellFormed.goal g hg
  have hne : ∀ q ∈ qs, q.id ≠ g := by
    intro q hq hqg
    have hsplit : s'.board.ids = b.ids ++ qs.map (·.id) := by
      rw [ids, h.pieces, List.map_append]
      rfl
    rw [hsplit] at hnodup
    exact (List.nodup_append.mp hnodup).2.2 g (mem_ids_of_piece? hp) q.id
      (List.mem_map_of_mem hq) hqg.symm
  let is := g :: (s'.board.setSlot g 0 s).dependents g
  have hpieces : (s'.board.rewire g 0 s).pieces = s'.board.pieces.map (rewired g s is) := by
    rw [show rewired g s is = forgetIn is ∘ fun p =>
      if p.id ∈ [g] then { p with slots := p.slots.set 0 s } else p from rfl, ← List.map_map]
    rfl
  refine ⟨⟨b.pieces.map (rewired g s is), ?_, ?_⟩, hids ▸ hnodup, cells, hcells⟩
  · rw [hpieces, h.pieces, List.map_append]
    congr 1
    refine (List.map_congr_left fun q hq => ?_).trans (List.map_id _)
    exact rewired_of_ne (hne q hq) (h.cache q hq)
  · rw [hg]
    exact List.forall₂_map_right_iff.mpr (List.forall₂_same.mpr fun p _ => stays_rewired g s is p)

/-- What becomes of a board: all pieces that an attempt adds stand on vacant cells of their own, and
the goal is wired to the piece that it came to, if there are enough cells; otherwise it breaks off.
-/
theorem complete_cases (hb : b.Extensible) (h : (Site.ofBoard b).Settles grid n P a) :
    (HasVacancies grid b.occupied (n + b.missingGoals) ∧ ∃ b' qs root added,
      complete grid a = .ok ⟨b', true⟩ ∧ P qs root ∧ b.GoalWired b' qs root added ∧
        b.Furnished grid added b') ∨
    (¬ HasVacancies grid b.occupied (n + b.missingGoals) ∧ ∃ b' added,
      complete grid a = .ok ⟨b', false⟩ ∧ b.Furnished grid added b') := by
  have hoccupied : (Site.ofBoard b).occupied = b.occupied := rfl
  cases h with
  | short hcells ha hlaid =>
    rw [ha]
    exact .inr ⟨fun h => hcells (h.mono (Nat.le_add_right _ _)), _, _, rfl,
      furnished_of_laid hlaid hb⟩
  | @laid s' root qs hcells ha hlaid hlength husable hp =>
    have hs' := hlaid.extensible hb
    have hgoal : s'.board.goal = b.goal := hlaid.goal
    rw [ha, complete, finish, hgoal]
    cases hg : b.goal with
    | some g =>
      have hmissing : b.missingGoals = 0 := by rw [missingGoals, hg]; rfl
      have hg' := hgoal.trans hg
      obtain ⟨p, hpiece, hk⟩ := hs'.wellFormed.goal g hg'
      have hig : root.piece ≠ g := fun hig => husable.ne_goal (by rw [hg', hig])
      have hwire := wire_eq_rewire hs'.wellFormed hpiece (by rw [hk]; rfl) (hs'.idle g hg')
        husable.mem hig
      have hself := piece?_rewire_self (j := root.piece) hpiece
        (by rw [hs'.wellFormed.arity g p hpiece, hk]; rfl)
      dsimp only
      rw [hwire, hmissing]
      exact .inl ⟨hcells, _, qs, root.piece, qs, rfl, hp, .there hg hg' hself rfl,
        furnished_rewire hlaid hb hg _⟩
    | none =>
      have hmissing : b.missingGoals = 1 := by rw [missingGoals, hg]; rfl
      have hiff := hlaid.hasVacancies_iff (n := 1)
      rw [hlength] at hiff
      dsimp only
      rw [hmissing]
      rcases freeCell_spec grid s'.occupied (root.cell.1 + 1, root.cell.2) with
        ⟨hnone, hfull⟩ | ⟨cell, hcell, hvacant, hroom⟩
      · rw [hnone]
        exact .inr ⟨fun h => hfull (hiff.mpr h), _, _, rfl, furnished_of_laid hlaid hb⟩
      · obtain ⟨m, hwire⟩ := exists_wire_add_goal hs'.wellFormed (hgoal.trans hg) husable.mem
          (.cell cell)
        rw [hcell]
        dsimp only
        rw [hwire]
        obtain ⟨cells, htaken, hcells'⟩ := hlaid.standOn
        have haccepts : s'.board.Accepts
            (s'.board.pieceOn .goal (.cell cell) Params.empty [root.piece])
            (some s'.board.nextId) :=
          accepts_pieceOn (List.forall_mem_singleton.mpr husable.mem) rfl (.inr ⟨rfl, rfl⟩)
        refine .inl ⟨hiff.mp hroom, _, qs, root.piece, _, rfl, hp,
          .added (q := s'.board.pieceOn .goal (.cell cell) Params.empty [root.piece]) hg rfl
            ⟨rfl, rfl, rfl⟩, ⟨b.pieces, ?_, List.forall₂_same.mpr fun p _ => .refl _ p⟩,
          (hs'.wellFormed.extended haccepts m).nodup, _, hcells'.snoc (htaken ▸ hvacant) rfl⟩
        rw [← List.append_assoc]
        exact congrArg (· ++ _) hlaid.pieces

/-- What building comes to. -/
theorem build_cases (grid : Option Grid) (hb : b.Extensible)
    (hkeys : ∀ p ∈ b.pieces, p.position.isKey = true) (hc : b.Supports c) :
    (HasVacancies grid b.occupied (c.newPieces + b.missingGoals) ∧ ∃ b' qs root added,
      b.build grid c = .ok ⟨b', true⟩ ∧ c.Becomes qs root ∧ b.GoalWired b' qs root added ∧
        b.Furnished grid added b') ∨
    (¬ HasVacancies grid b.occupied (c.newPieces + b.missingGoals) ∧ ∃ b' added,
      b.build grid c = .ok ⟨b', false⟩ ∧ b.Furnished grid added b') := by
  rw [build, if_pos (List.all_eq_true.mpr hkeys)]
  exact complete_cases hb (Site.settles_place (s := .ofBoard b) grid hb hc)

/-- What putting an assumption without a formula on a board comes to. -/
theorem buildBlank_cases (grid : Option Grid) (hb : b.Extensible) :
    (HasVacancies grid b.occupied (1 + b.missingGoals) ∧ ∃ b' q added,
      b.buildBlank grid = .ok ⟨b', true⟩ ∧ q.Applies .assumption Params.empty [] ∧
        b.GoalWired b' [q] q.id added ∧ b.Furnished grid added b') ∨
    (¬ HasVacancies grid b.occupied (1 + b.missingGoals) ∧ ∃ b' added,
      b.buildBlank grid = .ok ⟨b', false⟩ ∧ b.Furnished grid added b') := by
  have hnone : ∀ j ∈ ([] : List PieceId), b.Usable j := fun _ hj => absurd hj (by simp)
  have hsettles : (Site.ofBoard b).Settles grid 1
      (fun qs i => ∃ q, qs = [q] ∧ i = q.id ∧ q.Applies .assumption Params.empty [])
      ((Site.ofBoard b).installLeaf grid .assumption Params.empty) :=
    Site.settles_install hb RuleKind.noConfusion hnone rfl 1
  rcases complete_cases hb hsettles with
    ⟨hroom, b', _, _, added, hbuild, ⟨q, rfl, rfl, hq⟩, hwired, hfurnished⟩ | hfull
  · exact .inl ⟨hroom, b', q, added, hbuild, hq, hwired, hfurnished⟩
  · exact .inr hfull

/-- A board that a construction may be put on: its goal serves no other piece, and every position
can be looked up. -/
structure Ground (b : Board) : Prop where
  reachable : b.Reachable
  idle : ∀ g, b.goal = some g → ∀ i, ¬ b.Feeds g i
  keys : ∀ p ∈ b.pieces, p.position.isKey = true

theorem ground_fresh (target : Formula) (premises : Option (List Formula))
    (puzzleId : Option String) (palette : Palette) :
    (fresh target premises puzzleId palette).Ground where
  reachable := ⟨_, _, _, _, [], rfl⟩
  idle _ hg := absurd hg (by simp [fresh, empty])
  keys _ hp := absurd hp (by simp [fresh, empty])

/-- Building on a base, or on a fresh board where there is none. What stands there stays, what is
added stands on cells of its own, inside the grid, and the building falls short exactly if the grid
has too few unoccupied cells. -/
theorem build_furnishes (base : Option Board) (hbase : ∀ b, base = some b → b.Ground)
    (target : Formula) (premises : Option (List Formula)) (puzzleId : Option String)
    (grid : Option Grid) (hc : (base.getD (fresh target premises puzzleId .full)).Supports c) :
    let b := base.getD (fresh target premises puzzleId .full)
    ∃ b' fits added, b.build grid c = .ok ⟨b', fits⟩ ∧ b.Furnished grid added b' ∧
      (fits = false ↔ ∃ g, grid = some g ∧
        (g.free b.occupied).length < c.newPieces + b.missingGoals) ∧
      (fits = true → ∃ qs root, c.Becomes qs root ∧ b.GoalWired b' qs root added) := by
  intro b
  have hb : b.Ground := by
    cases base with
    | none => exact ground_fresh target premises puzzleId .full
    | some b => exact hbase b rfl
  have hfull : ¬ HasVacancies grid b.occupied (c.newPieces + b.missingGoals) ↔
      ∃ g, grid = some g ∧ (g.free b.occupied).length < c.newPieces + b.missingGoals := by
    simp [HasVacancies]
  rcases build_cases grid ⟨hb.reachable.invariant.1, hb.idle⟩ hb.keys hc with
    ⟨hroom, b', qs, root, added, hbuild, hbecomes, hwired, hfurnished⟩ |
    ⟨hshort, b', added, hbuild, hfurnished⟩
  · exact ⟨b', true, added, hbuild, hfurnished,
      ⟨fun h => absurd h (by simp), fun h => absurd hroom (hfull.mpr h)⟩,
      fun _ => ⟨qs, root, hbecomes, hwired⟩⟩
  · exact ⟨b', false, added, hbuild, hfurnished, ⟨fun _ => hfull.mp hshort, fun _ => rfl⟩,
      fun h => absurd h (by simp)⟩

/-- Two assumptions on one cell, and a goal off the grids below. -/
def doubledBoard : Board :=
  Action.runAll (.empty (some (.conj (.atom "P" []) (.atom "R" []))) none none Palette.full)
    [.edit (.add (.text "assumption") (some (.cell (0, 0)))
      [("formula", .formula (some (.atom "P" [])))]),
    .edit (.add (.text "assumption") (some (.cell (0, 0)))
      [("formula", .formula (some (.atom "Q" [])))]),
    .edit (.add (.text "goal") (some (.cell (5, 5))) [])]

def doubledConstruction : Construction :=
  .both (.reused 1 .assumption (.atom "P" []) [.atom "P" []]) (.assume (.atom "R" []))

/-- Two pieces are added where two cells are left, and one cell is too few for them. -/
theorem build_furnishes_doubled :
    (∃ b' added, doubledBoard.build (some ⟨3, 1, none⟩) doubledConstruction = .ok ⟨b', true⟩ ∧
      doubledBoard.Furnished (some ⟨3, 1, none⟩) added b' ∧
      ∃ qs root, doubledConstruction.Becomes qs root ∧ doubledBoard.GoalWired b' qs root added) ∧
    ∃ b', doubledBoard.build (some ⟨2, 1, none⟩) doubledConstruction = .ok ⟨b', false⟩ := by
  have hpieces : doubledBoard.pieces = [
      ⟨1, .assumption, .cell (0, 0), { Params.empty with formula := some (.atom "P" []) }, [],
        none⟩,
      ⟨2, .assumption, .cell (0, 0), { Params.empty with formula := some (.atom "Q" []) }, [],
        none⟩,
      ⟨3, .goal, .cell (5, 5), Params.empty, [none], none⟩] := by
    decide +kernel
  have hgoal : doubledBoard.goal = some 3 := by decide +kernel
  have hground : ∀ b, some doubledBoard = some b → b.Ground := by
    rintro _ ⟨⟩
    refine ⟨⟨_, _, _, _, _, rfl⟩, fun g _ i hi => ?_, by rw [hpieces]; decide⟩
    obtain ⟨p, hp, hslot⟩ := feeds_iff.mp hi
    have hmem := mem_of_piece? hp
    rw [hpieces] at hmem
    simp only [List.mem_cons, List.not_mem_nil, or_false] at hmem
    rcases hmem with rfl | rfl | rfl <;> simp at hslot
  have hsupports : doubledBoard.Supports doubledConstruction := by
    intro d hd i hi
    simp only [doubledConstruction, Construction.postOrder, List.mem_append, List.mem_singleton,
      List.append_assoc] at hd
    rcases hd with rfl | rfl | rfl
    · obtain rfl := Option.some.inj hi
      exact ⟨by simp [hgoal], _, (0, 0), by rw [piece?, hpieces]; rfl, rfl⟩
    · exact absurd hi (by simp [Construction.piece?])
    · exact absurd hi (by simp [Construction.piece?])
  have hspace := build_furnishes (some doubledBoard) hground (.atom "P" []) none none
    (some ⟨3, 1, none⟩) hsupports
  have hnarrow := build_furnishes (some doubledBoard) hground (.atom "P" []) none none
    (some ⟨2, 1, none⟩) hsupports
  have hfree : ((Grid.mk 3 1 none).free doubledBoard.occupied).length = 2 ∧
      ((Grid.mk 2 1 none).free doubledBoard.occupied).length = 1 ∧
      doubledConstruction.newPieces + doubledBoard.missingGoals = 2 := by
    rw [occupied, hpieces, missingGoals, hgoal]
    decide
  obtain ⟨hwide, htight, hneeded⟩ := hfree
  simp only [Option.getD_some, Option.some.injEq, exists_eq_left', hwide, htight, hneeded]
    at hspace hnarrow
  obtain ⟨b', fits, added, hbuild, hfurnished, hfits, hwired⟩ := hspace
  obtain rfl : fits = true := by simpa using hfits
  obtain ⟨b'', fits, _, hbuild', -, hfits', -⟩ := hnarrow
  obtain rfl : fits = false := by simpa using hfits'
  exact ⟨⟨b', added, hbuild, hfurnished, hwired rfl⟩, b'', hbuild'⟩

/-! ### Grids with the same cells -/

variable {grid' : Option Grid}

theorem place_congr (h : ∀ taken wanted, freeCell grid taken wanted = freeCell grid' taken wanted)
    (s : Site) (c : Construction) : s.place grid c = s.place grid' c := by
  have hinstall : ∀ (s : Site) kind params wanted ps,
      s.install grid kind params wanted ps = s.install grid' kind params wanted ps := by
    intro s kind params wanted ps
    rw [Site.install, Site.install, h]
  induction c generalizing s with
  | reused => rfl
  | assume f => simp only [Site.place, Site.installLeaf, hinstall]
  | both _ _ ihl ihr | refute _ _ _ ihl ihr =>
    simp only [Site.place, Site.installAboveBoth, hinstall, ihl, ihr]
  | leftOf _ _ ih | rightOf _ _ ih | implies _ _ ih | quantify _ _ _ _ _ ih =>
    simp only [Site.place, Site.installAbove, hinstall, ih]

/-- What is built depends on a grid by its free cells only. -/
theorem build_congr (h : ∀ taken wanted, freeCell grid taken wanted = freeCell grid' taken wanted)
    (b : Board) (c : Construction) : b.build grid c = b.build grid' c := by
  have hcomplete : complete grid = complete grid' := by
    funext a
    rcases a with e | ⟨s, _ | root⟩
    · rfl
    · rfl
    · rw [complete, complete, finish, finish, h]
  rw [build, build, place_congr h, hcomplete]

end Board

end DeductionBoard
