import DeductionBoard.Proofs.Board.Invariant

/-! What edits do. Whatever is asked for, the board stays as it was, skips a number, or undergoes one
of five changes; `Edited` lists them with what the edit has made sure of. Main result: every edit is
one of these steps and keeps the invariant. -/

namespace DeductionBoard

open Relation

namespace Board

variable {b b' : Board} {i j k : PieceId} {p : Piece}

/-! ### Adding a piece -/

/-- The board with one more piece. -/
def extended (b : Board) (p : Piece) (goal : Option PieceId) (revision : Nat) : Board :=
  { b with goal := goal, pieces := b.pieces ++ [p], nextId := b.nextId + 1, revision := revision }

/-- A piece that may be the next one: it has the next number, is wired to pieces of the board, and
becomes the goal only if it is a goal piece. -/
structure Accepts (b : Board) (p : Piece) (goal : Option PieceId) : Prop where
  id : p.id = b.nextId
  arity : p.slots.length = p.kind.arity
  wired : ∀ j, some j ∈ p.slots → j ∈ b.ids
  goal : goal = b.goal ∨ goal = some b.nextId ∧ p.kind = .goal

variable {goal : Option PieceId} {n : Nat}

theorem accepts_fresh (b : Board) (kind : RuleKind) (q : Position) (ps : Params) :
    b.Accepts (.fresh b.nextId kind q ps)
      (if kind = .goal ∧ b.goal = none then some b.nextId else b.goal) where
  id := rfl
  arity := List.length_replicate
  wired j hj := by simp [Piece.fresh] at hj
  goal := by
    split
    · next h => exact .inr ⟨rfl, h.1⟩
    · exact .inl rfl

@[simp] theorem ids_extended (b : Board) (p : Piece) (goal : Option PieceId) (n : Nat) :
    (b.extended p goal n).ids = b.ids ++ [p.id] := by
  simp [ids, extended]

theorem piece?_extended (b : Board) (p : Piece) (goal : Option PieceId) (n : Nat) (i : PieceId) :
    (b.extended p goal n).piece? i = (b.piece? i).or (if p.id = i then some p else none) := by
  simp only [piece?, extended, List.find?_append, List.find?_singleton]
  by_cases h : p.id = i <;> simp [h]

theorem piece?_extended_of_piece? {q : Piece} (h : b.piece? i = some q) :
    (b.extended p goal n).piece? i = some q := by
  rw [piece?_extended, h, Option.some_or]

theorem piece?_extended_self (h : b.WellFormed) (hp : b.Accepts p goal) :
    (b.extended p goal n).piece? p.id = some p := by
  rw [piece?_extended, piece?_eq_none_iff.mpr (hp.id ▸ h.nextId_notMem), Option.none_or, if_pos rfl]

/-- The wires of the new piece come on top of the old ones. -/
theorem feeds_extended (h : b.WellFormed) (hp : b.Accepts p goal) :
    (b.extended p goal n).Feeds j k ↔ b.Feeds j k ∨ k = p.id ∧ some j ∈ p.slots := by
  rw [feeds_iff, feeds_iff, piece?_extended]
  cases hk : b.piece? k with
  | some q =>
    have hne : k ≠ p.id := by
      rintro rfl
      exact h.nextId_notMem (hp.id ▸ mem_ids_of_piece? hk)
    simp [hne]
  | none =>
    by_cases hpk : p.id = k
    · simp [hpk]
    · simp [hpk, Ne.symm hpk]

/-- The new piece feeds none. -/
theorem Feeds.mem_ids_of_extended (h : b.WellFormed) (hp : b.Accepts p goal)
    (hjk : (b.extended p goal n).Feeds j k) : j ∈ b.ids := by
  rcases (feeds_extended h hp).mp hjk with hjk | ⟨-, hj⟩
  · exact h.wired j k hjk
  · exact hp.wired j hj

theorem transGen_extended (h : b.WellFormed) (hp : b.Accepts p goal)
    (hjk : TransGen (b.extended p goal n).Feeds j k) : k = p.id ∨ TransGen b.Feeds j k := by
  induction hjk with
  | single hjk =>
    rcases (feeds_extended h hp).mp hjk with hjk | ⟨hk, -⟩
    · exact .inr (.single hjk)
    · exact .inl hk
  | @tail k l _ hkl ih =>
    have hk : k ∈ b.ids := hkl.mem_ids_of_extended h hp
    rcases (feeds_extended h hp).mp hkl with hkl | ⟨hl, -⟩
    · rcases ih with rfl | ih
      · exact absurd hk (hp.id ▸ h.nextId_notMem)
      · exact .inr (ih.tail hkl)
    · exact .inl hl

theorem WellFormed.extended (h : b.WellFormed) (hp : b.Accepts p goal) (n : Nat) :
    (b.extended p goal n).WellFormed := by
  constructor
  · rw [ids_extended, List.pairwise_append]
    refine ⟨h.ascending, List.pairwise_singleton _ _, fun i hi k hk => ?_⟩
    rw [List.mem_singleton] at hk
    rw [hk, hp.id]
    exact (h.bounded i hi).2
  · intro i hi
    have hnext : (b.extended p goal n).nextId = b.nextId + 1 := rfl
    rw [hnext]
    rw [ids_extended, List.mem_append, List.mem_singleton] at hi
    rcases hi with hi | rfl
    · exact ⟨(h.bounded i hi).1, Int.lt_add_one_of_le (Int.le_of_lt (h.bounded i hi).2)⟩
    · rw [hp.id]
      exact ⟨h.nextId_pos, Int.lt_add_one_of_le (Int.le_refl _)⟩
  · exact Int.lt_add_one_of_le (Int.le_of_lt h.nextId_pos)
  · intro i q hq
    rw [piece?_extended] at hq
    rcases Option.or_eq_some_iff.mp hq with hq | ⟨-, hq⟩
    · exact h.arity i q hq
    · split at hq
      · obtain rfl := Option.some.inj hq
        exact hp.arity
      · exact absurd hq (by simp)
  · intro j k hjk
    rw [ids_extended]
    exact List.mem_append_left _ (hjk.mem_ids_of_extended h hp)
  · intro i hi
    rcases transGen_extended h hp hi with rfl | hi'
    · obtain ⟨k, hk, -⟩ := TransGen.head'_iff.mp hi
      exact h.nextId_notMem (hp.id ▸ hk.mem_ids_of_extended h hp)
    · exact h.acyclic i hi'
  · intro g hg
    rcases hp.goal with hgoal | ⟨hgoal, hk⟩
    · obtain ⟨q, hq, hk⟩ := h.goal g (hgoal ▸ hg)
      exact ⟨q, piece?_extended_of_piece? hq, hk⟩
    · obtain rfl : b.nextId = g := Option.some.inj (hgoal.symm.trans hg)
      exact ⟨p, hp.id ▸ piece?_extended_self h hp, hk⟩

theorem WellFormed.add (h : b.WellFormed) (kind : RuleKind) (q : Position) (ps : Params) :
    (b.add kind q ps).WellFormed := h.extended (accepts_fresh b kind q ps) _

/-! ### Removing a piece -/

/-- The board without one of its pieces, and with another goal. -/
def drop (b : Board) (i : PieceId) (goal : Option PieceId) : Board :=
  { b with pieces := b.pieces.filter fun p => p.id ≠ i, goal := goal }

theorem piece?_drop (b : Board) (i j : PieceId) (goal : Option PieceId) :
    (b.drop i goal).piece? j = if j = i then none else b.piece? j := by
  rw [piece?, drop, List.find?_filter]
  split
  · next h =>
    subst h
    rw [List.find?_eq_none]
    intro p _
    simp
  · next h =>
    have : (fun p : Piece => decide (p.id ≠ i) && (p.id == j)) = fun p => p.id == j := by
      funext p
      by_cases hp : p.id = j <;> simp [hp, h]
    simp only [Bool.decide_and, Bool.decide_eq_true, this]
    rfl

@[simp]
theorem mem_ids_drop {goal : Option PieceId} : j ∈ (b.drop i goal).ids ↔ j ∈ b.ids ∧ j ≠ i := by
  rw [← not_iff_not, ← piece?_eq_none_iff, piece?_drop]
  split
  · next h => simp [h]
  · next h => simp [h, piece?_eq_none_iff]

theorem Feeds.of_drop {goal : Option PieceId} (h : (b.drop i goal).Feeds j k) : b.Feeds j k := by
  obtain ⟨p, hp, hj⟩ := feeds_iff.mp h
  rw [piece?_drop] at hp
  split at hp
  · exact absurd hp (by simp)
  · exact feeds_iff.mpr ⟨p, hp, hj⟩

/-- A piece that is wired into nothing can be taken off the board. -/
theorem WellFormed.drop {goal : Option PieceId} (h : b.WellFormed) (hfree : ∀ k, ¬ b.Feeds i k)
    (hgoal : ∀ g, goal = some g → g ≠ i ∧ ∃ p, b.piece? g = some p ∧ p.kind = .goal) :
    (b.drop i goal).WellFormed := by
  constructor
  · have : (b.drop i goal).ids.Sublist b.ids := List.filter_sublist.map _
    exact h.ascending.sublist this
  · intro k hk
    exact h.bounded k (mem_ids_drop.mp hk).1
  · exact h.nextId_pos
  · intro k p hp
    rw [piece?_drop] at hp
    split at hp
    · exact absurd hp (by simp)
    · exact h.arity k p hp
  · intro j k hjk
    refine mem_ids_drop.mpr ⟨h.wired j k hjk.of_drop, ?_⟩
    rintro rfl
    exact hfree k hjk.of_drop
  · exact h.acyclic.mono fun j k hjk => hjk.of_drop
  · intro g hg
    obtain ⟨hne, p, hp, hk⟩ := hgoal g hg
    exact ⟨p, by rw [piece?_drop, if_neg hne, hp], hk⟩

/-- Clears the slots of a piece that are wired from `i`. -/
def detach (i : PieceId) (p : Piece) : Piece :=
  { p with slots := p.slots.map fun s => if s = some i then none else s }

/-- Clears the slots of some pieces that are wired from `i`. -/
def detachIn (is : List PieceId) (i : PieceId) (p : Piece) : Piece :=
  if p.id ∈ is then detach i p else p

@[simp]
theorem id_detachIn (is : List PieceId) (i : PieceId) (p : Piece) : (detachIn is i p).id = p.id := by
  unfold detachIn
  split <;> rfl

theorem kind_detachIn (is : List PieceId) (i : PieceId) (p : Piece) :
    (detachIn is i p).kind = p.kind := by
  unfold detachIn
  split <;> rfl

theorem length_slots_detachIn (is : List PieceId) (i : PieceId) (p : Piece) :
    (detachIn is i p).slots.length = p.slots.length := by
  unfold detachIn
  split
  · exact List.length_map _
  · rfl

theorem mem_slots_detach : some j ∈ (detach i p).slots ↔ some j ∈ p.slots ∧ j ≠ i := by
  simp only [detach, List.mem_map]
  constructor
  · rintro ⟨s, hs, hj⟩
    split at hj
    · exact absurd hj (by simp)
    · next hne => exact ⟨hj ▸ hs, fun hji => hne (by rw [hj, hji])⟩
  · rintro ⟨hj, hne⟩
    exact ⟨some j, hj, if_neg (by simpa using hne)⟩

/-- The board in which nothing is wired from `i` any more, with the statuses still cached. -/
def isolated (b : Board) (i : PieceId) : Board := b.mapPieces (detachIn (b.consumers i) i)

@[simp] theorem ids_isolated (b : Board) (i : PieceId) : (b.isolated i).ids = b.ids :=
  ids_mapPieces (id_detachIn _ i)

theorem feeds_isolated (h : b.ids.Nodup) :
    (b.isolated i).Feeds j k ↔ b.Feeds j k ∧ j ≠ i := by
  rw [feeds_iff, feeds_iff, isolated, piece?_mapPieces (id_detachIn _ i)]
  cases hp : b.piece? k with
  | none => simp
  | some p =>
    simp only [Option.map_some, Option.some.injEq, exists_eq_left', detachIn, id_of_piece? hp]
    split
    · exact mem_slots_detach
    · next hk =>
      rw [mem_consumers h, feeds_iff] at hk
      constructor
      · intro hj
        refine ⟨hj, ?_⟩
        rintro rfl
        exact hk ⟨p, hp, hj⟩
      · exact And.left

theorem WellFormed.isolated (h : b.WellFormed) (i : PieceId) : (b.isolated i).WellFormed := by
  constructor
  · rw [ids_isolated]
    exact h.ascending
  · rw [ids_isolated]
    exact h.bounded
  · exact h.nextId_pos
  · intro k p hp
    rw [Board.isolated, piece?_mapPieces (id_detachIn _ i)] at hp
    obtain ⟨q, hq, rfl⟩ := Option.map_eq_some_iff.mp hp
    rw [length_slots_detachIn, kind_detachIn]
    exact h.arity k q hq
  · intro j k hjk
    rw [ids_isolated]
    exact h.wired j k ((feeds_isolated h.nodup).mp hjk).1
  · exact h.acyclic.mono fun j k hjk => ((feeds_isolated h.nodup).mp hjk).1
  · intro g hg
    obtain ⟨p, hp, hk⟩ := h.goal g hg
    rw [Board.isolated, piece?_mapPieces (id_detachIn _ i), hp]
    exact ⟨_, rfl, by rw [kind_detachIn, hk]⟩

/-- Forgetting statuses changes nothing but pieces. -/
theorem foldl_forgetFrom_pieces (is : List PieceId) (b : Board) :
    is.foldl forgetFrom b = { b with pieces := (is.foldl forgetFrom b).pieces } := by
  induction is generalizing b with
  | nil => rfl
  | cons i is ih =>
    rw [List.foldl_cons, ih (b.forgetFrom i)]
    rfl

/-- To forget from several pieces is to forget the statuses of all that depends on one of them. -/
theorem foldl_forgetFrom (is : List PieceId) (b : Board) (h : b.ids.Nodup) :
    ∃ f, Forgets f ∧ is.foldl forgetFrom b = b.mapPieces f ∧
      ∀ p, (∃ u ∈ is, ReflTransGen b.Feeds u p.id) → (f p).cache = none := by
  induction is generalizing b with
  | nil =>
    refine ⟨id, ⟨fun p => .inl rfl⟩, ?_, by simp⟩
    simp [mapPieces]
  | cons i is ih =>
    have hg := forgets_forgetIn (i :: b.dependents i)
    have hids : (b.forgetFrom i).ids = b.ids := ids_mapPieces hg.id
    have hfeeds : (b.forgetFrom i).Feeds = b.Feeds := feeds_mapPieces hg.id hg.slots
    obtain ⟨f, hf, heq, hcache⟩ := ih (b.forgetFrom i) (by rwa [hids])
    refine ⟨f ∘ forgetIn (i :: b.dependents i), hg.comp hf, ?_, ?_⟩
    · rw [List.foldl_cons, heq, forgetFrom_eq, mapPieces, mapPieces, mapPieces, List.map_map]
    · rintro p ⟨u, hu, hup⟩
      rw [Function.comp_apply]
      rcases List.mem_cons.mp hu with rfl | hu
      · have hin : p.id ∈ u :: b.dependents u := by
          rw [List.mem_cons, mem_dependents h]
          exact reflTransGen_iff_eq_or_transGen.mp hup
        rw [forgetIn, if_pos hin]
        rcases hf.eq_or p.forget with hq | hq <;> rw [hq] <;> rfl
      · refine hcache _ ⟨u, hu, ?_⟩
        rwa [hfeeds, hg.id]

/-- The board without a piece and without the statuses that depend on it. -/
def withoutPiece (b : Board) (i : PieceId) : Board :=
  ((b.consumers i).foldl forgetFrom (b.isolated i)).drop i (if b.goal = some i then none else b.goal)

theorem remove_eq (hi : i ∈ b.ids) : b.remove i = .ok (b.withoutPiece i).bump := by
  rw [remove, if_neg (not_not.mpr (contains_iff.mpr hi))]
  rfl

theorem WellFormed.withoutPiece (h : b.WellFormed) (i : PieceId) : (b.withoutPiece i).WellFormed := by
  obtain ⟨f, hf, heq, -⟩ :=
    foldl_forgetFrom (b.consumers i) (b.isolated i) (by rw [ids_isolated]; exact h.nodup)
  have hfeeds : ((b.isolated i).mapPieces f).Feeds = (b.isolated i).Feeds :=
    feeds_mapPieces hf.id hf.slots
  rw [Board.withoutPiece, heq]
  refine ((h.isolated i).forget hf).drop (fun k hk => ?_) fun g hg => ?_
  · rw [hfeeds, feeds_isolated h.nodup] at hk
    exact hk.2 rfl
  · split at hg
    · exact absurd hg (by simp)
    · next hne =>
      obtain ⟨p, hp, hk⟩ := ((h.isolated i).forget hf).goal g hg
      exact ⟨fun hgi => hne (by rw [hg, hgi]), p, hp, hk⟩

/-! ### Steps -/

/-- The changes that an edit can make. A slot is filled only from a piece that does not depend on
the piece of the slot. -/
inductive Edited (b : Board) : Board → Prop
  | unchanged : Edited b b
  | skipped : Edited b { b with nextId := b.nextId + 1 }
  | added (kind : RuleKind) (q : Position) (ps : Params) : Edited b (b.add kind q ps)
  | rewired (i : PieceId) (n : Nat) (s : Option PieceId)
      (hs : ∀ j, s = some j → j ∈ b.ids ∧ j ≠ i ∧ ¬ TransGen b.Feeds i j) :
      Edited b ((b.setSlot i n s).forgetFrom i).bump
  | removed (i : PieceId) (hi : i ∈ b.ids) : Edited b (b.withoutPiece i).bump
  | designated (i : PieceId) (p : Piece) (hp : b.piece? i = some p) (hk : p.kind = .goal) :
      Edited b { b with goal := some i }.bump
  | moved (i : PieceId) (q : Position) :
      Edited b (b.update [i] fun p => { p with position := q }).bump

theorem edited_place (b : Board) (kind : Value) (q : Option Position)
    (ps : List (String × ParamValue)) : Edited b (b.place kind q ps).1 := by
  unfold place
  split
  · exact .unchanged
  · split
    · exact .unchanged
    · split
      · exact .skipped
      · exact .added _ _ _

theorem edited_wire (h : b.WellFormed) {n : Int} (hb : b.wire i n j = .ok b') : Edited b b' := by
  unfold wire at hb
  split at hb
  · exact absurd hb (by simp)
  split at hb
  · exact absurd hb (by simp)
  next hj =>
  split at hb
  · exact absurd hb (by simp)
  split at hb
  · exact absurd hb (by simp)
  next hcycle =>
  cases hb
  refine .rewired i _ (some j) fun k hk => ?_
  obtain rfl := Option.some.inj hk
  rw [not_or, mem_dependencies h.nodup h.wired] at hcycle
  exact ⟨contains_iff.mp (not_not.mp hj), hcycle.1, hcycle.2⟩

theorem edited_unwire {n : Int} (hb : b.unwire i n = .ok b') : Edited b b' := by
  unfold unwire at hb
  split at hb
  · exact absurd hb (by simp)
  split at hb
  · cases hb
    exact .unchanged
  · cases hb
    exact .rewired i _ none (by simp)

theorem edited_remove (hb : b.remove i = .ok b') : Edited b b' := by
  by_cases hi : i ∈ b.ids
  · rw [remove_eq hi] at hb
    cases hb
    exact .removed i hi
  · rw [remove, if_pos (fun hc => hi (contains_iff.mp hc))] at hb
    exact absurd hb (by simp)

theorem edited_setGoal (hb : b.setGoal i = .ok b') : Edited b b' := by
  unfold setGoal at hb
  split at hb
  · exact absurd hb (by simp)
  next p hp =>
  split at hb
  · exact absurd hb (by simp)
  next hk =>
  split at hb
  · cases hb
    exact .unchanged
  · cases hb
    exact .designated i p hp (not_not.mp hk)

theorem edited_move {q : Option Position} (hb : b.move i q = .ok b') : Edited b b' := by
  unfold move at hb
  split at hb
  · exact absurd hb (by simp)
  split at hb
  · exact absurd hb (by simp)
  · cases hb
    exact .moved i _

/-- Settling on a board that is one step away, or on the old one, is one step. -/
theorem edited_settle {r : Except EditError Board} (h : ∀ b', r = .ok b' → Edited b b') :
    Edited b (Edit.settle b r).1 := by
  cases r with
  | error e => exact .unchanged
  | ok b' => exact h b' rfl

/-- Every edit is one step, also one that fails. -/
theorem edited_apply (h : b.WellFormed) (e : Edit) : Edited b (e.apply b).1 := by
  cases e with
  | add kind q ps =>
    have heq : ((Edit.add kind q ps).apply b).1 = (b.place kind q ps).1 := by
      rw [Edit.apply]
      rcases b.place kind q ps with ⟨b', e | i⟩ <;> rfl
    rw [heq]
    exact edited_place b kind q ps
  | wire i n j => exact edited_settle fun b' hb => edited_wire h hb
  | unwire i n => exact edited_settle fun b' hb => edited_unwire hb
  | remove i => exact edited_settle fun b' hb => edited_remove hb
  | setGoal i => exact edited_settle fun b' hb => edited_setGoal hb
  | move i q => exact edited_settle fun b' hb => edited_move hb

/-- Steps keep the invariant. -/
theorem WellFormed.edited (h : b.WellFormed) (hstep : Edited b b') : b'.WellFormed := by
  cases hstep with
  | unchanged => exact h
  | skipped => exact h.skipNumber
  | added kind q ps => exact h.add kind q ps
  | rewired i n s hs => exact ((h.setSlot hs).forget (forgets_forgetIn _)).bump
  | removed i hi => exact (h.withoutPiece i).bump
  | designated i p hp hk =>
    refine WellFormed.bump ⟨h.ascending, h.bounded, h.nextId_pos, h.arity, h.wired, h.acyclic, ?_⟩
    intro g hg
    exact ⟨p, Option.some.inj hg ▸ hp, hk⟩
  | moved i q =>
    refine (h.mapPieces (fun p => ?_) (fun p => ?_) fun p => ?_).bump <;> split <;> rfl

end Board

end DeductionBoard
