import DeductionBoard.Level.Basic
import DeductionBoard.Proofs.Derivation.Incremental

/-! Boards over their whole history. A history begins with a board without pieces or with the board of
a level; edits and reviews follow, whether they succeed or not. Main result: at every moment of a
history the wires close no circle and start at pieces of the board, every piece has the slots of its
rule and is found under its number, the goal is a goal piece, and no number is issued twice, not even
after its piece was removed. -/

namespace DeductionBoard

/-- What a history begins with. -/
inductive Origin where
  | fresh (target : Option Formula) (premises : Option (List (Option Formula)))
      (puzzleId : Option String) (palette : Palette)
  | level (l : Draft)

def Origin.board : Origin → Board
  | .fresh target premises puzzleId palette => .empty target premises puzzleId palette
  | .level l => Level.board l

namespace Action

/-- The number that an action gives to a new piece. -/
def issued? (b : Board) : Action → Option PieceId
  | .edit e => match (e.apply b).2 with
    | .ok i => i
    | .error _ => none
  | .check _ => none

/-- The numbers that actions give to new pieces, in order. -/
def issued (b : Board) : List Action → List PieceId
  | [] => []
  | a :: as => (a.issued? b).toList ++ issued (a.run b) as

end Action

namespace Board

variable {b b' : Board} {i : PieceId}

/-- A history begins with a board that keeps the invariants. -/
theorem invariant_origin (o : Origin) : o.board.WellFormed ∧ o.board.Current := by
  cases o with
  | fresh target premises puzzleId palette =>
    exact ⟨wellFormed_empty target premises puzzleId palette,
      current_empty target premises puzzleId palette⟩
  | level l =>
    refine List.foldlRecOn (motive := fun b : Board => b.WellFormed ∧ b.Current) l.pieces _ ?_
      fun b hb q _ => ?_
    · exact ⟨wellFormed_empty _ _ _ _, current_empty _ _ _ _⟩
    · exact ⟨hb.1.add q.kind (.cell q.cell) q.params, hb.2.edited hb.1 (.added _ _ _)⟩

theorem wellFormed_origin (o : Origin) : o.board.WellFormed := (invariant_origin o).1

theorem invariant_runAll (h : b.WellFormed ∧ b.Current) (as : List Action) :
    (Action.runAll b as).WellFormed ∧ (Action.runAll b as).Current :=
  ⟨h.1.runAll as, h.2.runAll h.1 as⟩

/-! ### Numbers -/

theorem nextId_foldl_forgetFrom (is : List PieceId) (b : Board) :
    (is.foldl forgetFrom b).nextId = b.nextId :=
  (congrArg Board.nextId (foldl_forgetFrom_pieces is b) :)

/-- The next number never goes back. -/
theorem nextId_le_of_edited (h : Edited b b') : b.nextId ≤ b'.nextId := by
  cases h with
  | unchanged => exact Int.le_refl _
  | skipped => exact Int.le_add_one (Int.le_refl _)
  | added kind q ps => exact Int.le_add_one (Int.le_refl _)
  | rewired i n s hs => exact Int.le_refl _
  | removed i hi => exact Int.le_of_eq (nextId_foldl_forgetFrom (b.consumers i) (b.isolated i)).symm
  | designated i p hp hk => exact Int.le_refl _
  | moved i q => exact Int.le_refl _

theorem nextId_review (b : Board) (c : CheckerSettings) : (b.review c).2.nextId = b.nextId := by
  rw [review]
  cases b.defective? <;> rfl

theorem palette_review (b : Board) (c : CheckerSettings) : (b.review c).2.palette = b.palette := by
  rw [review]
  cases b.defective? <;> rfl

theorem nextId_le_run (h : b.WellFormed) (a : Action) : b.nextId ≤ (a.run b).nextId := by
  cases a with
  | edit e => exact nextId_le_of_edited (edited_apply h e)
  | check c => exact Int.le_of_eq (nextId_review b c).symm

theorem nextId_le_runAll (h : b.WellFormed) (as : List Action) :
    b.nextId ≤ (Action.runAll b as).nextId := by
  induction as generalizing b with
  | nil => exact Int.le_refl _
  | cons a as ih => exact Int.le_trans (nextId_le_run h a) (ih (wellFormed_run h a))

theorem settle_ne_some (r : Except EditError Board) : (Edit.settle b r).2 ≠ .ok (some i) := by
  cases r <;> simp [Edit.settle]

theorem nextId_of_place (kind : Value) (q : Option Position) (ps : List (String × ParamValue))
    (h : (b.place kind q ps).2 = .ok i) :
    i = b.nextId ∧ (b.place kind q ps).1.nextId = b.nextId + 1 := by
  unfold place at h ⊢
  split at h
  · exact absurd h (by simp)
  split at h
  · exact absurd h (by simp)
  split at h
  · exact absurd h (by simp)
  · exact ⟨(Except.ok.inj h).symm, rfl⟩

/-- Only a piece that is added gets a number, and it uses the next one up. -/
theorem nextId_of_apply {e : Edit} (h : (e.apply b).2 = .ok (some i)) :
    i = b.nextId ∧ (e.apply b).1.nextId = b.nextId + 1 := by
  cases e with
  | add kind q ps =>
    have hplace := nextId_of_place (b := b) (i := i) kind q ps
    simp only [Edit.apply] at h ⊢
    rcases hb : b.place kind q ps with ⟨b', _ | j⟩
    · rw [hb] at h
      exact absurd h (by simp)
    · rw [hb] at h hplace
      exact hplace (congrArg Except.ok (Option.some.inj (Except.ok.inj h)))
  | wire i n j => exact absurd h (settle_ne_some _)
  | unwire i n => exact absurd h (settle_ne_some _)
  | remove i => exact absurd h (settle_ne_some _)
  | setGoal i => exact absurd h (settle_ne_some _)
  | move i q => exact absurd h (settle_ne_some _)

theorem nextId_of_issued? {a : Action} (h : a.issued? b = some i) :
    i = b.nextId ∧ (a.run b).nextId = b.nextId + 1 := by
  cases a with
  | check c => exact absurd h (by simp [Action.issued?])
  | edit e =>
    simp only [Action.issued?] at h
    split at h
    · next j hj => exact nextId_of_apply (hj.trans (congrArg Except.ok h))
    · exact absurd h (by simp)

theorem bounds_of_issued (h : b.WellFormed) {as : List Action} (hi : i ∈ Action.issued b as) :
    b.nextId ≤ i ∧ i < (Action.runAll b as).nextId := by
  induction as generalizing b with
  | nil => exact absurd hi (by simp [Action.issued])
  | cons a as ih =>
    have hle := nextId_le_run h a
    rw [Action.issued, List.mem_append, Option.mem_toList] at hi
    rcases hi with hi | hi
    · obtain ⟨rfl, hnext⟩ := nextId_of_issued? hi
      refine ⟨Int.le_refl _, Int.lt_of_lt_of_le ?_ (nextId_le_runAll (wellFormed_run h a) as)⟩
      exact hnext ▸ Int.lt_succ b.nextId
    · obtain ⟨hlow, hhigh⟩ := ih (wellFormed_run h a) hi
      exact ⟨Int.le_trans hle hlow, hhigh⟩

/-- Later pieces get greater numbers. -/
theorem pairwise_issued (h : b.WellFormed) (as : List Action) :
    (Action.issued b as).Pairwise (· < ·) := by
  induction as generalizing b with
  | nil => exact List.Pairwise.nil
  | cons a as ih =>
    rw [Action.issued]
    cases hi : a.issued? b with
    | none => exact ih (wellFormed_run h a)
    | some i =>
      obtain ⟨rfl, hnext⟩ := nextId_of_issued? hi
      refine List.pairwise_cons.mpr ⟨fun j hj => ?_, ih (wellFormed_run h a)⟩
      exact Int.lt_of_lt_of_le (hnext ▸ Int.lt_succ b.nextId)
        (bounds_of_issued (wellFormed_run h a) hj).1

/-- The numbers of the pieces at the start and of all later ones, in the order in which they were
given. -/
theorem pairwise_numbers (h : b.WellFormed) (as : List Action) :
    (b.ids ++ Action.issued b as).Pairwise (· < ·) := by
  refine List.pairwise_append.mpr ⟨h.ascending, pairwise_issued h as, fun i hi j hj => ?_⟩
  exact Int.lt_of_lt_of_le (h.bounded i hi).2 (bounds_of_issued h hj).1

/-! ### Pieces and their numbers -/

@[simp] theorem ids_forgetFrom (b : Board) (i : PieceId) : (b.forgetFrom i).ids = b.ids :=
  ids_mapPieces (forgets_forgetIn _).id

theorem ids_foldl_forgetFrom (is : List PieceId) (b : Board) :
    (is.foldl forgetFrom b).ids = b.ids := by
  induction is generalizing b with
  | nil => rfl
  | cons i is ih => exact (ih _).trans (ids_forgetFrom b i)

@[simp] theorem ids_setSlot (b : Board) (i : PieceId) (n : Nat) (s : Option PieceId) :
    (b.setSlot i n s).ids = b.ids :=
  ids_mapPieces fun p => by split <;> rfl

theorem mem_ids_withoutPiece (h : j ∈ (b.withoutPiece i).ids) : j ∈ b.ids := by
  have hj := (mem_ids_drop.mp h).1
  rwa [ids_foldl_forgetFrom, ids_isolated] at hj

theorem ids_of_wire {n : Int} (h : b.wire i n j = .ok b') : b'.ids = b.ids := by
  unfold wire at h
  split at h
  · exact absurd h (by simp)
  split at h
  · exact absurd h (by simp)
  split at h
  · exact absurd h (by simp)
  split at h
  · exact absurd h (by simp)
  · cases h
    exact (ids_forgetFrom _ _).trans (ids_setSlot _ _ _ _)

theorem ids_of_unwire {n : Int} (h : b.unwire i n = .ok b') : b'.ids = b.ids := by
  unfold unwire at h
  split at h
  · exact absurd h (by simp)
  split at h
  · cases h
    rfl
  · cases h
    exact (ids_forgetFrom _ _).trans (ids_setSlot _ _ _ _)

theorem mem_ids_of_remove (h : b.remove i = .ok b') (hj : j ∈ b'.ids) : j ∈ b.ids := by
  by_cases hi : i ∈ b.ids
  · rw [remove_eq hi] at h
    cases h
    exact mem_ids_withoutPiece hj
  · rw [remove, if_pos (fun hc => hi (contains_iff.mp hc))] at h
    exact absurd h (by simp)

theorem ids_of_setGoal (h : b.setGoal i = .ok b') : b'.ids = b.ids := by
  unfold setGoal at h
  split at h
  · exact absurd h (by simp)
  split at h
  · exact absurd h (by simp)
  split at h <;> cases h <;> rfl

theorem ids_of_move {q : Option Position} (h : b.move i q = .ok b') : b'.ids = b.ids := by
  unfold move at h
  split at h
  · exact absurd h (by simp)
  split at h
  · exact absurd h (by simp)
  · cases h
    exact ids_mapPieces fun p => by split <;> rfl

theorem mem_ids_of_place (kind : Value) (q : Option Position) (ps : List (String × ParamValue))
    (hi : i ∈ (b.place kind q ps).1.ids) : i ∈ b.ids ∨ (b.place kind q ps).2 = .ok i := by
  unfold place at hi ⊢
  split at hi
  · exact .inl hi
  split at hi
  · exact .inl hi
  split at hi
  · exact .inl hi
  next _ k _ _ ps _ _ q =>
    have hadd : (b.add k q ps).ids = b.ids ++ [b.nextId] :=
      ids_extended b (.fresh b.nextId k q ps) _ (b.revision + 1)
    rcases List.mem_append.mp (hadd ▸ hi) with hi | hi
    · exact .inl hi
    · exact .inr (congrArg Except.ok (List.mem_singleton.mp hi).symm)

theorem mem_ids_of_settle {r : Except EditError Board}
    (h : ∀ b', r = .ok b' → i ∈ b'.ids → i ∈ b.ids) (hi : i ∈ (Edit.settle b r).1.ids) :
    i ∈ b.ids := by
  cases r with
  | error e => exact hi
  | ok b' => exact h b' rfl hi

/-- A number that is new on the board is the one that the edit gives. -/
theorem mem_ids_of_apply {e : Edit} (hi : i ∈ (e.apply b).1.ids) :
    i ∈ b.ids ∨ (e.apply b).2 = .ok (some i) := by
  cases e with
  | add kind q ps =>
    have hplace := mem_ids_of_place (b := b) (i := i) kind q ps
    simp only [Edit.apply] at hi ⊢
    rcases hb : b.place kind q ps with ⟨b', e | j⟩ <;> rw [hb] at hi hplace
    · exact .inl ((hplace hi).resolve_right (by simp))
    · exact (hplace hi).imp_right fun h => congrArg (Except.ok ∘ some) (Except.ok.inj h)
  | wire j n k => exact .inl (mem_ids_of_settle (fun b' hb hi => ids_of_wire hb ▸ hi) hi)
  | unwire j n => exact .inl (mem_ids_of_settle (fun b' hb hi => ids_of_unwire hb ▸ hi) hi)
  | remove j => exact .inl (mem_ids_of_settle (fun b' hb hi => mem_ids_of_remove hb hi) hi)
  | setGoal j => exact .inl (mem_ids_of_settle (fun b' hb hi => ids_of_setGoal hb ▸ hi) hi)
  | move j q => exact .inl (mem_ids_of_settle (fun b' hb hi => ids_of_move hb ▸ hi) hi)

@[simp] theorem ids_review (b : Board) (c : CheckerSettings) : (b.review c).2.ids = b.ids := by
  rw [review]
  cases b.defective? with
  | none => exact ids_mapPieces fun _ => rfl
  | some i => exact ids_mapPieces fun _ => rfl

theorem mem_ids_of_run {a : Action} (hi : i ∈ (a.run b).ids) : i ∈ b.ids ∨ a.issued? b = some i := by
  cases a with
  | edit e =>
    refine (mem_ids_of_apply hi).imp_right fun h => ?_
    simp only [Action.issued?]
    rw [h]
  | check c => exact .inl (ids_review b c ▸ hi)

/-- Every number on the board was there at the start or was given to a piece since. -/
theorem mem_ids_of_runAll {as : List Action} (hi : i ∈ (Action.runAll b as).ids) :
    i ∈ b.ids ++ Action.issued b as := by
  induction as generalizing b with
  | nil => exact List.mem_append_left _ hi
  | cons a as ih =>
    rw [Action.issued, ← List.append_assoc]
    rcases List.mem_append.mp (ih hi) with hi | hi
    · refine List.mem_append_left _ (List.mem_append.mpr ?_)
      exact (mem_ids_of_run hi).imp_right Option.mem_toList.mpr
    · exact List.mem_append_right _ hi

/-- What holds of a board at every moment of its history. -/
theorem invariant_of_history (o : Origin) (as : List Action) :
    let b := Action.runAll o.board as
    b.Acyclic ∧
      (∀ p ∈ b.pieces, b.piece? p.id = some p ∧ p.slots.length = p.kind.arity ∧
        0 < p.id ∧ p.id < b.nextId ∧ ∀ j, some j ∈ p.slots → ∃ q ∈ b.pieces, q.id = j) ∧
      (o.board.ids ++ Action.issued o.board as).Pairwise (· < ·) ∧
      (∀ i ∈ o.board.ids ++ Action.issued o.board as, 0 < i ∧ i < b.nextId) ∧
      (∀ p ∈ b.pieces, p.id ∈ o.board.ids ++ Action.issued o.board as) ∧
      ∀ g, b.goal = some g → ∃ p ∈ b.pieces, p.id = g ∧ p.kind = .goal := by
  intro b
  have ho := wellFormed_origin o
  have hb : b.WellFormed := ho.runAll as
  refine ⟨hb.acyclic, fun p hp => ?_, pairwise_numbers ho as, fun i hi => ?_, fun p hp => ?_,
    fun g hg => ?_⟩
  · have hpiece : b.piece? p.id = some p := piece?_of_mem hb.nodup hp
    obtain ⟨hpos, hlt⟩ := hb.bounded _ (mem_ids_of_piece? hpiece)
    refine ⟨hpiece, hb.arity _ p hpiece, hpos, hlt, fun j hj => ?_⟩
    exact List.mem_map.mp (hb.wired j p.id (feeds_iff.mpr ⟨p, hpiece, hj⟩))
  · rcases List.mem_append.mp hi with hi | hi
    · obtain ⟨hpos, hlt⟩ := ho.bounded i hi
      exact ⟨hpos, Int.lt_of_lt_of_le hlt (nextId_le_runAll ho as)⟩
    · obtain ⟨hlow, hhigh⟩ := bounds_of_issued ho hi
      exact ⟨Int.lt_of_lt_of_le ho.nextId_pos hlow, hhigh⟩
  · exact mem_ids_of_runAll (List.mem_map_of_mem hp)
  · obtain ⟨p, hp, hk⟩ := hb.goal g hg
    exact ⟨p, List.mem_of_find?_eq_some hp, id_of_piece? hp, hk⟩

/-- The number of a removed goal piece is not given to the next one. -/
example :
    let start := Origin.fresh (some (.atom "P" [])) none none Palette.full
    let goal := Action.edit (.add (.text "goal") (some (.cell (0, 0))) [])
    Action.issued start.board [goal, .edit (.remove 1), .edit (.setGoal 1), goal] = [1, 2] := by
  decide_cbv

end Board

end DeductionBoard
