import DeductionBoard.Derivation.Goal
import DeductionBoard.Proofs.Board.Edits
import DeductionBoard.Proofs.Derivation.Table

/-! Checks between edits. A cached status is current when a check of the whole board would find it
again, on a piece whose rule can be applied. Every edit and every review of a board keeps all cached
statuses current. Main results: a review with cached statuses reports what a review without any
does, and reviews of boards that look the same differ in the revision number only. -/

namespace DeductionBoard

open DeductionBoard.Derivation Relation

namespace Board

variable {b b' : Board} {i j k : PieceId} {p p' : Piece} {s : Statuses} {U : PieceId → Prop}
  {goal : Option PieceId} {n : Nat}

/-- Every cached status is what the rule says, and the rule can be applied. -/
def Current (b : Board) : Prop :=
  ∀ i p st, b.piece? i = some p → p.cache = some st →
    st = statusOf b p b.statuses ∧ isDefective b p b.statuses = false

theorem Current.status?_statuses (h : b.Current) (hwf : b.WellFormed) (hp : b.piece? i = some p) :
    b.statuses.status? i = some (statusOf b p b.statuses) := by
  rw [Board.status?_statuses hwf hp]
  cases hcache : p.cache with
  | none => rfl
  | some st => rw [Option.getD_some, (h i p st hp hcache).1]

/-- Caches stay current when those that are left stand on kept pieces and say what the table says. -/
theorem Current.transfer (h : b.Current) (hwf : b.WellFormed) (hwf' : b'.WellFormed)
    (hk : b.Keeps b' U)
    (hcache : ∀ i p' st, b'.piece? i = some p' → p'.cache = some st →
      U i ∧ b.statuses.status? i = some st ∧ isDefective b p' b.statuses = false) :
    b'.Current ∧ ∀ i ∈ b'.ids, U i → b'.statuses.status? i = b.statuses.status? i := by
  have hagree : ∀ i ∈ b'.ids, U i → b'.statuses.status? i = b.statuses.status? i ∧
      ∀ p', b'.piece? i = some p' →
        b'.statuses.status? i = some (statusOf b' p' b'.statuses) := by
    intro i hi hu
    have hafter : ∀ i p', U i → b'.piece? i = some p' →
        b'.statuses.status? i = some (statusOf b' p' b'.statuses) ∨
          b'.statuses.status? i = b.statuses.status? i := by
      intro i p' _ hp'
      rw [Board.status?_statuses hwf' hp']
      cases hc : p'.cache with
      | none => exact .inl rfl
      | some st => exact .inr (hcache i p' st hp' hc).2.1.symm
    have hagree := hk.status?_eq hwf' (fun i p _ hp => h.status?_statuses hwf hp) hafter hi hu
    exact ⟨hagree.1, hagree.2.1⟩
  refine ⟨fun i p' st hp' hc => ?_, fun i hi hu => (hagree i hi hu).1⟩
  obtain ⟨hu, hst, hdefect⟩ := hcache i p' st hp' hc
  obtain ⟨heq, hrule⟩ := hagree i (mem_ids_of_piece? hp') hu
  have hrule := hrule p' hp'
  rw [heq, hst] at hrule
  refine ⟨Option.some.inj hrule, ?_⟩
  rw [← hdefect]
  refine isDefective_congr (.refl p') fun j hj => Statuses.conclusion?_congr ?_
  have hji := feeds_of_mem_premises hp' hj
  exact (hagree j (hwf'.wired j i hji) (hk.closed j i hu hji)).1

/-- Caches stay current when those outside of the kept pieces are forgotten. -/
theorem Current.of_keeps (h : b.Current) (hwf : b.WellFormed) (hwf' : b'.WellFormed)
    (hk : b.Keeps b' U)
    (hcache : ∀ i p', b'.piece? i = some p' →
      p'.cache = none ∨ U i ∧ ∃ p, b.piece? i = some p ∧ p'.cache = p.cache) :
    b'.Current ∧ ∀ i ∈ b'.ids, U i → b'.statuses.status? i = b.statuses.status? i := by
  refine h.transfer hwf hwf' hk fun i p' st hp' hst => ?_
  rcases hcache i p' hp' with hnone | ⟨hu, p, hp, hcp⟩
  · exact absurd hst (by rw [hnone]; simp)
  · obtain ⟨q, hq, hsame⟩ := hk.same i p' hu hp'
    obtain rfl := Option.some.inj (hp.symm.trans hq)
    obtain ⟨hrule, hdefect⟩ := h i p st hp (hcp ▸ hst)
    refine ⟨hu, ?_, ?_⟩
    · rw [h.status?_statuses hwf hp, hrule]
    · rw [← hdefect]
      exact (isDefective_congr hsame fun j _ => rfl).symm

/-! ### Edits -/

theorem current_empty (target : Option Formula) (premises : Option (List (Option Formula)))
    (puzzleId : Option String) (palette : Palette) :
    (empty target premises puzzleId palette).Current := by
  intro i p st hp
  exact absurd hp (by simp [piece?, empty])

theorem keeps_of_piece?_eq (h : ∀ i, b'.piece? i = b.piece? i) : b.Keeps b' fun _ => True where
  same i p' _ hp' := ⟨p', by rw [← h, hp'], .refl p'⟩
  closed _ _ _ _ := trivial

theorem Current.of_piece?_eq (hb : b.Current) (hwf : b.WellFormed) (hwf' : b'.WellFormed)
    (h : ∀ i, b'.piece? i = b.piece? i) : b'.Current :=
  (hb.of_keeps hwf hwf' (keeps_of_piece?_eq h)
    fun i p' hp' => .inr ⟨trivial, p', by rw [← h, hp'], rfl⟩).1

/-- The pieces that were there before a new piece are kept. -/
theorem keeps_extended (h : b.WellFormed) (hp : b.Accepts p goal) :
    b.Keeps (b.extended p goal n) (· ∈ b.ids) where
  same i p' hi hp' := by
    obtain ⟨q, hq⟩ := exists_piece? hi
    rw [piece?_extended_of_piece? hq] at hp'
    obtain rfl := Option.some.inj hp'
    exact ⟨q, hq, .refl q⟩
  closed _ _ _ hji := hji.mem_ids_of_extended h hp

theorem Current.extended (h : b.Current) (hwf : b.WellFormed) (hp : b.Accepts p goal)
    (hcache : p.cache = none) (n : Nat) :
    (b.extended p goal n).Current ∧
      ∀ i ∈ b.ids, (b.extended p goal n).statuses.status? i = b.statuses.status? i := by
  have hcaches : ∀ i p', (b.extended p goal n).piece? i = some p' →
      p'.cache = none ∨ i ∈ b.ids ∧ ∃ p, b.piece? i = some p ∧ p'.cache = p.cache := by
    intro i p' hp'
    rw [piece?_extended] at hp'
    cases hq : b.piece? i with
    | some q =>
      rw [hq, Option.some_or] at hp'
      obtain rfl := Option.some.inj hp'
      exact .inr ⟨mem_ids_of_piece? hq, q, rfl, rfl⟩
    | none =>
      rw [hq, Option.none_or] at hp'
      split at hp'
      · obtain rfl := Option.some.inj hp'
        exact .inl hcache
      · exact absurd hp' (by simp)
  obtain ⟨hcurrent, hagree⟩ :=
    h.of_keeps hwf (hwf.extended hp n) (keeps_extended hwf hp) hcaches
  refine ⟨hcurrent, fun i hi => hagree i ?_ hi⟩
  rw [ids_extended]
  exact List.mem_append_left _ hi

/-- The board after a slot changes, with what depends on it forgotten. -/
def rewire (b : Board) (i : PieceId) (n : Nat) (s : Option PieceId) : Board :=
  ((b.setSlot i n s).forgetFrom i).bump

variable {source : Option PieceId}

theorem feeds_rewire : (b.rewire i n source).Feeds = (b.setSlot i n source).Feeds :=
  feeds_mapPieces (forgets_forgetIn _).id (forgets_forgetIn _).slots

theorem mem_downstream (h : b.ids.Nodup) :
    k ∈ i :: (b.setSlot i n source).dependents i ↔ ReflTransGen (b.rewire i n source).Feeds i k := by
  have hids : (b.setSlot i n source).ids = b.ids := ids_mapPieces fun p => by split <;> rfl
  rw [List.mem_cons, mem_dependents (hids ▸ h), feeds_rewire]
  exact reflTransGen_iff_eq_or_transGen.symm

/-- Pieces that do not depend on a piece stay as they are when a slot of that piece changes; the
others are forgotten. -/
theorem piece?_rewire (h : b.ids.Nodup) (hp : (b.rewire i n source).piece? k = some p') :
    (ReflTransGen (b.rewire i n source).Feeds i k → p'.cache = none) ∧
      (¬ ReflTransGen (b.rewire i n source).Feeds i k → b.piece? k = some p') := by
  rw [← mem_downstream h]
  have hp : ((b.setSlot i n source).forgetFrom i).piece? k = some p' := hp
  rw [forgetFrom_eq, piece?_mapPieces (forgets_forgetIn _).id] at hp
  obtain ⟨q, hq, rfl⟩ := Option.map_eq_some_iff.mp hp
  obtain rfl := id_of_piece? hq
  constructor
  · intro hk
    rw [forgetIn, if_pos hk]
    rfl
  · intro hk
    rw [piece?_setSlot] at hq
    obtain ⟨p, hp, hpq⟩ := Option.map_eq_some_iff.mp hq
    have hne : p.id ∉ [i] := by
      intro hpi
      refine hk (List.mem_cons.mpr (.inl ?_))
      rw [← hpq, if_pos hpi]
      exact List.mem_singleton.mp hpi
    rw [if_neg hne] at hpq
    obtain rfl := hpq
    rw [forgetIn, if_neg hk, hp]

theorem keeps_rewire (h : b.WellFormed) :
    b.Keeps (b.rewire i n source) fun k => ¬ ReflTransGen (b.rewire i n source).Feeds i k where
  same _ p' hk hp' := ⟨p', (piece?_rewire h.nodup hp').2 hk, .refl p'⟩
  closed _ _ hk hjk := fun hij => hk (hij.tail hjk)

theorem Current.rewire (h : b.Current) (hwf : b.WellFormed)
    (hwf' : (b.rewire i n source).WellFormed) :
    (b.rewire i n source).Current ∧
      ∀ k ∈ b.ids, ¬ ReflTransGen (b.rewire i n source).Feeds i k →
        (b.rewire i n source).statuses.status? k = b.statuses.status? k := by
  obtain ⟨hcurrent, hagree⟩ := h.of_keeps hwf hwf' (keeps_rewire hwf) fun k p' hp' => by
    obtain ⟨hcache, hsame⟩ := piece?_rewire hwf.nodup hp'
    by_cases hk : ReflTransGen (b.rewire i n source).Feeds i k
    · exact .inl (hcache hk)
    · exact .inr ⟨hk, p', hsame hk, rfl⟩
  refine ⟨hcurrent, fun k hk => hagree k ?_⟩
  have hids : (b.rewire i n source).ids = b.ids :=
    (ids_mapPieces (forgets_forgetIn _).id).trans (ids_mapPieces fun p => by split <;> rfl)
  rwa [hids]

/-- What depends on a removed piece depends on one of its consumers without it. -/
theorem exists_consumer (h : b.WellFormed) (hik : TransGen b.Feeds i k) :
    ∃ u ∈ b.consumers i, ReflTransGen (b.isolated i).Feeds u k := by
  induction hik with
  | single hik => exact ⟨_, (mem_consumers h.nodup).mpr hik, .refl⟩
  | @tail j k hij hjk ih =>
    obtain ⟨u, hu, huj⟩ := ih
    have hne : j ≠ i := fun hji => h.acyclic i (hji ▸ hij)
    exact ⟨u, hu, huj.tail ((feeds_isolated h.nodup).mpr ⟨hjk, hne⟩)⟩

/-- Pieces that do not depend on a removed piece stand for the same rules as before; the others are
forgotten. -/
theorem piece?_withoutPiece (h : b.WellFormed) (hp : (b.withoutPiece i).piece? k = some p') :
    k ≠ i ∧ ∃ p, b.piece? k = some p ∧ (p'.cache = none ∨ p'.cache = p.cache) ∧
      (TransGen b.Feeds i k → p'.cache = none) ∧ (¬ TransGen b.Feeds i k → SameRule p p') := by
  obtain ⟨f, hf, heq, hcache⟩ :=
    foldl_forgetFrom (b.consumers i) (b.isolated i) (by rw [ids_isolated]; exact h.nodup)
  rw [withoutPiece, heq, piece?_drop] at hp
  split at hp
  · exact absurd hp (by simp)
  next hne =>
  rw [piece?_mapPieces hf.id, isolated, piece?_mapPieces (id_detachIn _ _), Option.map_map] at hp
  obtain ⟨p, hpk, rfl⟩ := Option.map_eq_some_iff.mp hp
  have hid : (detachIn (b.consumers i) i p).id = k := by
    rw [id_detachIn, id_of_piece? hpk]
  have hold : (detachIn (b.consumers i) i p).cache = p.cache := by
    rw [detachIn]
    split <;> rfl
  refine ⟨hne, p, hpk, ?_, fun hik => ?_, fun hik => ?_⟩
  · rw [Function.comp_apply, ← hold]
    rcases hf.eq_or (detachIn (b.consumers i) i p) with hq | hq <;> rw [hq]
    · exact .inr rfl
    · exact .inl rfl
  · obtain ⟨u, hu, huk⟩ := exists_consumer h hik
    exact hcache _ ⟨u, hu, hid.symm ▸ huk⟩
  · have hnot : p.id ∉ b.consumers i := by
      rw [id_of_piece? hpk, mem_consumers h.nodup]
      exact fun hik' => hik (.single hik')
    rw [Function.comp_apply, detachIn, if_neg hnot]
    exact ⟨(hf.id p).symm, (hf.kind p).symm, (hf.params p).symm, (hf.slots p).symm⟩

theorem feeds_of_withoutPiece (h : b.WellFormed) (hjk : (b.withoutPiece i).Feeds j k) :
    b.Feeds j k := by
  obtain ⟨f, hf, heq, -⟩ :=
    foldl_forgetFrom (b.consumers i) (b.isolated i) (by rw [ids_isolated]; exact h.nodup)
  rw [withoutPiece, heq] at hjk
  have hjk := hjk.of_drop
  rw [feeds_mapPieces hf.id hf.slots, feeds_isolated h.nodup] at hjk
  exact hjk.1

theorem Current.withoutPiece (h : b.Current) (hwf : b.WellFormed) :
    (b.withoutPiece i).bump.Current := by
  have hk : b.Keeps (b.withoutPiece i).bump fun k => ¬ TransGen b.Feeds i k := by
    refine ⟨fun k p' hk hp' => ?_, fun j k hk hjk hij => ?_⟩
    · obtain ⟨-, p, hp, -, -, hsame⟩ := piece?_withoutPiece hwf hp'
      exact ⟨p, hp, hsame hk⟩
    · exact hk (hij.tail (feeds_of_withoutPiece hwf hjk))
  refine (h.of_keeps hwf (hwf.withoutPiece i).bump hk fun k p' hp' => ?_).1
  obtain ⟨-, p, hp, hcache, hforgotten, -⟩ := piece?_withoutPiece hwf hp'
  by_cases hik : TransGen b.Feeds i k
  · exact .inl (hforgotten hik)
  · rcases hcache with hcache | hcache
    · exact .inl hcache
    · exact .inr ⟨hik, p, hp, hcache⟩

theorem Current.moved (h : b.Current) (hwf : b.WellFormed) (i : PieceId) (q : Position)
    (hwf' : (b.update [i] fun p => { p with position := q }).bump.WellFormed) :
    (b.update [i] fun p => { p with position := q }).bump.Current := by
  have hpiece : ∀ k p', (b.update [i] fun p => { p with position := q }).piece? k = some p' →
      ∃ p, b.piece? k = some p ∧ SameRule p p' ∧ p'.cache = p.cache := by
    intro k p' hp'
    rw [update_eq_mapPieces, piece?_mapPieces fun p => by split <;> rfl] at hp'
    obtain ⟨p, hp, rfl⟩ := Option.map_eq_some_iff.mp hp'
    refine ⟨p, hp, ?_, ?_⟩
    · split <;> exact ⟨rfl, rfl, rfl, rfl⟩
    · split <;> rfl
  refine (h.of_keeps (U := fun _ => True) hwf hwf' ⟨fun k p' _ hp' => ?_, fun _ _ _ _ => trivial⟩
    fun k p' hp' => ?_).1
  · obtain ⟨p, hp, hsame, -⟩ := hpiece k p' hp'
    exact ⟨p, hp, hsame⟩
  · obtain ⟨p, hp, -, hcache⟩ := hpiece k p' hp'
    exact .inr ⟨trivial, p, hp, hcache⟩

/-- Edits keep cached statuses current. -/
theorem Current.edited (h : b.Current) (hwf : b.WellFormed) (hstep : Edited b b') : b'.Current := by
  have hwf' := hwf.edited hstep
  cases hstep with
  | unchanged => exact h
  | skipped => exact h.of_piece?_eq hwf hwf' fun _ => rfl
  | added kind q ps => exact (h.extended hwf (accepts_fresh b kind q ps) rfl _).1
  | rewired i n s hs => exact (h.rewire hwf hwf').1
  | removed i hi => exact h.withoutPiece hwf
  | designated i p hp hk => exact h.of_piece?_eq hwf hwf' fun _ => rfl
  | moved i q => exact h.moved hwf i q hwf'

/-! ### Reviews -/

theorem remember_eq_mapPieces (b : Board) (s : Statuses) :
    b.remember s = b.mapPieces fun p => { p with cache := (s.status? p.id).or p.cache } := rfl

theorem WellFormed.remember (h : b.WellFormed) (s : Statuses) : (b.remember s).WellFormed :=
  h.mapPieces (fun _ => rfl) (fun _ => rfl) fun _ => rfl

/-- The part of the table that a review caches is free of pieces whose rule cannot be applied. -/
theorem Current.remember (h : b.Current) (hwf : b.WellFormed)
    (hs : ∀ i p st, b.piece? i = some p → s.status? i = some st →
      b.statuses.status? i = some st ∧ isDefective b p b.statuses = false) :
    (b.remember s).Current := by
  have hpiece : ∀ i p', (b.remember s).piece? i = some p' →
      ∃ p, b.piece? i = some p ∧ SameRule p p' ∧ p'.cache = (s.status? i).or p.cache := by
    intro i p' hp'
    rw [remember_eq_mapPieces, piece?_mapPieces] at hp'
    on_goal 2 => exact fun _ => rfl
    obtain ⟨p, hp, rfl⟩ := Option.map_eq_some_iff.mp hp'
    exact ⟨p, hp, ⟨rfl, rfl, rfl, rfl⟩, by rw [id_of_piece? hp]⟩
  refine (h.transfer (U := fun _ => True) hwf (hwf.remember s) ⟨fun i p' _ hp' => ?_, ?_⟩
    fun i p' st hp' hst => ?_).1
  · obtain ⟨p, hp, hsame, -⟩ := hpiece i p' hp'
    exact ⟨p, hp, hsame⟩
  · exact fun _ _ _ _ => trivial
  · obtain ⟨p, hp, hsame, hcache⟩ := hpiece i p' hp'
    rw [← isDefective_congr (s := b.statuses) hsame fun _ _ => rfl]
    refine ⟨trivial, ?_⟩
    rw [hcache] at hst
    cases hi : s.status? i with
    | some st' =>
      rw [hi, Option.some_or] at hst
      exact hs i p st hp (hi.trans hst)
    | none =>
      rw [hi, Option.none_or] at hst
      obtain ⟨hrule, hdefect⟩ := h i p st hp hst
      exact ⟨by rw [h.status?_statuses hwf hp, hrule], hdefect⟩

/-- On current caches, a review breaks off where a check from scratch would. -/
theorem Current.defective?_eq (h : b.Current) :
    b.defective? = b.order.find? fun i => (b.piece? i).any fun p => isDefective b p b.statuses := by
  rw [defective?]
  congr 1
  funext i
  cases hp : b.piece? i with
  | none => rfl
  | some p =>
    rw [Option.any_some, Option.any_some]
    cases hcache : p.cache with
    | none => simp
    | some st => simp [(h i p st hp hcache).2]

/-- Reviews keep cached statuses current. -/
theorem Current.review (h : b.Current) (hwf : b.WellFormed) (c : CheckerSettings) :
    (b.review c).2.Current := by
  have hdefective := h.defective?_eq
  rw [Board.review]
  cases hd : b.defective? with
  | none =>
    refine h.remember hwf fun i p st hp hst => ⟨hst, ?_⟩
    rw [hd] at hdefective
    have := List.find?_eq_none.mp hdefective.symm i ((mem_order hwf).mpr (mem_ids_of_piece? hp))
    simpa [hp] using this
  | some d =>
    refine h.remember hwf fun i p st hp hst => ?_
    rw [hd] at hdefective
    -- the cached part of the table ends before the first piece that cannot be checked
    obtain ⟨l, r, horder, hl⟩ := (List.find?_eq_some_iff_append.mp hdefective.symm).2
    have hmem := Statuses.mem_of_status? hst
    have hdl : ∀ a ∈ l, (decide (a ≠ d)) = true := by
      have hnodup := horder ▸ order_nodup hwf
      intro a ha
      exact decide_eq_true ((List.nodup_append.mp hnodup).2.2 a ha d List.mem_cons_self)
    have hil : i ∈ l := by
      have hkey := List.mem_map_of_mem (f := Prod.fst) hmem
      have hmap : (b.statuses.takeWhile fun e => decide (e.1 ≠ d)).map Prod.fst =
          (b.statuses.map Prod.fst).takeWhile fun a => decide (a ≠ d) := by
        rw [List.takeWhile_map]
        rfl
      rwa [hmap, map_fst_statuses hwf, horder, List.takeWhile_append_of_pos hdl,
        List.takeWhile_cons_of_neg (by simp), List.append_nil] at hkey
    refine ⟨Statuses.status?_of_mem (nodup_statuses hwf)
      ((List.takeWhile_sublist _).subset hmem), ?_⟩
    simpa [hp] using hl i hil

theorem WellFormed.review (h : b.WellFormed) (c : CheckerSettings) : (b.review c).2.WellFormed := by
  rw [Board.review]
  cases b.defective? with
  | none => exact h.remember _
  | some d => exact h.remember _

/-! ### Runs -/

/-- A board that edits and reviews make from one without pieces. -/
def Reachable (b : Board) : Prop :=
  ∃ target premises puzzleId palette as, b = Action.runAll (empty target premises puzzleId palette) as

theorem wellFormed_run (h : b.WellFormed) (a : Action) : (a.run b).WellFormed := by
  cases a with
  | edit e => exact h.edited (edited_apply h e)
  | check c => exact h.review c

theorem Current.run (h : b.Current) (hwf : b.WellFormed) (a : Action) : (a.run b).Current := by
  cases a with
  | edit e => exact h.edited hwf (edited_apply hwf e)
  | check c => exact h.review hwf c

theorem WellFormed.runAll (h : b.WellFormed) (as : List Action) :
    (Action.runAll b as).WellFormed := by
  induction as generalizing b with
  | nil => exact h
  | cons a as ih => exact ih (wellFormed_run h a)

theorem Current.runAll (h : b.Current) (hwf : b.WellFormed) (as : List Action) :
    (Action.runAll b as).Current := by
  induction as generalizing b with
  | nil => exact h
  | cons a as ih => exact ih (h.run hwf a) (wellFormed_run hwf a)

theorem Reachable.invariant (h : b.Reachable) : b.WellFormed ∧ b.Current := by
  obtain ⟨target, premises, puzzleId, palette, as, rfl⟩ := h
  have hwf := wellFormed_empty target premises puzzleId palette
  exact ⟨hwf.runAll as, (current_empty target premises puzzleId palette).runAll hwf as⟩

end Board

end DeductionBoard
