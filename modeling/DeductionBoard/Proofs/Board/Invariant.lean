import DeductionBoard.Proofs.Board.Wiring

/-! The invariant of boards. On a board that edits have made, numbers ascend and stay below the next
one, every piece has the slots of its rule, wires start at pieces of the board and close no circle,
and the goal is a goal piece. Main result: every edit keeps this, whether it succeeds or not. -/

namespace DeductionBoard

open Relation

namespace Board

variable {b : Board} {i j k : PieceId} {p : Piece}

structure WellFormed (b : Board) : Prop where
  ascending : b.ids.Pairwise (· < ·)
  bounded : ∀ i ∈ b.ids, 0 < i ∧ i < b.nextId
  nextId_pos : 0 < b.nextId
  arity : ∀ i p, b.piece? i = some p → p.slots.length = p.kind.arity
  wired : b.Wired
  acyclic : b.Acyclic
  goal : ∀ g, b.goal = some g → ∃ p, b.piece? g = some p ∧ p.kind = .goal

theorem WellFormed.nodup (h : b.WellFormed) : b.ids.Nodup :=
  h.ascending.imp fun hlt => Int.ne_of_lt hlt

theorem WellFormed.nextId_notMem (h : b.WellFormed) : b.nextId ∉ b.ids :=
  fun hmem => Int.lt_irrefl _ (h.bounded _ hmem).2

theorem wellFormed_empty (target : Option Formula) (premises : Option (List (Option Formula)))
    (puzzleId : Option String) (palette : Palette) :
    (empty target premises puzzleId palette).WellFormed where
  ascending := List.Pairwise.nil
  bounded i hi := absurd hi (by simp [ids, empty])
  nextId_pos := by simp [empty]
  arity i p hp := absurd hp (by simp [piece?, empty])
  wired j i hji := absurd hji.mem_ids (by simp [ids, empty])
  acyclic i hi := by
    obtain ⟨j, -, hj⟩ := TransGen.tail'_iff.mp hi
    exact absurd hj.mem_ids (by simp [ids, empty])
  goal g hg := absurd hg (by simp [empty])

/-- Only the pieces, the goal and the next number matter. -/
theorem WellFormed.bump (h : b.WellFormed) : b.bump.WellFormed :=
  ⟨h.ascending, h.bounded, h.nextId_pos, h.arity, h.wired, h.acyclic, h.goal⟩

theorem WellFormed.skipNumber (h : b.WellFormed) : { b with nextId := b.nextId + 1 }.WellFormed :=
  ⟨h.ascending,
    fun i hi => ⟨(h.bounded i hi).1, Int.lt_add_one_of_le (Int.le_of_lt (h.bounded i hi).2)⟩,
    Int.lt_add_one_of_le (Int.le_of_lt h.nextId_pos), h.arity, h.wired, h.acyclic, h.goal⟩

/-! ### Changes of single pieces -/

/-- Changes every piece on its own. -/
def mapPieces (b : Board) (f : Piece → Piece) : Board := { b with pieces := b.pieces.map f }

theorem update_eq_mapPieces (b : Board) (is : List PieceId) (f : Piece → Piece) :
    b.update is f = b.mapPieces fun p => if p.id ∈ is then f p else p := rfl

section Map
variable {f : Piece → Piece}

theorem piece?_mapPieces (hid : ∀ p, (f p).id = p.id) :
    (b.mapPieces f).piece? i = (b.piece? i).map f := by
  have : ((fun p : Piece => p.id == i) ∘ f) = fun p => p.id == i := by
    funext p
    rw [Function.comp_apply, hid]
  rw [piece?, piece?, mapPieces, List.find?_map, this]

theorem ids_mapPieces (hid : ∀ p, (f p).id = p.id) : (b.mapPieces f).ids = b.ids := by
  rw [ids, mapPieces, List.map_map]
  exact List.map_congr_left fun p _ => hid p

theorem feeds_mapPieces (hid : ∀ p, (f p).id = p.id) (hslots : ∀ p, (f p).slots = p.slots) :
    (b.mapPieces f).Feeds = b.Feeds := by
  funext j i
  rw [feeds_iff, feeds_iff, piece?_mapPieces hid]
  simp [hslots]

/-- Numbers, rules and slots are all that the invariant looks at. -/
theorem WellFormed.mapPieces (h : b.WellFormed) (hid : ∀ p, (f p).id = p.id)
    (hkind : ∀ p, (f p).kind = p.kind) (hslots : ∀ p, (f p).slots = p.slots) :
    (b.mapPieces f).WellFormed := by
  have hids := ids_mapPieces (b := b) hid
  have hfeeds := feeds_mapPieces (b := b) hid hslots
  constructor
  · rw [hids]
    exact h.ascending
  · rw [hids]
    exact h.bounded
  · exact h.nextId_pos
  · intro i p hp
    rw [piece?_mapPieces hid] at hp
    obtain ⟨q, hq, rfl⟩ := Option.map_eq_some_iff.mp hp
    rw [hkind, hslots]
    exact h.arity i q hq
  · rw [Wired, hids, hfeeds]
    exact h.wired
  · rw [Acyclic, hfeeds]
    exact h.acyclic
  · intro g hg
    obtain ⟨p, hp, hk⟩ := h.goal g hg
    exact ⟨f p, by rw [piece?_mapPieces hid, hp, Option.map_some], by rw [hkind, hk]⟩

end Map

@[simp] theorem id_forget (p : Piece) : p.forget.id = p.id := rfl

/-- The piece without its status, where it is one of those that forget theirs. -/
def forgetIn (is : List PieceId) (p : Piece) : Piece := if p.id ∈ is then p.forget else p

theorem forgetFrom_eq (b : Board) (i : PieceId) :
    b.forgetFrom i = b.mapPieces (forgetIn (i :: b.dependents i)) := rfl

theorem forgetIn_eq_or (is : List PieceId) (p : Piece) :
    forgetIn is p = p ∨ forgetIn is p = p.forget := by
  unfold forgetIn
  split
  · exact .inr rfl
  · exact .inl rfl

/-- Nothing but statuses is forgotten. -/
structure Forgets (f : Piece → Piece) : Prop where
  eq_or : ∀ p, f p = p ∨ f p = p.forget

namespace Forgets

variable {f g : Piece → Piece}

theorem id (h : Forgets f) (p : Piece) : (f p).id = p.id := by
  rcases h.eq_or p with hp | hp <;> rw [hp]; rfl

theorem kind (h : Forgets f) (p : Piece) : (f p).kind = p.kind := by
  rcases h.eq_or p with hp | hp <;> rw [hp]; rfl

theorem params (h : Forgets f) (p : Piece) : (f p).params = p.params := by
  rcases h.eq_or p with hp | hp <;> rw [hp]; rfl

theorem slots (h : Forgets f) (p : Piece) : (f p).slots = p.slots := by
  rcases h.eq_or p with hp | hp <;> rw [hp]; rfl

theorem comp (hf : Forgets f) (hg : Forgets g) : Forgets (g ∘ f) := by
  constructor
  intro p
  rcases hf.eq_or p with hp | hp <;> rw [Function.comp_apply, hp]
  · exact hg.eq_or p
  · rcases hg.eq_or p.forget with hq | hq <;> rw [hq]
    · exact .inr rfl
    · exact .inr rfl

end Forgets

theorem forgets_forgetIn (is : List PieceId) : Forgets (forgetIn is) := ⟨forgetIn_eq_or is⟩

theorem WellFormed.forget {f : Piece → Piece} (h : b.WellFormed) (hf : Forgets f) :
    (b.mapPieces f).WellFormed := h.mapPieces hf.id hf.kind hf.slots

/-! ### Slots -/

theorem piece?_setSlot (b : Board) (i : PieceId) (n : Nat) (s : Option PieceId) (k : PieceId) :
    (b.setSlot i n s).piece? k =
      (b.piece? k).map fun p => if p.id ∈ [i] then { p with slots := p.slots.set n s } else p :=
  piece?_mapPieces fun p => by split <;> rfl

/-- A wire of the changed board is an old one or the new one. -/
theorem Feeds.of_setSlot {n : Nat} {s : Option PieceId} (h : (b.setSlot i n s).Feeds j k) :
    b.Feeds j k ∨ s = some j ∧ k = i := by
  obtain ⟨p, hp, hj⟩ := feeds_iff.mp h
  rw [piece?_setSlot] at hp
  obtain ⟨q, hq, rfl⟩ := Option.map_eq_some_iff.mp hp
  split at hj
  · next hi =>
    rcases List.mem_or_eq_of_mem_set hj with hj | hj
    · exact .inl (feeds_iff.mpr ⟨q, hq, hj⟩)
    · rw [id_of_piece? hq, List.mem_singleton] at hi
      exact .inr ⟨hj.symm, hi⟩
  · exact .inl (feeds_iff.mpr ⟨q, hq, hj⟩)

/-- A slot may hold a piece of the board that does not depend on the piece of the slot. -/
theorem WellFormed.setSlot {n : Nat} {s : Option PieceId} (h : b.WellFormed)
    (hs : ∀ j, s = some j → j ∈ b.ids ∧ j ≠ i ∧ ¬ TransGen b.Feeds i j) :
    (b.setSlot i n s).WellFormed := by
  have hids : (b.setSlot i n s).ids = b.ids := ids_mapPieces fun p => by split <;> rfl
  constructor
  · rw [hids]
    exact h.ascending
  · rw [hids]
    exact h.bounded
  · exact h.nextId_pos
  · intro k p hp
    rw [piece?_setSlot] at hp
    obtain ⟨q, hq, rfl⟩ := Option.map_eq_some_iff.mp hp
    split
    · rw [List.length_set]
      exact h.arity k q hq
    · exact h.arity k q hq
  · intro j k hjk
    rw [hids]
    rcases hjk.of_setSlot with hjk | ⟨hj, -⟩
    · exact h.wired j k hjk
    · exact (hs j hj).1
  · cases s with
    | none =>
      refine h.acyclic.mono fun j k hjk => ?_
      rcases hjk.of_setSlot with hjk | ⟨hj, -⟩
      · exact hjk
      · exact absurd hj (by simp)
    | some j =>
      refine h.acyclic.wire (fun x y hxy => ?_) (hs j rfl).2.1 (hs j rfl).2.2
      rcases hxy.of_setSlot with hxy | ⟨hx, hy⟩
      · exact .inl hxy
      · exact .inr ⟨(Option.some.inj hx).symm, hy⟩
  · intro g hg
    obtain ⟨p, hp, hk⟩ := h.goal g hg
    rw [piece?_setSlot, hp]
    refine ⟨_, rfl, ?_⟩
    simp only
    split
    · exact hk
    · exact hk

end Board

end DeductionBoard
