import DeductionBoard.Proofs.Board.History
import Mathlib

/-! Wires that would close a circle. A wire is judged on the board as it is, with the old content of
the slot still in place, although that content is about to go. Where no circle is closed yet, no path
away from a piece comes back to it, so none of them runs through the slots of that piece and the old
content cannot be what decides. Main result: a wire is refused as a circle exactly where the board
with the slot refilled has one, and otherwise nothing that a player can see changes but the slot. -/

namespace DeductionBoard

open Relation

/-- The same pieces with another content in one slot. -/
def Snapshot.refill (v : Snapshot) (i : PieceId) (n : Nat) (s : Option PieceId) : Snapshot :=
  { v with pieces := v.pieces.map fun p =>
      if p.id = i then { p with slots := p.slots.set n s } else p }

namespace Board

variable {b : Board} {i j k : PieceId} {p : Piece} {n : Nat} {s : Option PieceId}

/-- Wires into other pieces stay. -/
theorem Feeds.setSlot_of_ne (h : b.Feeds j k) (hk : k ≠ i) : (b.setSlot i n s).Feeds j k := by
  obtain ⟨p, hp, hj⟩ := feeds_iff.mp h
  have hid : p.id ∉ [i] := by rwa [id_of_piece? hp, List.mem_singleton]
  refine feeds_iff.mpr ⟨p, ?_, hj⟩
  rw [piece?_setSlot, hp, Option.map_some, if_neg hid]

theorem feeds_setSlot_self (hp : b.piece? i = some p) (hn : n < p.slots.length) :
    (b.setSlot i n (some j)).Feeds j i := by
  have hid : p.id ∈ [i] := List.mem_singleton.mpr (id_of_piece? hp)
  refine feeds_iff.mpr ⟨{ p with slots := p.slots.set n (some j) }, ?_, List.mem_set hn _⟩
  rw [piece?_setSlot, hp, Option.map_some, if_pos hid]

/-- Paths away from a piece do not use the slots of that piece. -/
theorem Acyclic.reaches_setSlot (ha : b.Acyclic) (h : TransGen b.Feeds i k) :
    TransGen (b.setSlot i n s).Feeds i k := by
  -- a path that came back would be a circle, so each of its wires leads into another piece
  have hne : ∀ {k}, TransGen b.Feeds i k → k ≠ i := fun hik hki => ha i (hki ▸ hik)
  induction h with
  | single hik => exact .single (hik.setSlot_of_ne (hne (.single hik)))
  | tail hij hjk ih => exact ih.tail (hjk.setSlot_of_ne (hne (hij.tail hjk)))

/-- Refilling a slot closes a circle exactly where the new content is the piece of the slot or depends
on it. What the slot holds does not matter. -/
theorem Acyclic.setSlot_iff (ha : b.Acyclic) (hp : b.piece? i = some p) (hn : n < p.slots.length) :
    (b.setSlot i n (some j)).Acyclic ↔ j ≠ i ∧ ¬ TransGen b.Feeds i j := by
  constructor
  · intro hacyclic
    have hji : (b.setSlot i n (some j)).Feeds j i := feeds_setSlot_self hp hn
    refine ⟨?_, fun hij => hacyclic i ((ha.reaches_setSlot hij).tail hji)⟩
    rintro rfl
    exact hacyclic j (.single hji)
  · rintro ⟨hne, hnot⟩
    refine ha.wire (fun x y hxy => ?_) hne hnot
    rcases hxy.of_setSlot with hxy | ⟨hx, hy⟩
    · exact .inl hxy
    · exact .inr ⟨(Option.some.inj hx).symm, hy⟩

/-- Forgetting statuses shows nowhere. -/
@[simp] theorem snapshot_rewired (b : Board) (i : PieceId) (n : Nat) (s : Option PieceId) :
    ((b.setSlot i n s).forgetFrom i).bump.snapshot = b.snapshot.refill i n s := by
  have hforget : ∀ (is : List PieceId) (p : Piece), (forgetIn is p).forget = p.forget := by
    intro is p
    rcases forgetIn_eq_or is p with hp | hp <;> rw [hp]
    rfl
  simp only [snapshot, Snapshot.refill, bump, forgetFrom_eq, mapPieces, setSlot, update, List.map_map]
  congr 1
  refine List.map_congr_left fun p _ => ?_
  simp only [Function.comp_apply, hforget, List.mem_singleton]
  by_cases hi : p.id = i
  · rw [if_pos hi, if_pos (show p.forget.id = i from hi)]
    rfl
  · rw [if_neg hi, if_neg (show ¬ p.forget.id = i from hi)]

/-- What a wire between existing pieces comes to. -/
theorem wire_eq (hp : b.piece? i = some p) (hj : j ∈ b.ids) {slot : Int}
    (hlow : 0 ≤ slot) (hhigh : slot < p.kind.arity) :
    b.wire i slot j = if j = i ∨ i ∈ b.dependencies j then .error (.cycle i j)
      else .ok ((b.setSlot i slot.toNat (some j)).forgetFrom i).bump := by
  have hi : b.contains i = true := contains_iff.mpr (mem_ids_of_piece? hp)
  have hj : b.contains j = true := contains_iff.mpr hj
  simp only [wire, slot?, hp, hi, hj, hlow, hhigh, not_true_eq_false, and_self, if_true, if_false]

/-- At every moment of a history, a wire between existing pieces into a slot of the rule is refused
exactly where refilling the slot closes a circle; otherwise the slot is refilled. -/
theorem wire_refused_iff (o : Origin) (as : List Action) (i j : PieceId) (p : Piece) (slot : Int)
    (hp : (Action.runAll o.board as).piece? i = some p) (hj : j ∈ (Action.runAll o.board as).ids)
    (hlow : 0 ≤ slot) (hhigh : slot < p.kind.arity) :
    let b := Action.runAll o.board as
    let n := slot.toNat
    (b.wire i slot j = .error (.cycle i j) ↔ ¬ (b.setSlot i n (some j)).Acyclic) ∧
      ((b.setSlot i n (some j)).Acyclic → ∃ b' p', b.wire i slot j = .ok b' ∧
        b'.snapshot = b.snapshot.refill i n (some j) ∧
        b'.piece? i = some p' ∧ p'.slots[n]? = some (some j)) := by
  intro b n
  have hb : b.WellFormed := (wellFormed_origin o).runAll as
  have hn : n < p.slots.length := by
    rw [hb.arity i p hp]
    omega
  have hwire := wire_eq hp hj hlow hhigh
  have hcycle : (j = i ∨ i ∈ b.dependencies j) ↔ ¬ (b.setSlot i n (some j)).Acyclic := by
    rw [hb.acyclic.setSlot_iff hp hn, mem_dependencies hb.nodup hb.wired]
    tauto
  constructor
  · rw [← hcycle, hwire]
    split
    · next h => exact iff_of_true rfl h
    · next h => exact iff_of_false (by simp) h
  · intro hacyclic
    rw [if_neg fun h => hcycle.mp h hacyclic] at hwire
    have hid : p.id ∈ [i] := List.mem_singleton.mpr (id_of_piece? hp)
    refine ⟨_, forgetIn (i :: (b.setSlot i n (some j)).dependents i)
      { p with slots := p.slots.set n (some j) }, hwire, snapshot_rewired b i n (some j), ?_, ?_⟩
    · change ((b.setSlot i n (some j)).forgetFrom i).piece? i = _
      rw [forgetFrom_eq, piece?_mapPieces (forgets_forgetIn _).id, piece?_setSlot, hp,
        Option.map_some, Option.map_some, if_pos hid]
    · rw [(forgets_forgetIn _).slots]
      exact List.getElem?_set_self hn

/-- A board without pieces, target or premises. -/
def start : Origin := .fresh none none none Palette.full

/-- Two goal pieces of which the second hangs on the first. -/
def hanging : List Action :=
  [.edit (.add (.text "goal") (some (.cell (0, 0))) []),
    .edit (.add (.text "goal") (some (.cell (0, 1))) []), .edit (.wire 2 0 1)]

/-- A wire back is refused, and the wire that is there can be drawn again. -/
theorem wire_refused_back :
    (Action.runAll start.board hanging).wire 1 0 2 = .error (.cycle 1 2) ∧
      ¬ ((Action.runAll start.board hanging).setSlot 1 0 (some 2)).Acyclic ∧
      ((Action.runAll start.board hanging).setSlot 2 0 (some 1)).Acyclic := by
  have hone : (Action.runAll start.board hanging).piece? 1 =
      some (.fresh 1 .goal (.cell (0, 0)) .empty) := by decide_cbv
  have htwo : (Action.runAll start.board hanging).piece? 2 =
      some ⟨2, .goal, .cell (0, 1), .empty, [some 1], none⟩ := by decide_cbv
  have hback : (Action.runAll start.board hanging).wire 1 0 2 = .error (.cycle 1 2) := by decide_cbv
  have hagain : ((Action.runAll start.board hanging).wire 2 0 1).isOk = true := by decide_cbv
  obtain ⟨hrefused, -⟩ := wire_refused_iff start hanging 1 2 _ 0 hone (by decide_cbv) (by decide)
    (by decide)
  obtain ⟨haccepted, -⟩ := wire_refused_iff start hanging 2 1 _ 0 htwo (by decide_cbv) (by decide)
    (by decide)
  refine ⟨hback, hrefused.mp hback, not_not.mp fun h => ?_⟩
  rw [haccepted.mpr h] at hagain
  exact absurd hagain Bool.false_ne_true

end Board

end DeductionBoard
