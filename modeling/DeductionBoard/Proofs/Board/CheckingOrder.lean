import DeductionBoard.Proofs.Board.Invariant
import Mathlib.Order.WellFounded
import Mathlib.Data.Fintype.Order
import Mathlib.Data.Fintype.EquivFin

/-! The order in which pieces are checked. Main results: on a well-formed board nothing can be
followed upstream for ever, so the order lists every piece once; each stands behind the pieces that it
is wired from; and cached statuses make no difference to it. -/

namespace DeductionBoard

open Relation

namespace Board

variable {b : Board} {i j : PieceId} {p q : Piece} {w : List Piece}

/-- Only finitely many pieces can be met upstream, and none of them twice. -/
theorem WellFormed.wellFounded (h : b.WellFormed) : WellFounded b.Feeds := by
  let above : {i // i ∈ b.ids} → {i // i ∈ b.ids} → Prop := fun x y => TransGen b.Feeds x.1 y.1
  have htrans : IsTrans _ above := ⟨fun x y z => TransGen.trans⟩
  have hirrefl : Std.Irrefl above := ⟨fun x => h.acyclic x.1⟩
  have hwf : WellFounded above := Finite.wellFounded_of_trans_of_irrefl above
  have hacc : ∀ x : {i // i ∈ b.ids}, Acc b.Feeds x.1 := by
    intro x
    induction x using hwf.induction with
    | _ x ih => exact ⟨_, fun j hj => ih ⟨j, h.wired j x.1 hj⟩ (.single hj)⟩
  exact ⟨fun i => ⟨_, fun j hj => hacc ⟨j, h.wired j i hj⟩⟩⟩

theorem isReady_iff : isReady w p = true ↔ ∀ j ∈ p.premises, ∀ q ∈ w, q.id ≠ j := by
  simp [isReady]

theorem orderFrom_of_none (h : w.find? (isReady w) = none) : orderFrom w = [] := by
  rw [orderFrom, h]

theorem orderFrom_of_some (h : w.find? (isReady w) = some p) :
    orderFrom w = p.id :: orderFrom (w.erase p) := by
  rw [orderFrom, h]

/-- The order takes nothing that does not wait. -/
theorem exists_mem_of_mem_orderFrom (hi : i ∈ orderFrom w) : ∃ p ∈ w, p.id = i := by
  induction w using orderFrom.induct with
  | case1 w hnone =>
    rw [orderFrom_of_none hnone] at hi
    exact absurd hi (by simp)
  | case2 w p hp ih =>
    rw [orderFrom_of_some hp] at hi
    rcases List.mem_cons.mp hi with rfl | hi
    · exact ⟨p, List.mem_of_find?_eq_some hp, rfl⟩
    · obtain ⟨q, hq, hqi⟩ := ih hi
      exact ⟨q, List.mem_of_mem_erase hq, hqi⟩

/-- Where numbers are not repeated, a piece that is taken out leaves its number behind. -/
theorem id_ne_of_mem_erase (hw : (w.map Piece.id).Nodup) (hp : p ∈ w) (hq : q ∈ w.erase p) :
    q.id ≠ p.id := by
  obtain ⟨hne, hqw⟩ := (List.Nodup.mem_erase_iff hw.of_map).mp hq
  exact fun hid => hne (List.inj_on_of_nodup_map hw hqw hp hid)

theorem nodup_ids_erase (hw : (w.map Piece.id).Nodup) (p : Piece) :
    ((w.erase p).map Piece.id).Nodup :=
  hw.sublist (List.erase_sublist.map _)

theorem orderFrom_nodup (hw : (w.map Piece.id).Nodup) : (orderFrom w).Nodup := by
  induction w using orderFrom.induct with
  | case1 w hnone =>
    rw [orderFrom_of_none hnone]
    exact List.nodup_nil
  | case2 w p hp ih =>
    rw [orderFrom_of_some hp]
    refine List.nodup_cons.mpr ⟨fun hmem => ?_, ih (nodup_ids_erase hw p)⟩
    obtain ⟨q, hq, hqp⟩ := exists_mem_of_mem_orderFrom hmem
    exact id_ne_of_mem_erase hw (List.mem_of_find?_eq_some hp) hq hqp

/-- When a piece is taken, none of its premises still waits. -/
theorem mem_of_orderFrom_eq {l r : List PieceId} (hw : (w.map Piece.id).Nodup)
    (heq : orderFrom w = l ++ p.id :: r) (hp : p ∈ w) (hj : j ∈ p.premises)
    (hjw : j ∈ w.map Piece.id) : j ∈ l := by
  induction w using orderFrom.induct generalizing l with
  | case1 w hnone =>
    rw [orderFrom_of_none hnone] at heq
    exact absurd heq (by simp)
  | case2 w q hq ih =>
    have hqw := List.mem_of_find?_eq_some hq
    rw [orderFrom_of_some hq] at heq
    cases l with
    | nil =>
      have hid : q.id = p.id := (List.cons.inj heq).1
      obtain rfl := List.inj_on_of_nodup_map hw hqw hp hid
      obtain ⟨k, hk, hkj⟩ := List.mem_map.mp hjw
      exact absurd hkj (isReady_iff.mp (List.find?_some hq) j hj k hk)
    | cons x l =>
      obtain rfl : q.id = x := (List.cons.inj heq).1
      have hrest : orderFrom (w.erase q) = l ++ p.id :: r := (List.cons.inj heq).2
      have hpq : p ≠ q := by
        rintro rfl
        obtain ⟨k, hk, hkp⟩ := exists_mem_of_mem_orderFrom (i := p.id) (w := w.erase p)
          (by rw [hrest]; simp)
        exact id_ne_of_mem_erase hw hqw hk hkp
      by_cases hjq : j = q.id
      · exact hjq ▸ List.mem_cons_self
      · obtain ⟨k, hk, rfl⟩ := List.mem_map.mp hjw
        have hkq : k ≠ q := fun hkq => hjq (by rw [hkq])
        refine List.mem_cons_of_mem _ (ih (nodup_ids_erase hw q) hrest ?_ ?_)
        · exact (List.mem_erase_of_ne hpq).mpr hp
        · exact List.mem_map.mpr ⟨k, (List.mem_erase_of_ne hkq).mpr hk, rfl⟩

/-- Pieces of a well-formed board do not wait for ever. -/
theorem mem_orderFrom (h : b.WellFormed) (hw : ∀ p ∈ w, b.piece? p.id = some p) (hp : p ∈ w) :
    p.id ∈ orderFrom w := by
  induction w using orderFrom.induct with
  | case1 w hnone =>
    -- one of the waiting pieces has nothing above it that waits too
    have hnot : ∀ i, ∀ q ∈ w, q.id ≠ i := by
      intro i
      induction i using h.wellFounded.induction with
      | _ i ih =>
        rintro q hq rfl
        have hready : isReady w q = true := by
          refine isReady_iff.mpr fun j hj k hk => ih j ?_ k hk
          exact feeds_iff.mpr ⟨q, hw q hq, by simpa [Piece.premises] using hj⟩
        exact absurd hready (by simpa using List.find?_eq_none.mp hnone q hq)
    exact absurd rfl (hnot p.id p hp)
  | case2 w q hq ih =>
    rw [orderFrom_of_some hq]
    by_cases hpq : p = q
    · exact hpq ▸ List.mem_cons_self
    · have hw' : ∀ p ∈ w.erase q, b.piece? p.id = some p := fun p hp =>
        hw p (List.mem_of_mem_erase hp)
      exact List.mem_cons_of_mem _ (ih hw' ((List.mem_erase_of_ne hpq).mpr hp))

theorem order_nodup (h : b.WellFormed) : b.order.Nodup := orderFrom_nodup h.nodup

/-- The order lists the pieces of the board. -/
theorem mem_order (h : b.WellFormed) : i ∈ b.order ↔ i ∈ b.ids := by
  constructor
  · intro hi
    obtain ⟨p, hp, rfl⟩ := exists_mem_of_mem_orderFrom hi
    exact List.mem_map.mpr ⟨p, hp, rfl⟩
  · intro hi
    obtain ⟨p, hp, rfl⟩ := List.mem_map.mp hi
    exact mem_orderFrom h (fun q hq => piece?_of_mem h.nodup hq) hp

/-- Producers stand before consumers. -/
theorem mem_of_order_eq (h : b.WellFormed) {l r : List PieceId} (heq : b.order = l ++ i :: r)
    (hji : b.Feeds j i) : j ∈ l := by
  obtain ⟨p, hp, hj⟩ := feeds_iff.mp hji
  obtain rfl := id_of_piece? hp
  exact mem_of_orderFrom_eq h.nodup heq (mem_of_piece? hp) (by simpa [Piece.premises] using hj)
    (h.wired j _ hji)

/-! ### What the order does not depend on -/

section Map
variable {f : Piece → Piece}

theorem erase_map (hid : ∀ p, (f p).id = p.id) (hw : (w.map Piece.id).Nodup) (hp : p ∈ w) :
    (w.map f).erase (f p) = (w.erase p).map f := by
  induction w with
  | nil => simp at hp
  | cons q w ih =>
    by_cases hqp : q = p
    · subst hqp
      rw [List.map_cons, List.erase_cons_head, List.erase_cons_head]
    · have hpw : p ∈ w := (List.mem_cons.mp hp).resolve_left (Ne.symm hqp)
      rw [List.map_cons, List.nodup_cons] at hw
      have hne : f q ≠ f p := by
        intro heq
        have hid' : p.id = q.id := by rw [← hid p, ← hid q, heq]
        exact hw.1 (hid' ▸ List.mem_map.mpr ⟨p, hpw, rfl⟩)
      rw [List.map_cons, List.erase_cons_tail (by simpa using hne),
        List.erase_cons_tail (by simpa using hqp), List.map_cons, ih hw.2 hpw]

/-- Numbers and wires alone decide the order. -/
theorem orderFrom_map (hid : ∀ p, (f p).id = p.id) (hslots : ∀ p, (f p).slots = p.slots)
    (hw : (w.map Piece.id).Nodup) : orderFrom (w.map f) = orderFrom w := by
  have hready : ∀ w : List Piece, isReady (w.map f) ∘ f = isReady w := by
    intro w
    funext p
    have hwait : ∀ j, ((fun q : Piece => q.id != j) ∘ f) = fun q => q.id != j := by
      intro j
      funext q
      rw [Function.comp_apply, hid]
    simp only [Function.comp_apply, isReady, Piece.premises, hslots, List.all_map, hwait]
  induction w using orderFrom.induct with
  | case1 w hnone =>
    have : (w.map f).find? (isReady (w.map f)) = none := by
      rw [List.find?_map, hready, hnone, Option.map_none]
    rw [orderFrom_of_none this, orderFrom_of_none hnone]
  | case2 w p hp ih =>
    have : (w.map f).find? (isReady (w.map f)) = some (f p) := by
      rw [List.find?_map, hready, hp, Option.map_some]
    rw [orderFrom_of_some this, orderFrom_of_some hp, hid,
      erase_map hid hw (List.mem_of_find?_eq_some hp), ih (nodup_ids_erase hw p)]

theorem order_mapPieces (h : b.ids.Nodup) (hid : ∀ p, (f p).id = p.id)
    (hslots : ∀ p, (f p).slots = p.slots) : (b.mapPieces f).order = b.order :=
  orderFrom_map hid hslots h

end Map

end Board

end DeductionBoard
