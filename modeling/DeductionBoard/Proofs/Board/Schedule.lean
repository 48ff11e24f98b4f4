import DeductionBoard.Proofs.Board.History
import Mathlib

/-! Schedules of a board: lists of all its pieces, each once and behind the pieces that it is wired
from. A board may have many of them. Taking the least number whenever several pieces are ready leads
to the one that comes first when numbers are compared from the front, since every schedule begins
with a ready piece. The same list comes out when each piece counts the different pieces that it still
waits for. Main result: at every moment of a history, the order of checking is the least schedule,
and it is the list that counting gives. -/

namespace DeductionBoard

namespace Board

variable {b : Board} {i j : PieceId} {p q : Piece} {w : List Piece} {l : List PieceId}

/-! ### Counting -/

/-- One piece less to wait for in each of the users. -/
def lower (users : List PieceId) (counts : List (PieceId × Nat)) : List (PieceId × Nat) :=
  counts.map fun e => if e.1 ∈ users then (e.1, e.2 - 1) else e

/-- The pieces that have to wait. -/
def held (counts : List (PieceId × Nat)) : List (PieceId × Nat) := counts.filter fun e => e.2 ≠ 0

/-- The pieces that wait for nothing. -/
def freed (counts : List (PieceId × Nat)) : List PieceId :=
  (counts.filter fun e => e.2 = 0).map (·.1)

theorem length_freed_add_length_held (counts : List (PieceId × Nat)) :
    (freed counts).length + (held counts).length = counts.length := by
  have hparts := List.length_eq_length_filter_add (l := counts) fun e => decide (e.2 = 0)
  simp only [freed, held, List.length_map, hparts, ne_eq, decide_not]

/-- Takes ready pieces by ascending number. A piece that is taken is one less to wait for in each of
its consumers, and a consumer that waits for nothing any more becomes ready. -/
def countFrom (b : Board) (waiting : List (PieceId × Nat)) (ready : List PieceId) : List PieceId :=
  match ready with
  | [] => []
  | i :: rest =>
    i :: b.countFrom (held (lower (b.consumers i) waiting))
      (Ascending.union rest (freed (lower (b.consumers i) waiting)))
termination_by waiting.length + ready.length
decreasing_by
  have hunion := Ascending.length_union_le rest (freed (lower (b.consumers i) waiting))
  have hparts := length_freed_add_length_held (lower (b.consumers i) waiting)
  have hlower : (lower (b.consumers i) waiting).length = waiting.length := List.length_map _
  rw [List.length_cons]
  omega

/-- Every piece counts the different pieces that it is wired from; those that count none are
ready. -/
def countdown (b : Board) : List PieceId :=
  let counts := b.pieces.map fun p => (p.id, (Ascending.ofList p.premises).length)
  b.countFrom (held counts) (Ascending.ofList (freed counts))

/-- The number of different waiting pieces that a piece is wired from. -/
def openPremises (w : List Piece) (p : Piece) : Nat :=
  ((Ascending.ofList p.premises).filter fun j => j ∈ w.map Piece.id).length

theorem openPremises_eq_zero_iff : openPremises w p = 0 ↔ isReady w p = true := by
  simp [openPremises, isReady_iff]

theorem mem_map_id_erase (hw : (w.map Piece.id).Nodup) (hp : p ∈ w) :
    j ∈ (w.erase p).map Piece.id ↔ j ∈ w.map Piece.id ∧ j ≠ p.id := by
  constructor
  · intro hj
    obtain ⟨q, hq, rfl⟩ := List.mem_map.mp hj
    exact ⟨List.mem_map_of_mem (List.mem_of_mem_erase hq), id_ne_of_mem_erase hw hp hq⟩
  · rintro ⟨hj, hne⟩
    obtain ⟨q, hq, rfl⟩ := List.mem_map.mp hj
    have hqp : q ≠ p := fun hqp => hne (congrArg Piece.id hqp)
    exact List.mem_map_of_mem ((List.mem_erase_of_ne hqp).mpr hq)

/-- A piece that is taken is one less to wait for. -/
theorem openPremises_erase (hw : (w.map Piece.id).Nodup) (hp : p ∈ w) (q : Piece) :
    openPremises (w.erase p) q =
      if p.id ∈ q.premises then openPremises w q - 1 else openPremises w q := by
  have hnodup : ((Ascending.ofList q.premises).filter fun j => j ∈ w.map Piece.id).Nodup :=
    ((Ascending.pairwise_ofList q.premises).imp fun h => Int.ne_of_lt h).filter _
  have herase : (Ascending.ofList q.premises).filter (fun j => j ∈ (w.erase p).map Piece.id) =
      ((Ascending.ofList q.premises).filter fun j => j ∈ w.map Piece.id).erase p.id := by
    rw [List.Nodup.erase_eq_filter hnodup, List.filter_filter]
    refine List.filter_congr fun j _ => ?_
    rw [Bool.eq_iff_iff]
    simp only [decide_eq_true_eq, Bool.and_eq_true, bne_iff_ne, mem_map_id_erase hw hp, and_comm]
  have hmem : p.id ∈ (Ascending.ofList q.premises).filter (fun j => j ∈ w.map Piece.id) ↔
      p.id ∈ q.premises := by
    rw [List.mem_filter, Ascending.mem_ofList, decide_eq_true_eq]
    exact and_iff_left (List.mem_map_of_mem hp)
  simp only [openPremises, herase, List.length_erase, hmem]

/-- What some pieces count while those of a list wait. -/
def openCounts (w ps : List Piece) : List (PieceId × Nat) :=
  ps.map fun p => (p.id, openPremises w p)

theorem held_openCounts (w ps : List Piece) :
    held (openCounts w ps) = openCounts w (ps.filter fun p => !isReady w p) := by
  rw [held, openCounts, List.filter_map, openCounts]
  congr 1
  refine List.filter_congr fun p _ => ?_
  rw [Bool.eq_iff_iff]
  simp [openPremises_eq_zero_iff]

theorem freed_openCounts (w ps : List Piece) :
    freed (openCounts w ps) = (ps.filter (isReady w)).map Piece.id := by
  rw [freed, openCounts, List.filter_map, List.map_map]
  congr 1
  refine List.filter_congr fun p _ => ?_
  rw [Bool.eq_iff_iff]
  simp [openPremises_eq_zero_iff]

/-- When a piece is taken, its consumers count one less and the others the same. -/
theorem lower_held (h : b.WellFormed) (hw : w.Sublist b.pieces) (hp : p ∈ w) :
    lower (b.consumers p.id) (held (openCounts w w)) =
      openCounts (w.erase p) (w.filter fun q => !isReady w q) := by
  rw [held_openCounts, lower, openCounts, List.map_map, openCounts]
  refine List.map_congr_left fun q hq => ?_
  have huser : q.id ∈ b.consumers p.id ↔ p.id ∈ q.premises := by
    have hqb : q ∈ b.pieces := hw.subset (List.mem_of_mem_filter hq)
    rw [mem_consumers h.nodup, feeds_iff, piece?_of_mem h.nodup hqb]
    simp [Piece.premises]
  rw [Function.comp_apply, openPremises_erase (h.nodup.sublist (hw.map _)) hp]
  simp only [huser]
  split <;> rfl

/-- Whoever is ready stays ready when a piece is taken. -/
theorem isReady_erase (h : isReady w q = true) (p : Piece) : isReady (w.erase p) q = true :=
  isReady_iff.mpr fun j hj r hr => isReady_iff.mp h j hj r (List.mem_of_mem_erase hr)

theorem mem_erase_of_not_isReady (hready : isReady w p = true) (hq : q ∈ w)
    (hnot : isReady w q = false) : q ∈ w.erase p := by
  refine (List.mem_erase_of_ne ?_).mpr hq
  rintro rfl
  exact Bool.false_ne_true (hnot.symm.trans hready)

/-- Those who wait after a piece is taken have waited before and are not freed by it. -/
theorem held_lower (h : b.WellFormed) (hw : w.Sublist b.pieces) (hp : p ∈ w)
    (hready : isReady w p = true) :
    held (lower (b.consumers p.id) (held (openCounts w w))) =
      held (openCounts (w.erase p) (w.erase p)) := by
  have hnot : p ∉ w.filter fun q => !isReady (w.erase p) q := by
    simp [isReady_erase hready p]
  have herase : (w.erase p).filter (fun q => !isReady (w.erase p) q) =
      w.filter fun q => !isReady (w.erase p) q := by
    rw [← List.erase_filter, List.erase_of_not_mem hnot]
  rw [lower_held h hw hp, held_openCounts, held_openCounts, List.filter_filter, herase]
  congr 1
  refine List.filter_congr fun q _ => ?_
  cases hq : isReady w q with
  | false => simp
  | true => simp [isReady_erase hq p]

/-- Those who are ready after a piece is taken have been ready before or are freed by it. -/
theorem union_freed (h : b.WellFormed) (hw : w.Sublist b.pieces) (hp : p ∈ w)
    (hready : isReady w p = true) :
    Ascending.union (((w.erase p).filter (isReady w)).map Piece.id)
      (freed (lower (b.consumers p.id) (held (openCounts w w)))) =
        freed (openCounts (w.erase p) (w.erase p)) := by
  have hascending : ((w.erase p).map Piece.id).Pairwise (· < ·) :=
    h.ascending.sublist ((List.erase_sublist.trans hw).map _)
  rw [lower_held h hw hp, freed_openCounts, freed_openCounts, List.filter_filter]
  refine (Ascending.pairwise_union ?_).eq_of_mem_iff ?_ fun i => ?_
  · exact hascending.sublist (List.filter_sublist.map _)
  · exact hascending.sublist (List.filter_sublist.map _)
  rw [Ascending.mem_union]
  constructor
  · rintro (hi | hi)
    · obtain ⟨q, hq, rfl⟩ := List.mem_map.mp hi
      obtain ⟨hqw, hqready⟩ := List.mem_filter.mp hq
      exact List.mem_map_of_mem (List.mem_filter.mpr ⟨hqw, isReady_erase hqready p⟩)
    · obtain ⟨q, hq, rfl⟩ := List.mem_map.mp hi
      simp only [List.mem_filter, Bool.and_eq_true, Bool.not_eq_true'] at hq
      obtain ⟨hqw, hqready, hqnot⟩ := hq
      have hmem := mem_erase_of_not_isReady hready hqw hqnot
      exact List.mem_map_of_mem (List.mem_filter.mpr ⟨hmem, hqready⟩)
  · intro hi
    obtain ⟨q, hq, rfl⟩ := List.mem_map.mp hi
    obtain ⟨hqw, hqready⟩ := List.mem_filter.mp hq
    cases hbefore : isReady w q with
    | true => exact .inl (List.mem_map_of_mem (List.mem_filter.mpr ⟨hqw, hbefore⟩))
    | false =>
      refine .inr (List.mem_map_of_mem (List.mem_filter.mpr ⟨List.mem_of_mem_erase hqw, ?_⟩))
      rw [hqready, hbefore]
      rfl

/-- Counting takes the pieces in their order. -/
theorem countFrom_eq_orderFrom (h : b.WellFormed) (hw : w.Sublist b.pieces) :
    b.countFrom (held (openCounts w w)) (freed (openCounts w w)) = orderFrom w := by
  induction w using orderFrom.induct with
  | case1 w hnone =>
    have hfreed : freed (openCounts w w) = [] := by
      rw [freed_openCounts, List.filter_eq_nil_iff.mpr (List.find?_eq_none.mp hnone), List.map_nil]
    rw [orderFrom_of_none hnone, hfreed, countFrom]
  | case2 w p hp ih =>
    have hpw := List.mem_of_find?_eq_some hp
    have hready := List.find?_some hp
    have hfreed : freed (openCounts w w) =
        p.id :: ((w.erase p).filter (isReady w)).map Piece.id := by
      rw [← List.head?_filter] at hp
      obtain ⟨rest, hrest⟩ := List.head?_eq_some_iff.mp hp
      rw [freed_openCounts, ← List.erase_filter, hrest, List.erase_cons_head, List.map_cons]
    rw [orderFrom_of_some hp, hfreed, countFrom, held_lower h hw hpw hready,
      union_freed h hw hpw hready, ih (List.erase_sublist.trans hw)]

/-- At first everything that a piece is wired from waits. -/
theorem openPremises_pieces (h : b.WellFormed) (hp : p ∈ b.pieces) :
    openPremises b.pieces p = (Ascending.ofList p.premises).length := by
  rw [openPremises, List.filter_eq_self.mpr]
  intro j hj
  have hji := feeds_of_mem_premises (piece?_of_mem h.nodup hp) (Ascending.mem_ofList.mp hj)
  exact decide_eq_true (h.wired j p.id hji)

theorem countdown_eq_order (h : b.WellFormed) : b.countdown = b.order := by
  have hcounts : (b.pieces.map fun p => (p.id, (Ascending.ofList p.premises).length)) =
      openCounts b.pieces b.pieces :=
    List.map_congr_left fun p hp => by rw [openPremises_pieces h hp]
  have hascending : (freed (openCounts b.pieces b.pieces)).Pairwise (· < ·) := by
    rw [freed_openCounts]
    exact h.ascending.sublist (List.filter_sublist.map _)
  have hfreed : Ascending.ofList (freed (openCounts b.pieces b.pieces)) =
      freed (openCounts b.pieces b.pieces) :=
    (Ascending.pairwise_ofList _).eq_of_mem_iff hascending fun _ => Ascending.mem_ofList
  rw [countdown, hcounts, hfreed, countFrom_eq_orderFrom h (List.Sublist.refl _), order]

/-! ### The least schedule -/

/-- Each piece of the list stands behind all pieces that it is wired from. -/
def ProducersFirst (b : Board) (l : List PieceId) : Prop :=
  ∀ l₁ i l₂, l = l₁ ++ i :: l₂ → ∀ j, b.Feeds j i → j ∈ l₁

/-- Every piece of the board once, and each behind the pieces that it is wired from. -/
structure Schedules (b : Board) (l : List PieceId) : Prop where
  nodup : l.Nodup
  mem_iff : ∀ i, i ∈ l ↔ i ∈ b.ids
  producersFirst : b.ProducersFirst l

theorem schedules_order (h : b.WellFormed) : b.Schedules b.order where
  nodup := order_nodup h
  mem_iff _ := mem_order h
  producersFirst _ _ _ heq _ hji := mem_of_order_eq h heq hji

/-- Every piece of a list once, and each behind those of the list that it is wired from. -/
structure Serves (w : List Piece) (l : List PieceId) : Prop where
  nodup : l.Nodup
  mem_iff : ∀ i, i ∈ l ↔ i ∈ w.map Piece.id
  producersFirst : ∀ p ∈ w, ∀ l₁ l₂, l = l₁ ++ p.id :: l₂ →
    ∀ j ∈ p.premises, j ∈ w.map Piece.id → j ∈ l₁

theorem Schedules.serves (h : b.WellFormed) (hl : b.Schedules l) : Serves b.pieces l where
  nodup := hl.nodup
  mem_iff := hl.mem_iff
  producersFirst p hp l₁ l₂ heq j hj _ :=
    hl.producersFirst l₁ p.id l₂ heq j (feeds_of_mem_premises (piece?_of_mem h.nodup hp) hj)

/-- What comes first is ready. -/
theorem Serves.isReady (hl : Serves w (q.id :: l)) (hq : q ∈ w) : isReady w q = true := by
  refine isReady_iff.mpr fun j hj r hr hrj => ?_
  have hjw : j ∈ w.map Piece.id := hrj ▸ List.mem_map_of_mem hr
  exact absurd (hl.producersFirst q hq [] l rfl j hj hjw) List.not_mem_nil

theorem Serves.erase (hw : (w.map Piece.id).Nodup) (hl : Serves w (q.id :: l)) (hq : q ∈ w) :
    Serves (w.erase q) l := by
  obtain ⟨hnot, hnodup⟩ := List.nodup_cons.mp hl.nodup
  refine ⟨hnodup, fun i => ?_, fun p hp l₁ l₂ heq j hj hjw => ?_⟩
  · rw [mem_map_id_erase hw hq, ← hl.mem_iff, List.mem_cons]
    constructor
    · intro hi
      exact ⟨.inr hi, fun hiq => hnot (hiq ▸ hi)⟩
    · rintro ⟨hi | hi, hne⟩
      · exact absurd hi hne
      · exact hi
  · obtain ⟨hjw, hne⟩ := (mem_map_id_erase hw hq).mp hjw
    have hmem := hl.producersFirst p (List.mem_of_mem_erase hp) (q.id :: l₁) l₂
      (by rw [heq, List.cons_append]) j hj hjw
    exact (List.mem_cons.mp hmem).resolve_left hne

/-- The first ready piece of an ascending list has the least number of all that are ready. -/
theorem id_le_of_isReady (hw : w.Pairwise fun p q => p.id < q.id)
    (hp : w.find? (Board.isReady w) = some p) (hq : q ∈ w) (hready : Board.isReady w q = true) :
    p.id ≤ q.id := by
  obtain ⟨-, l, r, heq, hl⟩ := List.find?_eq_some_iff_append.mp hp
  have hafter := (List.pairwise_cons.mp (List.pairwise_append.mp (heq ▸ hw)).2.1).1
  rw [heq, List.mem_append, List.mem_cons] at hq
  rcases hq with hq | rfl | hq
  · exact absurd hready (by simpa using hl q hq)
  · exact Int.le_refl _
  · exact Int.le_of_lt (hafter q hq)

/-- No list that serves all pieces comes before their order. -/
theorem orderFrom_le (hw : w.Pairwise fun p q => p.id < q.id) (hl : Serves w l) :
    orderFrom w ≤ l := by
  have hnodup : (w.map Piece.id).Nodup :=
    (List.pairwise_map.mpr hw).imp fun hlt => Int.ne_of_lt hlt
  induction w using orderFrom.induct generalizing l with
  | case1 w hnone =>
    rw [orderFrom_of_none hnone]
    exact not_lt.mp (List.not_lt_nil l)
  | case2 w p hp ih =>
    have hpw := List.mem_of_find?_eq_some hp
    rw [orderFrom_of_some hp]
    cases l with
    | nil => exact absurd ((hl.mem_iff p.id).mpr (List.mem_map_of_mem hpw)) List.not_mem_nil
    | cons i l =>
      obtain ⟨q, hq, rfl⟩ := List.mem_map.mp ((hl.mem_iff i).mp List.mem_cons_self)
      -- the first pieces decide, unless both lists begin with the same one
      rcases (id_le_of_isReady hw hp hq (hl.isReady hq)).lt_or_eq with hlt | heq
      · exact le_of_lt (List.cons_lt_cons_iff.mpr (.inl hlt))
      · obtain rfl := List.inj_on_of_nodup_map hnodup hpw hq heq
        exact List.cons_le_cons _ (ih (hw.sublist List.erase_sublist) (hl.erase hnodup hq)
          (nodup_ids_erase hnodup p))

/-- At every moment of a history, the order of checking is a schedule of the board, the least of
all, and the list that counting gives. -/
theorem order_least_schedule (o : Origin) (as : List Action) :
    let b := Action.runAll o.board as
    IsLeast {l | b.Schedules l} b.order ∧ b.countdown = b.order := by
  intro b
  have hb : b.WellFormed := (wellFormed_origin o).runAll as
  refine ⟨⟨schedules_order hb, fun l hl => ?_⟩, countdown_eq_order hb⟩
  exact orderFrom_le (List.pairwise_map.mp hb.ascending) (Schedules.serves hb hl)

/-- A piece that fills both slots of another one is waited for once. -/
example :
    let start := Origin.fresh (some (.atom "P" [])) none none Palette.full
    let place (kind : String) (row : Int) : Action :=
      .edit (.add (.text kind) (some (.cell (0, row))) [])
    let b := Action.runAll start.board [place "and_intro" 0, place "assumption" 1, place "goal" 2,
      .edit (.wire 1 0 2), .edit (.wire 1 1 2)]
    b.order = [2, 1, 3] ∧ b.countdown = [2, 1, 3] := by
  decide_cbv

end Board

end DeductionBoard
