import DeductionBoard.Proofs.Board.Cycles
import DeductionBoard.Proofs.Data.Steps
import Mathlib

/-! Several wires, one after another. A wire into an empty slot takes nothing away, so the wires of
the board afterwards are the old ones and the new ones together, whatever their order; and as no
circle can be broken again, the wires go through exactly where all of them together close none. Main
result: where wires into different empty slots succeed in one order, they succeed in every order, and
the boards at the end look the same and have the same revision number. -/

namespace DeductionBoard

open Relation

/-- A slot of a piece and the piece whose conclusion is to go there. -/
structure Wiring where
  piece : PieceId
  slot : Int
  source : PieceId
  deriving DecidableEq, Repr

namespace Wiring

/-- The slot that is to be filled. -/
def target (x : Wiring) : PieceId × Int := (x.piece, x.slot)

end Wiring

namespace Snapshot

variable {v : Snapshot} {i k : PieceId} {m n : Nat} {s t : Option PieceId}

/-- The slots of all the wirings filled. -/
def refillAll (v : Snapshot) (xs : List Wiring) : Snapshot :=
  xs.foldl (fun v x => v.refill x.piece x.slot.toNat (some x.source)) v

/-- Different slots can be filled in either order. -/
theorem refill_comm (h : i = k → m ≠ n) :
    (v.refill i m s).refill k n t = (v.refill k n t).refill i m s := by
  simp only [refill, List.map_map]
  congr 1
  refine List.map_congr_left fun p _ => ?_
  rw [Function.comp_apply, Function.comp_apply]
  by_cases hi : p.id = i <;> by_cases hk : p.id = k
  · simp [hi, hi.symm.trans hk, List.set_comm _ _ (h (hi.symm.trans hk))]
  · simp [hi, show i ≠ k from hi ▸ hk]
  · simp [hk, show k ≠ i from hk ▸ hi]
  · simp [hi, hk]

end Snapshot

namespace Board

variable {b b' : Board} {i j k m : PieceId} {p : Piece} {n : Nat} {slot : Int} {s : Option PieceId}
  {xs ys : List Wiring}

/-- Draws wires one after another, up to the first that is refused. -/
def connectAll (b : Board) (xs : List Wiring) : Except EditError Board :=
  xs.foldlM (fun b x => b.wire x.piece x.slot x.source) b

/-- The slot is there and holds nothing. -/
def IsEmptySlot (b : Board) (i : PieceId) (slot : Int) : Prop :=
  0 ≤ slot ∧ ∃ p ∈ b.piece? i, p.slots[slot.toNat]? = some none

/-- A wire of the board or one of the wirings. -/
def Joins (b : Board) (xs : List Wiring) (j i : PieceId) : Prop :=
  b.Feeds j i ∨ ∃ x ∈ xs, x.source = j ∧ x.piece = i

/-! ### One wire -/

theorem piece?_rewire_eq (hp : b.piece? k = some p) :
    ∃ f, Forgets f ∧ (b.rewire i n s).piece? k =
      some (f (if p.id ∈ [i] then { p with slots := p.slots.set n s } else p)) := by
  refine ⟨forgetIn (i :: (b.setSlot i n s).dependents i), forgets_forgetIn _, ?_⟩
  change ((b.setSlot i n s).forgetFrom i).piece? k = _
  rw [forgetFrom_eq, piece?_mapPieces (forgets_forgetIn _).id, piece?_setSlot, hp]
  rfl

theorem ids_rewire (b : Board) (i : PieceId) (n : Nat) (s : Option PieceId) :
    (b.rewire i n s).ids = b.ids :=
  (ids_forgetFrom (b.setSlot i n s) i).trans (ids_setSlot b i n s)

/-- Filling an empty slot adds a wire and takes none away. -/
theorem feeds_rewire_of_isEmptySlot (hx : b.IsEmptySlot i slot) :
    (b.rewire i slot.toNat (some j)).Feeds k m ↔ b.Feeds k m ∨ j = k ∧ i = m := by
  obtain ⟨-, p, hp, hnone⟩ := hx
  rw [feeds_rewire]
  constructor
  · intro h
    exact h.of_setSlot.imp_right fun ⟨hk, hm⟩ => ⟨Option.some.inj hk, hm.symm⟩
  · rintro (h | ⟨rfl, rfl⟩)
    · by_cases hm : m = i
      · subst hm
        obtain ⟨q, hq, hk⟩ := feeds_iff.mp h
        obtain rfl := Option.some.inj (hp.symm.trans hq)
        -- the old wire ends in another slot than the empty one
        obtain ⟨l, hl⟩ := List.mem_iff_getElem?.mp hk
        have hne : slot.toNat ≠ l := by
          rintro rfl
          exact absurd (hnone.symm.trans hl) (by simp)
        refine feeds_iff.mpr ⟨{ p with slots := p.slots.set slot.toNat (some j) }, ?_, ?_⟩
        · rw [piece?_setSlot, hp, Option.map_some, if_pos (List.mem_singleton.mpr (id_of_piece? hp))]
        · exact List.mem_iff_getElem?.mpr ⟨l, (List.getElem?_set_ne hne).trans hl⟩
      · exact h.setSlot_of_ne hm
    · exact feeds_setSlot_self hp (List.getElem?_eq_some_iff.mp hnone).1

theorem IsEmptySlot.rewire {slot' : Int} (h : b.IsEmptySlot k slot') (hlow : 0 ≤ slot)
    (hne : (i, slot) ≠ (k, slot')) : (b.rewire i slot.toNat s).IsEmptySlot k slot' := by
  obtain ⟨hlow', p, hp, hnone⟩ := h
  obtain ⟨f, hf, hpiece⟩ := piece?_rewire_eq (i := i) (n := slot.toNat) (s := s) hp
  refine ⟨hlow', _, hpiece, ?_⟩
  rw [hf.slots]
  split
  · next hi =>
    have hki : k = i := id_of_piece? hp ▸ List.mem_singleton.mp hi
    have hslots : slot.toNat ≠ slot'.toNat := by
      intro heq
      exact hne (by rw [hki, show slot = slot' by omega])
    rw [← hnone]
    exact List.getElem?_set_ne hslots
  · exact hnone

/-- A wire into an empty slot goes through where it starts at a piece of the board and closes no
circle. -/
theorem wire_eq_ok_iff (h : b.WellFormed) (hx : b.IsEmptySlot i slot) :
    b.wire i slot j = .ok b' ↔ j ∈ b.ids ∧ (b.rewire i slot.toNat (some j)).Acyclic ∧
      b.rewire i slot.toNat (some j) = b' := by
  obtain ⟨hlow, p, hp, hnone⟩ := hx
  have hn : slot.toNat < p.slots.length := (List.getElem?_eq_some_iff.mp hnone).1
  have hhigh : slot < p.kind.arity := by
    rw [← h.arity i p hp]
    omega
  by_cases hj : j ∈ b.ids
  · have hcycle : (j = i ∨ i ∈ b.dependencies j) ↔
        ¬ (b.rewire i slot.toNat (some j)).Acyclic := by
      rw [Acyclic, feeds_rewire, ← Acyclic, h.acyclic.setSlot_iff hp hn,
        mem_dependencies h.nodup h.wired]
      tauto
    rw [wire_eq hp hj hlow hhigh]
    split
    · next hclosed => simp [hcycle.mp hclosed]
    · next hopen =>
      rw [hcycle, not_not] at hopen
      simp only [hj, hopen, true_and, Except.ok.injEq]
      rfl
  · have hi : b.contains i = true := contains_iff.mpr (mem_ids_of_piece? hp)
    have hj' : ¬ b.contains j = true := fun hc => hj (contains_iff.mp hc)
    simp [wire, hi, hj', hj]

theorem WellFormed.rewire_of_isEmptySlot (h : b.WellFormed) (hx : b.IsEmptySlot i slot)
    (hj : j ∈ b.ids) (ha : (b.rewire i slot.toNat (some j)).Acyclic) :
    (b.rewire i slot.toNat (some j)).WellFormed := by
  have hwire := (wire_eq_ok_iff h hx).mpr ⟨hj, ha, rfl⟩
  exact h.edited (edited_wire h hwire)

/-! ### All wires -/

def rewireAll (b : Board) (xs : List Wiring) : Board :=
  xs.foldl (fun b x => b.rewire x.piece x.slot.toNat (some x.source)) b

theorem joins_cons {x : Wiring} (hx : b.IsEmptySlot x.piece x.slot) :
    (b.rewire x.piece x.slot.toNat (some x.source)).Joins xs = b.Joins (x :: xs) := by
  funext j i
  simp [Joins, feeds_rewire_of_isEmptySlot hx, or_assoc]

/-- Wires into different empty slots go through one after another where they start at pieces of the
board and close no circle together with the wires that are there. -/
theorem connectAll_eq_ok_iff (h : b.WellFormed) (hempty : ∀ x ∈ xs, b.IsEmptySlot x.piece x.slot)
    (hdistinct : (xs.map Wiring.target).Nodup) :
    b.connectAll xs = .ok b' ↔
      (∀ x ∈ xs, x.source ∈ b.ids) ∧ (∀ i, ¬ TransGen (b.Joins xs) i i) ∧ b.rewireAll xs = b' := by
  -- a wire that is drawn passes from the wirings to the wires, so that together they stay the same
  induction xs generalizing b with
  | nil =>
    have hjoins : b.Joins [] = b.Feeds := by
      funext j i
      simp [Joins]
    have hacyclic : ∀ i, ¬ TransGen b.Feeds i i := h.acyclic
    have hdone : b.connectAll [] = .ok b := rfl
    rw [hdone, Except.ok.injEq, hjoins]
    exact ⟨fun hb => ⟨nofun, hacyclic, hb⟩, fun hb => hb.2.2⟩
  | cons x xs ih =>
    obtain ⟨hx, hxs⟩ := List.forall_mem_cons.mp hempty
    obtain ⟨hnot, hdistinct⟩ := List.nodup_cons.mp hdistinct
    have hrest : ∀ y ∈ xs,
        (b.rewire x.piece x.slot.toNat (some x.source)).IsEmptySlot y.piece y.slot := fun y hy =>
      (hxs y hy).rewire hx.1 fun heq => hnot (List.mem_map.mpr ⟨y, hy, heq.symm⟩)
    have hbind : b.connectAll (x :: xs) = b.wire x.piece x.slot x.source >>= (connectAll · xs) :=
      rfl
    rw [hbind]
    constructor
    · intro hok
      obtain ⟨b₁, hwire, hok⟩ := exists_of_bind_eq_ok hok
      obtain ⟨hj, ha, rfl⟩ := (wire_eq_ok_iff h hx).mp hwire
      have hb₁ := h.rewire_of_isEmptySlot hx hj ha
      obtain ⟨hsources, hacyclic, hb'⟩ := (ih hb₁ hrest hdistinct).mp hok
      rw [ids_rewire] at hsources
      rw [joins_cons hx] at hacyclic
      exact ⟨List.forall_mem_cons.mpr ⟨hj, hsources⟩, hacyclic, hb'⟩
    · rintro ⟨hsources, hacyclic, hb'⟩
      obtain ⟨hj, hsources⟩ := List.forall_mem_cons.mp hsources
      rw [← joins_cons hx] at hacyclic
      have ha : (b.rewire x.piece x.slot.toNat (some x.source)).Acyclic := fun i hi =>
        hacyclic i (TransGen.mono (fun _ _ => .inl) _ _ hi)
      have hb₁ := h.rewire_of_isEmptySlot hx hj ha
      rw [(wire_eq_ok_iff h hx).mpr ⟨hj, ha, rfl⟩, ok_bind]
      exact (ih hb₁ hrest hdistinct).mpr ⟨by rwa [ids_rewire], hacyclic, hb'⟩

theorem snapshot_rewireAll (b : Board) (xs : List Wiring) :
    (b.rewireAll xs).snapshot = b.snapshot.refillAll xs := by
  induction xs generalizing b with
  | nil => rfl
  | cons x xs ih =>
    rw [rewireAll, List.foldl_cons, ← rewireAll, ih, Board.rewire, snapshot_rewired]
    rfl

theorem revision_rewireAll (b : Board) (xs : List Wiring) :
    (b.rewireAll xs).revision = b.revision + xs.length := by
  induction xs generalizing b with
  | nil => rfl
  | cons x xs ih =>
    have hstep : (b.rewire x.piece x.slot.toNat (some x.source)).revision = b.revision + 1 := rfl
    rw [rewireAll, List.foldl_cons, ← rewireAll, ih, hstep, List.length_cons]
    omega

/-- The slots that several wires fill can be filled in any order. -/
theorem refillAll_perm (v : Snapshot) (hlow : ∀ x ∈ xs, 0 ≤ x.slot)
    (hdistinct : (xs.map Wiring.target).Nodup) (hperm : xs.Perm ys) :
    v.refillAll ys = v.refillAll xs := by
  refine (hperm.foldl_eq' (fun x hx y hy v => ?_) v).symm
  by_cases hxy : x = y
  · rw [hxy]
  refine Snapshot.refill_comm fun hpiece hslot => hxy ?_
  have hslot : x.slot = y.slot := by
    have hx := hlow x hx
    have hy := hlow y hy
    omega
  exact List.inj_on_of_nodup_map hdistinct hx hy (Prod.ext hpiece hslot)

/-- At every moment of a history, wires into different empty slots that go through in one order go
through in every other one, and the boards at the end look the same and have the same revision. -/
theorem connectAll_perm (o : Origin) (as : List Action) (xs ys : List Wiring) (b' : Board)
    (hempty : ∀ x ∈ xs, (Action.runAll o.board as).IsEmptySlot x.piece x.slot)
    (hdistinct : (xs.map Wiring.target).Nodup) (hperm : xs.Perm ys)
    (hok : (Action.runAll o.board as).connectAll xs = .ok b') :
    ∃ b'', (Action.runAll o.board as).connectAll ys = .ok b'' ∧ b''.snapshot = b'.snapshot ∧
      b''.revision = b'.revision := by
  have hb : (Action.runAll o.board as).WellFormed := (wellFormed_origin o).runAll as
  obtain ⟨hsources, hacyclic, rfl⟩ := (connectAll_eq_ok_iff hb hempty hdistinct).mp hok
  have hjoins : (Action.runAll o.board as).Joins xs = (Action.runAll o.board as).Joins ys := by
    funext j i
    simp only [Joins, hperm.mem_iff]
  have hdistinct' : (ys.map Wiring.target).Nodup := (hperm.map Wiring.target).nodup_iff.mp hdistinct
  refine ⟨(Action.runAll o.board as).rewireAll ys, ?_, ?_, ?_⟩
  · refine (connectAll_eq_ok_iff hb (fun y hy => hempty y (hperm.mem_iff.mpr hy)) hdistinct').mpr
      ⟨fun y hy => hsources y (hperm.mem_iff.mpr hy), ?_, rfl⟩
    rwa [← hjoins]
  · rw [snapshot_rewireAll, snapshot_rewireAll]
    exact refillAll_perm _ (fun x hx => (hempty x hx).1) hdistinct hperm
  · rw [revision_rewireAll, revision_rewireAll, hperm.length_eq]

/-- Two assumptions, a conjunction and a goal without wires. -/
def scattered : List Action :=
  let place (kind : String) (column : Int) : Action :=
    .edit (.add (.text kind) (some (.cell (column, 0))) [])
  [place "assumption" 0, place "assumption" 1, place "and_intro" 2, place "goal" 3]

/-- Wires from the assumptions through the conjunction to the goal. -/
def downward : List Wiring := [⟨3, 0, 1⟩, ⟨3, 1, 2⟩, ⟨4, 0, 3⟩]

theorem connectAll_upward :
    ∃ b' b'', (Action.runAll start.board scattered).connectAll downward = .ok b' ∧
      (Action.runAll start.board scattered).connectAll downward.reverse = .ok b'' ∧
      b''.snapshot = b'.snapshot ∧ b''.revision = b'.revision ∧ b'.revision = 7 := by
  have hok : (((Action.runAll start.board scattered).connectAll downward).map Board.revision) =
      .ok 7 := by
    decide_cbv
  have hthree : (Action.runAll start.board scattered).piece? 3 =
      some (.fresh 3 .andIntro (.cell (2, 0)) .empty) := by
    decide_cbv
  have hfour : (Action.runAll start.board scattered).piece? 4 =
      some (.fresh 4 .goal (.cell (3, 0)) .empty) := by
    decide_cbv
  have hempty : ∀ x ∈ downward,
      (Action.runAll start.board scattered).IsEmptySlot x.piece x.slot := by
    simp only [downward, List.forall_mem_cons]
    exact ⟨⟨by decide, _, hthree, rfl⟩, ⟨by decide, _, hthree, rfl⟩, ⟨by decide, _, hfour, rfl⟩,
      fun x hx => absurd hx List.not_mem_nil⟩
  have hdistinct : (downward.map Wiring.target).Nodup := by decide
  obtain ⟨b', hb', hseven⟩ := exists_of_map_eq_ok hok
  obtain ⟨b'', hb'', hsnapshot, hrevision⟩ := connectAll_perm start scattered downward
    downward.reverse b' hempty hdistinct (List.reverse_perm downward).symm hb'
  exact ⟨b', b'', hb', hb'', hsnapshot, hrevision, hseven⟩

end Board

end DeductionBoard
