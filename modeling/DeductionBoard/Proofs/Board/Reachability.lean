import DeductionBoard.Proofs.Board.History
import Mathlib

/-! Searches with a list of entries and a set of values met. The entry that is looked at next can be
any of them, and a value can have several entries. As every value brings in its successors only
once, the number of entries ever looked at is known from the values met, so every search ends, and
at its end it has met exactly what can be reached. Main result: at every moment of a history the
searches for the pieces that a piece depends on, and for those that depend on it, end within the
number of wires, and they are converse to each other. -/

namespace DeductionBoard

open Relation

/-- A search that is under way. -/
structure Worklist (α : Type) where
  /-- The values that were looked at, each once. -/
  met : List α
  /-- What is still to be looked at. -/
  entries : List α

namespace Worklist

variable {α : Type} {next : α → List α} {roots : List α} {w w' : Worklist α} {m n : Nat} {x y z : α}

/-- Looks at some entry. A value that was met before is dropped, a new one brings in its
successors. -/
inductive Step (next : α → List α) : Worklist α → Worklist α → Prop
  | drop {met before after : List α} {x : α} (hx : x ∈ met) :
      Step next ⟨met, before ++ x :: after⟩ ⟨met, before ++ after⟩
  | visit {met before after : List α} {x : α} (hx : x ∉ met) :
      Step next ⟨met, before ++ x :: after⟩ ⟨x :: met, before ++ after ++ next x⟩

/-- What a search from `roots` can have come to after `n` entries. -/
inductive Runs (next : α → List α) (roots : List α) : Nat → Worklist α → Prop
  | start : Runs next roots 0 ⟨[], roots⟩
  | step {n : Nat} {w w' : Worklist α} (h : Runs next roots n w) (hw : Step next w w') :
      Runs next roots (n + 1) w'

/-- The value was looked at or will be. -/
def Covers (w : Worklist α) (x : α) : Prop := x ∈ w.met ∨ x ∈ w.entries

/-- What can be reached from the roots. -/
def Reaches (next : α → List α) (roots : List α) (x : α) : Prop :=
  ∃ y ∈ roots, ReflTransGen (fun a b => b ∈ next a) y x

/-! ### One entry -/

theorem Step.covers (hw : Step next w w') (hx : w.Covers x) : w'.Covers x := by
  cases hw <;> simp only [Covers, List.mem_append, List.mem_cons] at hx ⊢
  · rcases hx with hx | hx | rfl | hx <;> tauto
  · tauto

/-- Only successors of values that were covered come in. -/
theorem Step.of_covers (hw : Step next w w') (hy : w'.Covers y) :
    w.Covers y ∨ ∃ x, w.Covers x ∧ y ∈ next x := by
  cases hw with
  | drop hx =>
    simp only [Covers, List.mem_append, List.mem_cons] at hy ⊢
    tauto
  | @visit met before after x hx =>
    simp only [Covers, List.mem_append, List.mem_cons] at hy
    rcases hy with (rfl | hy) | (hy | hy) | hy
    · exact .inl (.inr (by simp))
    · exact .inl (.inl hy)
    · exact .inl (.inr (by simp [hy]))
    · exact .inl (.inr (by simp [hy]))
    · exact .inr ⟨x, .inr (by simp), hy⟩

theorem Step.next_covered (hw : Step next w w') (hx : x ∈ w'.met) :
    x ∈ w.met ∨ ∀ y ∈ next x, w'.Covers y := by
  cases hw with
  | drop => exact .inl hx
  | visit =>
    rcases List.mem_cons.mp hx with rfl | hx
    · exact .inr fun y hy => .inr (List.mem_append_right _ hy)
    · exact .inl hx

theorem Step.nodup (hw : Step next w w') (h : w.met.Nodup) : w'.met.Nodup := by
  cases hw with
  | drop => exact h
  | visit hx => exact List.nodup_cons.mpr ⟨hx, h⟩

/-- The number of successors of the values. -/
def degree (next : α → List α) (xs : List α) : Nat := (xs.map fun x => (next x).length).sum

theorem degree_le_of_subperm (next : α → List α) {xs ys : List α} (h : xs.Subperm ys) :
    degree next xs ≤ degree next ys := by
  obtain ⟨zs, hperm, hsub⟩ := h
  rw [degree, ← (hperm.map _).sum_eq]
  exact (hsub.map _).sum_le_sum fun _ _ => Nat.zero_le _

theorem Step.count (hw : Step next w w') :
    1 + w'.entries.length + degree next w.met = w.entries.length + degree next w'.met := by
  cases hw <;>
    simp only [degree, List.length_append, List.length_cons, List.map_cons, List.sum_cons] <;> omega

/-! ### The whole search -/

/-- What is known of a search after `n` entries. -/
structure Invariant (next : α → List α) (roots : List α) (n : Nat) (w : Worklist α) : Prop where
  nodup : w.met.Nodup
  reaches : ∀ x, w.Covers x → Reaches next roots x
  roots_covered : ∀ x ∈ roots, w.Covers x
  next_covered : ∀ x ∈ w.met, ∀ y ∈ next x, w.Covers y
  /-- Every entry ever made is a root or comes from one of the values met. -/
  count : n + w.entries.length = roots.length + degree next w.met

theorem invariant_start (next : α → List α) (roots : List α) :
    Invariant next roots 0 ⟨[], roots⟩ where
  nodup := List.nodup_nil
  reaches x hx := ⟨x, hx.resolve_left List.not_mem_nil, .refl⟩
  roots_covered _ hx := .inr hx
  next_covered _ hx := absurd hx List.not_mem_nil
  count := Nat.add_comm _ _

theorem Invariant.step (h : Invariant next roots n w) (hw : Step next w w') :
    Invariant next roots (n + 1) w' where
  nodup := hw.nodup h.nodup
  reaches y hy := by
    rcases hw.of_covers hy with hy | ⟨x, hx, hxy⟩
    · exact h.reaches y hy
    · obtain ⟨z, hz, hzx⟩ := h.reaches x hx
      exact ⟨z, hz, hzx.tail hxy⟩
  roots_covered x hx := hw.covers (h.roots_covered x hx)
  next_covered x hx := by
    rcases hw.next_covered hx with hx | hnext
    · exact fun y hy => hw.covers (h.next_covered x hx y hy)
    · exact hnext
  count := by
    have hbefore := h.count
    have hstep := hw.count
    omega

theorem Runs.invariant (h : Runs next roots n w) : Invariant next roots n w := by
  induction h with
  | start => exact invariant_start next roots
  | step _ hw ih => exact ih.step hw

/-- At its end a search has met what can be reached. -/
theorem Runs.mem_met_iff (h : Runs next roots n w) (hend : w.entries = []) :
    x ∈ w.met ↔ Reaches next roots x := by
  have hcovers : ∀ {y}, w.Covers y → y ∈ w.met := fun hy => hy.resolve_right (by simp [hend])
  constructor
  · exact fun hx => h.invariant.reaches x (.inl hx)
  · rintro ⟨y, hy, hyx⟩
    induction hyx with
    | refl => exact hcovers (h.invariant.roots_covered y hy)
    | tail _ hab ih => exact hcovers (h.invariant.next_covered _ ih _ hab)

theorem exists_step (next : α → List α) (hw : w.entries ≠ []) : ∃ w', Step next w w' := by
  obtain ⟨met, entries⟩ := w
  obtain ⟨x, after, rfl⟩ := List.exists_cons_of_ne_nil hw
  by_cases hx : x ∈ met
  · exact ⟨_, @Step.drop α next met [] after x hx⟩
  · exact ⟨_, @Step.visit α next met [] after x hx⟩

/-- A search that cannot go on for ever comes to an end. -/
theorem exists_finished (hbound : ∀ n w, Runs next roots n w → n ≤ m) :
    ∃ n w, Runs next roots n w ∧ w.entries = [] := by
  by_contra hnone
  have hall : ∀ n, ∃ w, Runs next roots n w := by
    intro n
    induction n with
    | zero => exact ⟨_, .start⟩
    | succ n ih =>
      obtain ⟨w, hw⟩ := ih
      obtain ⟨w', hstep⟩ := exists_step next fun hend => hnone ⟨n, w, hw, hend⟩
      exact ⟨w', hw.step hstep⟩
  obtain ⟨w, hw⟩ := hall (m + 1)
  exact absurd (hbound _ w hw) (by omega)

end Worklist

namespace Board

open Worklist

variable {b : Board} {i j k : PieceId} {next : PieceId → List PieceId} {js : List PieceId} {n : Nat}
  {w : Worklist PieceId}

/-- Whatever entries it looks at first, a search from the successors of a piece stays on the board,
looks at no more entries than the pieces have successors, and ends with the pieces `js`. -/
structure Exhausts (b : Board) (next : PieceId → List PieceId) (i : PieceId) (js : List PieceId) :
    Prop where
  covered : ∀ n w, Runs next (next i) n w → ∀ j, w.Covers j → j ∈ b.ids
  bounded : ∀ n w, Runs next (next i) n w → n ≤ degree next b.ids
  ends : ∃ n w, Runs next (next i) n w ∧ w.entries = []
  met : ∀ n w, Runs next (next i) n w → w.entries = [] → ∀ j, j ∈ w.met ↔ j ∈ js

theorem reaches_iff : Reaches next (next i) j ↔ TransGen (fun a c => c ∈ next a) i j := by
  rw [TransGen.head'_iff, Reaches]

/-- Where the successors of pieces are pieces and no path comes back, a search is exhaustive. -/
theorem exhausts (hi : i ∈ b.ids) (hmem : ∀ a, ∀ c ∈ next a, c ∈ b.ids)
    (hacyclic : ¬ TransGen (fun a c => c ∈ next a) i i)
    (hjs : ∀ j, j ∈ js ↔ TransGen (fun a c => c ∈ next a) i j) : b.Exhausts next i js := by
  have hcovered : ∀ n w, Runs next (next i) n w → ∀ j, w.Covers j → j ∈ b.ids := by
    intro n w hw j hj
    obtain ⟨a, -, haj⟩ := TransGen.tail'_iff.mp (reaches_iff.mp (hw.invariant.reaches j hj))
    exact hmem a j haj
  have hbounded : ∀ n w, Runs next (next i) n w → n ≤ degree next b.ids := by
    intro n w hw
    -- the piece itself is never met, so that with it the values met are still among the pieces
    have hnot : i ∉ w.met := fun hmet =>
      hacyclic (reaches_iff.mp (hw.invariant.reaches i (.inl hmet)))
    have hsub : (i :: w.met).Subperm b.ids := by
      refine (List.nodup_cons.mpr ⟨hnot, hw.invariant.nodup⟩).subperm fun j hj => ?_
      rcases List.mem_cons.mp hj with rfl | hj
      · exact hi
      · exact hcovered n w hw j (.inl hj)
    have hdegree := degree_le_of_subperm next hsub
    have hcount := hw.invariant.count
    simp only [degree, List.map_cons, List.sum_cons] at hdegree hcount ⊢
    omega
  refine ⟨hcovered, hbounded, exists_finished hbounded, fun n w hw hend j => ?_⟩
  rw [hw.mem_met_iff hend, reaches_iff, hjs]

theorem WellFormed.exhausts_producers (h : b.WellFormed) (hi : i ∈ b.ids) :
    b.Exhausts b.producers i (b.dependencies i) := by
  have hswap : ∀ j, TransGen (fun a c => c ∈ b.producers a) i j ↔ TransGen b.Feeds j i :=
    fun j => transGen_swap
  refine exhausts hi (fun a c hc => h.wired c a hc) ?_ fun j => ?_
  · rw [hswap]
    exact h.acyclic i
  · rw [hswap, mem_dependencies h.nodup h.wired]

theorem WellFormed.exhausts_consumers (h : b.WellFormed) (hi : i ∈ b.ids) :
    b.Exhausts b.consumers i (b.dependents i) := by
  have hfeeds : (fun a c => c ∈ b.consumers a) = b.Feeds := by
    funext a c
    exact propext (mem_consumers h.nodup)
  refine exhausts hi (fun a c hc => ((mem_consumers h.nodup).mp hc).mem_ids) ?_ fun j => ?_
  · rw [hfeeds]
    exact h.acyclic i
  · rw [hfeeds, mem_dependents h.nodup]

/-- At every moment of a history, what an existing piece depends on and what depends on it are the
pieces from which it is reached along one or more wires and those that are reached from it; searches
along the wires end there, whatever they look at first. The two are converse, and no piece is among
its own. -/
theorem reachable_exactly (o : Origin) (as : List Action) (i : PieceId)
    (hi : i ∈ (Action.runAll o.board as).ids) :
    let b := Action.runAll o.board as
    (b.dependenciesOf i = .ok (b.dependencies i) ∧ b.Exhausts b.producers i (b.dependencies i) ∧
        ∀ j, j ∈ b.dependencies i ↔ TransGen b.Feeds j i) ∧
      (b.dependentsOf i = .ok (b.dependents i) ∧ b.Exhausts b.consumers i (b.dependents i) ∧
        ∀ k, k ∈ b.dependents i ↔ TransGen b.Feeds i k) ∧
      (∀ j, j ∈ b.dependencies i ↔ i ∈ b.dependents j) ∧
      i ∉ b.dependencies i ∧ i ∉ b.dependents i := by
  intro b
  have hb : b.WellFormed := (wellFormed_origin o).runAll as
  obtain ⟨p, hp⟩ := exists_piece? hi
  have hrequire : b.require i = .ok p := by rw [require, hp]
  have hdependencies : ∀ j, j ∈ b.dependencies i ↔ TransGen b.Feeds j i :=
    fun j => mem_dependencies hb.nodup hb.wired
  have hdependents : ∀ k, k ∈ b.dependents i ↔ TransGen b.Feeds i k :=
    fun k => mem_dependents hb.nodup
  refine ⟨⟨?_, hb.exhausts_producers hi, hdependencies⟩,
    ⟨?_, hb.exhausts_consumers hi, hdependents⟩, fun j => ?_, fun hmem => ?_, fun hmem => ?_⟩
  · rw [dependenciesOf, hrequire]
    rfl
  · rw [dependentsOf, hrequire]
    rfl
  · rw [hdependencies, mem_dependents hb.nodup]
  · exact hb.acyclic i ((hdependencies i).mp hmem)
  · exact hb.acyclic i ((hdependents i).mp hmem)

/-- An assumption in both slots of a conjunction, and both of them in another one. -/
def diamond : List Action :=
  [.edit (.add (.text "assumption") (some (.cell (0, 0))) []),
    .edit (.add (.text "and_intro") (some (.cell (0, 1))) []),
    .edit (.add (.text "and_intro") (some (.cell (0, 2))) []),
    .edit (.wire 2 0 1), .edit (.wire 2 1 1), .edit (.wire 3 0 2), .edit (.wire 3 1 1)]

def diamondBoard : Board :=
  ⟨none, none, none, Palette.full, none,
    [.fresh 1 .assumption (.cell (0, 0)) .empty,
      ⟨2, .andIntro, .cell (0, 1), .empty, [some 1, some 1], none⟩,
      ⟨3, .andIntro, .cell (0, 2), .empty, [some 2, some 1], none⟩], 4, 7⟩

theorem reachable_exactly_diamond :
    Action.runAll (Origin.fresh none none none Palette.full).board diamond = diamondBoard ∧
      diamondBoard.dependenciesOf 3 = .ok [1, 2] ∧ TransGen diamondBoard.Feeds 1 3 ∧
      3 ∈ diamondBoard.dependents 1 ∧
      ∃ n w, Runs diamondBoard.producers (diamondBoard.producers 3) n w ∧ w.entries = [] ∧ n ≤ 4 ∧
        ∀ j, j ∈ w.met ↔ j ∈ [1, 2] := by
  have hrun : Action.runAll (Origin.fresh none none none Palette.full).board diamond =
      diamondBoard := by decide_cbv
  have hlist : diamondBoard.dependencies 3 = [1, 2] := by decide_cbv
  have hfour : degree diamondBoard.producers diamondBoard.ids = 4 := by decide_cbv
  have hexact := reachable_exactly (.fresh none none none Palette.full) diamond 3
    (by rw [hrun]; decide)
  rw [hrun] at hexact
  obtain ⟨⟨hok, hsearch, hreached⟩, -, hconverse, -⟩ := hexact
  have hone : 1 ∈ diamondBoard.dependencies 3 := hlist ▸ List.mem_cons_self
  obtain ⟨n, w, hw, hend⟩ := hsearch.ends
  refine ⟨hrun, hok.trans (congrArg _ hlist), (hreached 1).mp hone, (hconverse 1).mp hone, n, w, hw,
    hend, hfour ▸ hsearch.bounded n w hw, fun j => ?_⟩
  rw [hsearch.met n w hw hend j, hlist]

end Board

end DeductionBoard
