import DeductionBoard.Board.Edit
import Mathlib.Data.List.Nodup
import Mathlib.Logic.Relation
import Mathlib.Tactic.Tauto

/-! The wires of a board as a relation between numbers. Main results: a walk meets exactly what can be
reached inside its domain, so `dependencies` and `dependents` are the transitive wires into a piece
and out of it; and a wire that is added closes no circle unless its ends were joined the other way. -/

namespace DeductionBoard

open Relation

section Relations
variable {α : Type} {r r' : α → α → Prop} {s t x y z : α}

/-- A path that uses one new edge from `s` to `t` goes without it or passes through it. -/
theorem transGen_of_new_edge (h : ∀ a c, r' a c → r a c ∨ a = s ∧ c = t) (hxz : TransGen r' x z) :
    TransGen r x z ∨ ReflTransGen r x s ∧ ReflTransGen r t z := by
  induction hxz with
  | single hxy =>
    rcases h _ _ hxy with hxy | ⟨rfl, rfl⟩
    · exact .inl (.single hxy)
    · exact .inr ⟨.refl, .refl⟩
  | tail _ hyz ih =>
    rcases ih with ih | ⟨hs, ht⟩ <;> rcases h _ _ hyz with hyz | ⟨rfl, rfl⟩
    · exact .inl (ih.tail hyz)
    · exact .inr ⟨ih.to_reflTransGen, .refl⟩
    · exact .inr ⟨hs, ht.tail hyz⟩
    · exact .inr ⟨hs, .refl⟩

/-- A path that ends elsewhere leaves its start for good at some step. -/
theorem exists_last_visit (h : ReflTransGen r x z) (hne : z ≠ x) :
    ∃ y, r x y ∧ y ≠ x ∧ ReflTransGen (fun a b => r a b ∧ b ≠ x) y z := by
  induction h with
  | refl => exact absurd rfl hne
  | @tail b c _ hbc ih =>
    by_cases hb : b = x
    · exact ⟨c, hb ▸ hbc, hne, .refl⟩
    · obtain ⟨y, hxy, hy, hyb⟩ := ih hb
      exact ⟨y, hxy, hy, hyb.tail ⟨hbc, hne⟩⟩

/-- A path either avoids a point or ends with a path from there that does not come back. -/
theorem avoids_or_last_visit (h : ReflTransGen r y z) (hzx : z ≠ x) :
    (y ≠ x ∧ ReflTransGen (fun a b => r a b ∧ b ≠ x) y z) ∨ ReflTransGen r x z := by
  induction h with
  | refl => exact .inl ⟨hzx, .refl⟩
  | @tail b c hyb hbc ih =>
    by_cases hb : b = x
    · exact .inr (.single (hb ▸ hbc))
    · rcases ih hb with ⟨hy, hyb⟩ | hxb
      · exact .inl ⟨hy, hyb.tail ⟨hbc, hzx⟩⟩
      · exact .inr (hxb.tail hbc)

end Relations

section Walk
variable {α : Type} [DecidableEq α] {next : α → List α}

/-- A step of a walk that stays inside a domain. -/
def StepsIn (next : α → List α) (domain : List α) (a b : α) : Prop := b ∈ next a ∧ b ∈ domain

/-- A walk meets what can be reached from where it starts without leaving the domain. -/
theorem mem_walk {domain pending : List α} (hd : domain.Nodup) {z : α} :
    z ∈ walk next domain pending ↔
      ∃ y ∈ pending, y ∈ domain ∧ ReflTransGen (StepsIn next domain) y z := by
  induction domain, pending using walk.induct next with
  | case1 domain => simp [walk]
  | case2 domain x rest hx ih =>
    have hstep : ∀ a b, StepsIn next (domain.erase x) a b ↔ StepsIn next domain a b ∧ b ≠ x := by
      intro a b
      rw [StepsIn, StepsIn, hd.mem_erase_iff]
      tauto
    have hrel : StepsIn next (domain.erase x) = fun a b => StepsIn next domain a b ∧ b ≠ x := by
      funext a b
      exact propext (hstep a b)
    rw [walk, if_pos hx, List.mem_cons, ih (hd.erase x), hrel]
    constructor
    · rintro (rfl | ⟨y, hy, hyd, hyz⟩)
      · exact ⟨z, List.mem_cons_self, hx, .refl⟩
      · have hyd' := (hd.mem_erase_iff.mp hyd).2
        have hyz' : ReflTransGen (StepsIn next domain) y z :=
          ReflTransGen.mono (fun _ _ h => h.1) _ _ hyz
        rcases List.mem_append.mp hy with hy | hy
        · exact ⟨x, List.mem_cons_self, hx, .head ⟨hy, hyd'⟩ hyz'⟩
        · exact ⟨y, List.mem_cons_of_mem _ hy, hyd', hyz'⟩
    · rintro ⟨y, hy, hyd, hyz⟩
      by_cases hzx : z = x
      · exact .inl hzx
      -- the part of the path after the last visit to `x` stays in the smaller domain
      have hback : ReflTransGen (StepsIn next domain) x z → ∃ y ∈ next x ++ rest,
          y ∈ domain.erase x ∧ ReflTransGen (fun a b => StepsIn next domain a b ∧ b ≠ x) y z := by
        intro hxz
        obtain ⟨w, hw, hwx, hwz⟩ := exists_last_visit hxz hzx
        exact ⟨w, List.mem_append_left _ hw.1, hd.mem_erase_iff.mpr ⟨hwx, hw.2⟩, hwz⟩
      refine .inr ?_
      rcases List.mem_cons.mp hy with rfl | hy
      · exact hback hyz
      · rcases avoids_or_last_visit hyz hzx with ⟨hyx, hyz'⟩ | hxz
        · exact ⟨y, List.mem_append_right _ hy, hd.mem_erase_iff.mpr ⟨hyx, hyd⟩, hyz'⟩
        · exact hback hxz
  | case3 domain x rest hx ih =>
    rw [walk, if_neg hx, ih hd]
    constructor
    · rintro ⟨y, hy, h⟩
      exact ⟨y, List.mem_cons_of_mem _ hy, h⟩
    · rintro ⟨y, hy, hyd, h⟩
      rcases List.mem_cons.mp hy with rfl | hy
      · exact absurd hyd hx
      · exact ⟨y, hy, hyd, h⟩

end Walk

namespace Board

variable {b b' : Board} {i j k : PieceId} {p q : Piece}

/-! ### Looking up pieces -/

theorem id_of_piece? (h : b.piece? i = some p) : p.id = i := by
  simpa using List.find?_some h

theorem mem_of_piece? (h : b.piece? i = some p) : p ∈ b.pieces := List.mem_of_find?_eq_some h

theorem mem_ids_of_piece? (h : b.piece? i = some p) : i ∈ b.ids :=
  List.mem_map.mpr ⟨p, mem_of_piece? h, id_of_piece? h⟩

theorem exists_piece? (h : i ∈ b.ids) : ∃ p, b.piece? i = some p := by
  obtain ⟨p, hp, hi⟩ := List.mem_map.mp h
  exact Option.isSome_iff_exists.mp (List.find?_isSome.mpr ⟨p, hp, by simp [hi]⟩)

theorem piece?_eq_none_iff : b.piece? i = none ↔ i ∉ b.ids := by
  constructor
  · intro h hi
    obtain ⟨p, hp⟩ := exists_piece? hi
    rw [hp] at h
    exact absurd h (by simp)
  · intro h
    cases hp : b.piece? i with
    | none => rfl
    | some p => exact absurd (mem_ids_of_piece? hp) h

theorem contains_iff : b.contains i = true ↔ i ∈ b.ids := by
  rw [contains, ← not_iff_not, ← piece?_eq_none_iff]
  simp

/-- Where no number is used twice, every piece is found under its own. -/
theorem piece?_of_mem (h : b.ids.Nodup) (hp : p ∈ b.pieces) : b.piece? p.id = some p := by
  obtain ⟨q, hq⟩ := exists_piece? (List.mem_map.mpr ⟨p, hp, rfl⟩)
  have : q = p := List.inj_on_of_nodup_map h (mem_of_piece? hq) hp (id_of_piece? hq)
  rw [hq, this]

/-! ### Wires -/

/-- The conclusion of `j` is wired into a slot of `i`. -/
def Feeds (b : Board) (j i : PieceId) : Prop := j ∈ b.producers i

theorem feeds_iff : b.Feeds j i ↔ ∃ p, b.piece? i = some p ∧ some j ∈ p.slots := by
  unfold Feeds producers
  cases h : b.piece? i with
  | none => simp
  | some p => simp [Piece.premises]

theorem Feeds.mem_ids (h : b.Feeds j i) : i ∈ b.ids := by
  obtain ⟨p, hp, -⟩ := feeds_iff.mp h
  exact mem_ids_of_piece? hp

theorem mem_consumers (h : b.ids.Nodup) : k ∈ b.consumers i ↔ b.Feeds i k := by
  rw [feeds_iff]
  simp only [consumers, List.mem_map, List.mem_filter, decide_eq_true_eq]
  constructor
  · rintro ⟨p, ⟨hp, hi⟩, rfl⟩
    exact ⟨p, piece?_of_mem h hp, hi⟩
  · rintro ⟨p, hp, hi⟩
    exact ⟨p, ⟨mem_of_piece? hp, hi⟩, id_of_piece? hp⟩

/-- Every wire starts at a piece of the board. -/
def Wired (b : Board) : Prop := ∀ j i, b.Feeds j i → j ∈ b.ids

def Acyclic (b : Board) : Prop := ∀ i, ¬ TransGen b.Feeds i i

/-- What depends on a piece is what can be reached from it along the wires. -/
theorem mem_dependents (h : b.ids.Nodup) : k ∈ b.dependents i ↔ TransGen b.Feeds i k := by
  have hstep : StepsIn b.consumers b.ids = b.Feeds := by
    funext x y
    rw [StepsIn, mem_consumers h]
    exact propext ⟨fun hxy => hxy.1, fun hxy => ⟨hxy, hxy.mem_ids⟩⟩
  rw [dependents, Ascending.mem_ofList, mem_walk h, TransGen.head'_iff, hstep]
  simp only [mem_consumers h]
  constructor
  · rintro ⟨y, hy, -, hyk⟩
    exact ⟨y, hy, hyk⟩
  · rintro ⟨y, hy, hyk⟩
    exact ⟨y, hy, hy.mem_ids, hyk⟩

/-- What a piece depends on is what reaches it along the wires. -/
theorem mem_dependencies (h : b.ids.Nodup) (hw : b.Wired) :
    j ∈ b.dependencies i ↔ TransGen b.Feeds j i := by
  have hstep : StepsIn b.producers b.ids = Function.swap b.Feeds := by
    funext x y
    exact propext ⟨fun hxy => hxy.1, fun hxy => ⟨hxy, hw _ _ hxy⟩⟩
  rw [dependencies, Ascending.mem_ofList, mem_walk h, ← transGen_swap, TransGen.head'_iff, hstep]
  constructor
  · rintro ⟨y, hy, -, hyj⟩
    exact ⟨y, hy, hyj⟩
  · rintro ⟨y, hy, hyj⟩
    exact ⟨y, hy, hw _ _ hy, hyj⟩

theorem Wired.mem_ids_of_transGen (hw : b.Wired) (h : TransGen b.Feeds j i) : j ∈ b.ids := by
  obtain ⟨k, hjk, -⟩ := TransGen.head'_iff.mp h
  exact hw j k hjk

theorem Acyclic.mono (h : ∀ j i, b'.Feeds j i → b.Feeds j i) (ha : b.Acyclic) : b'.Acyclic :=
  fun i hi => ha i (TransGen.mono h _ _ hi)

/-- A wire from `j` to `i` closes no circle where `j` does not depend on `i`. -/
theorem Acyclic.wire (h : ∀ x y, b'.Feeds x y → b.Feeds x y ∨ x = j ∧ y = i)
    (hne : j ≠ i) (hnot : ¬ TransGen b.Feeds i j) (ha : b.Acyclic) : b'.Acyclic := by
  intro x hx
  rcases transGen_of_new_edge h hx with hx | ⟨hxj, hix⟩
  · exact ha x hx
  · rcases reflTransGen_iff_eq_or_transGen.mp (hix.trans hxj) with heq | hij
    · exact hne heq
    · exact hnot hij

end Board

end DeductionBoard
