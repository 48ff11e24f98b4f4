import DeductionBoard.Derivation.Report
import DeductionBoard.Proofs.Board.CheckingOrder
import DeductionBoard.Proofs.Derivation.Rules

/-! The table of statuses that a check makes. The table has one entry for each piece, producers
first; an entry is the cached status of the piece, or else what its rule says given the whole table.
Main result: on a set of pieces that contains their producers, two tables agree as soon as the
pieces stand for the same rules. -/

namespace DeductionBoard

open DeductionBoard.Derivation

variable {b b' : Board} {i j : PieceId} {p p' : Piece} {s s' t : Statuses}

namespace Derivation.Statuses

@[simp] theorem status?_append : status? (s ++ t) i = (s.status? i).or (t.status? i) := by
  rw [status?, status?, status?, List.lookup_append]

theorem status?_eq_none_iff : s.status? i = none ↔ i ∉ s.map Prod.fst := by
  rw [status?, List.lookup_eq_none_iff]
  simp only [List.mem_map, not_exists, not_and, bne_iff_ne, ne_eq]
  exact ⟨fun h e he hei => h e he hei.symm, fun h e he hei => h e he hei.symm⟩

theorem mem_of_status? {st : Status} (h : s.status? i = some st) : (i, st) ∈ s := by
  obtain ⟨l, r, hs, -⟩ := List.lookup_eq_some_iff.mp h
  simp [hs]

theorem status?_of_mem (hs : (s.map Prod.fst).Nodup) {st : Status} (h : (i, st) ∈ s) :
    s.status? i = some st := by
  obtain ⟨l, r, rfl⟩ := List.append_of_mem h
  rw [List.map_append, List.map_cons, List.nodup_append] at hs
  have hl : status? l i = none :=
    status?_eq_none_iff.mpr fun hmem => hs.2.2 i hmem i List.mem_cons_self rfl
  rw [status?_append, hl, Option.none_or, status?, List.lookup_cons_self]

theorem conclusion?_eq_some_iff {d : Conclusion} :
    s.conclusion? i = some d ↔ s.status? i = some d.status := by
  rw [conclusion?]
  cases s.status? i with
  | none => simp
  | some st => cases st <;> cases d <;> simp [Conclusion.status]

theorem isSome_conclusion?_iff :
    (s.conclusion? i).isSome ↔ ∃ f open_, s.status? i = some (.derived f open_) := by
  rw [Option.isSome_iff_exists]
  constructor
  · rintro ⟨d, hd⟩
    exact ⟨d.formula, d.assumptions, conclusion?_eq_some_iff.mp hd⟩
  · rintro ⟨f, open_, hst⟩
    exact ⟨⟨f, open_⟩, conclusion?_eq_some_iff.mpr hst⟩

theorem conclusion?_congr (h : s.status? i = s'.status? i) : s.conclusion? i = s'.conclusion? i := by
  rw [conclusion?, conclusion?, h]

/-- A table is known by its numbers and what it says about each. -/
theorem ext (hkeys : s.map Prod.fst = s'.map Prod.fst) (hs : (s.map Prod.fst).Nodup)
    (h : ∀ i ∈ s.map Prod.fst, s.status? i = s'.status? i) : s = s' := by
  induction s generalizing s' with
  | nil =>
    cases s' with
    | nil => rfl
    | cons e s' => exact absurd hkeys (by simp)
  | cons e s ih =>
    cases s' with
    | nil => exact absurd hkeys (by simp)
    | cons e' s' =>
      obtain ⟨i, st⟩ := e
      obtain ⟨i', st'⟩ := e'
      obtain ⟨hi, hrest⟩ := List.cons.inj hkeys
      obtain rfl : i = i' := hi
      obtain ⟨hnot, hs⟩ := List.nodup_cons.mp hs
      have hst := h i List.mem_cons_self
      rw [status?, status?, List.lookup_cons_self, List.lookup_cons_self] at hst
      rw [Option.some.inj hst, ih hrest hs fun j hj => ?_]
      have hji : (j == i) = false := beq_false_of_ne fun hji => hnot (hji ▸ hj)
      simpa only [status?, List.lookup_cons, hji] using h j (List.mem_cons_of_mem _ hj)

end Derivation.Statuses

namespace Board

theorem visit_of_piece? (hp : b.piece? i = some p) :
    b.visit s i = s ++ [(i, p.cache.getD (statusOf b p s))] := by
  rw [visit, hp]

/-- Visits add entries in their order. -/
theorem foldl_visit {l : List PieceId} (hl : ∀ i ∈ l, i ∈ b.ids) (s : Statuses) :
    ∃ t : Statuses, l.foldl b.visit s = s ++ t ∧ t.map Prod.fst = l := by
  induction l generalizing s with
  | nil => exact ⟨[], by simp⟩
  | cons i l ih =>
    obtain ⟨p, hp⟩ := exists_piece? (hl i List.mem_cons_self)
    obtain ⟨t, ht, hkeys⟩ := ih (fun j hj => hl j (List.mem_cons_of_mem _ hj)) (b.visit s i)
    refine ⟨(i, p.cache.getD (statusOf b p s)) :: t, ?_, by simp [hkeys]⟩
    rw [List.foldl_cons, ht, visit_of_piece? hp, List.append_assoc, List.singleton_append]

theorem map_fst_statuses (h : b.WellFormed) : b.statuses.map Prod.fst = b.order := by
  obtain ⟨t, ht, hkeys⟩ := foldl_visit (fun i hi => (mem_order h).mp hi) []
  rw [statuses, ht, List.nil_append, hkeys]

theorem nodup_statuses (h : b.WellFormed) : (b.statuses.map Prod.fst).Nodup :=
  map_fst_statuses h ▸ order_nodup h

theorem feeds_of_mem_premises (hp : b.piece? i = some p) (hj : j ∈ p.premises) : b.Feeds j i :=
  feeds_iff.mpr ⟨p, hp, mem_premises.mp hj⟩

/-- An entry is the cached status, or what the rule says given the table as a whole. -/
theorem status?_statuses (h : b.WellFormed) (hp : b.piece? i = some p) :
    b.statuses.status? i = some (p.cache.getD (statusOf b p b.statuses)) := by
  obtain ⟨l, r, horder⟩ := List.append_of_mem ((mem_order h).mpr (mem_ids_of_piece? hp))
  have hids : ∀ j ∈ l ++ i :: r, j ∈ b.ids := fun j hj => (mem_order h).mp (horder ▸ hj)
  obtain ⟨s, hs, hkeys⟩ := foldl_visit (fun j hj => hids j (List.mem_append_left _ hj)) []
  rw [List.nil_append] at hs
  obtain ⟨t, ht, -⟩ := foldl_visit
    (fun j hj => hids j (List.mem_append_right _ (List.mem_cons_of_mem _ hj))) (b.visit s i)
  have htable : b.statuses = s ++ (i, p.cache.getD (statusOf b p s)) :: t := by
    rw [statuses, horder, List.foldl_append, hs, List.foldl_cons, ht, visit_of_piece? hp,
      List.append_assoc, List.singleton_append]
  have hnot : s.status? i = none := by
    have hnodup := horder ▸ order_nodup h
    rw [Statuses.status?_eq_none_iff, hkeys]
    exact fun hi => (List.nodup_append.mp hnodup).2.2 i hi i List.mem_cons_self rfl
  -- the entries of the producers are in the table already
  have hrest : statusOf b p s = statusOf b p b.statuses := by
    refine statusOf_congr (.refl p) (fun j hj => ?_) fun _ _ _ _ _ _ => rfl
    have hjl : j ∈ l := mem_of_order_eq h horder (feeds_of_mem_premises hp hj)
    refine Statuses.conclusion?_congr ?_
    cases hst : s.status? j with
    | none => exact absurd (hkeys ▸ hjl) (Statuses.status?_eq_none_iff.mp hst)
    | some st => rw [htable, Statuses.status?_append, hst, Option.some_or]
  rw [← hrest, htable, Statuses.status?_append, hnot, Option.none_or, Statuses.status?,
    List.lookup_cons_self]

theorem status?_statuses_eq_none_iff (h : b.WellFormed) :
    b.statuses.status? i = none ↔ i ∉ b.ids := by
  rw [Statuses.status?_eq_none_iff, map_fst_statuses h, mem_order h]

theorem mem_ids_of_status? (h : b.WellFormed) {st : Status} (hi : b.statuses.status? i = some st) :
    i ∈ b.ids := by
  by_contra hnot
  exact nomatch ((status?_statuses_eq_none_iff h).mpr hnot).symm.trans hi

/-- A piece of a table that follows the rules derives by its rule from what its premises derive. -/
theorem derives_of_conclusion?
    (hs : ∀ i p, b.piece? i = some p → s.status? i = some (statusOf b p s))
    (hp : b.piece? i = some p) {d : Conclusion} (hd : s.conclusion? i = some d) :
    (∀ j ∈ p.premises, (s.conclusion? j).isSome) ∧
      Context.Derives ⟨b, p⟩ (p.premises.filterMap s.conclusion?) d := by
  have hstatus : statusOf b p s = d.status := by
    rw [← Option.some.injEq, ← hs i p hp, Statuses.conclusion?_eq_some_iff.mp hd]
  exact (statusOf_eq_status_iff.mp hstatus).2

/-- What is open under a piece of a table that follows the rules: an assumption piece above it. -/
theorem exists_assumption (h : b.WellFormed)
    (hs : ∀ i p, b.piece? i = some p → s.status? i = some (statusOf b p s)) {d : Conclusion}
    (hi : i ∈ b.ids) (hd : s.conclusion? i = some d) {a : PieceId} (ha : a ∈ d.assumptions) :
    ∃ p f, b.piece? a = some p ∧ p.kind = .assumption ∧ p.params.formula = some f := by
  induction i using h.wellFounded.induction generalizing d with
  | _ i ih =>
  obtain ⟨p, hp⟩ := exists_piece? hi
  rcases (derives_of_conclusion? hs hp hd).2.assumption_or_mem ha with
    ⟨rfl, hk, f, hf⟩ | ⟨e, he, hae⟩
  · exact ⟨p, f, id_of_piece? hp ▸ hp, hk, hf⟩
  · obtain ⟨j, hj, hje⟩ := List.mem_filterMap.mp he
    have hji := feeds_of_mem_premises hp hj
    exact ih j hji (h.wired j i hji) hje hae

/-- On a set of numbers that contains the producers of its pieces on the second board, the pieces of
the second board stand for the same rules on the first. -/
structure Keeps (b b' : Board) (U : PieceId → Prop) : Prop where
  same : ∀ i p', U i → b'.piece? i = some p' → ∃ p, b.piece? i = some p ∧ SameRule p p'
  closed : ∀ j i, U i → b'.Feeds j i → U j

variable {U : PieceId → Prop}

/-- Tables of the two boards agree where the pieces are kept. The second table may have its entries
from the rules or from the first table. -/
theorem Keeps.status?_eq (h : b.Keeps b' U) (hwf : b'.WellFormed)
    (hs : ∀ i p, U i → b.piece? i = some p → s.status? i = some (statusOf b p s))
    (hs' : ∀ i p', U i → b'.piece? i = some p' →
      s'.status? i = some (statusOf b' p' s') ∨ s'.status? i = s.status? i) (hi : i ∈ b'.ids)
    (hu : U i) :
    s'.status? i = s.status? i ∧
      (∀ p', b'.piece? i = some p' → s'.status? i = some (statusOf b' p' s')) ∧
      ∀ d, s'.conclusion? i = some d → ∀ a ∈ d.assumptions, U a ∧ a ∈ b'.ids := by
  induction i using hwf.wellFounded.induction with
  | _ i ih =>
  obtain ⟨p', hp'⟩ := exists_piece? hi
  obtain ⟨p, hp, hsame⟩ := h.same i p' hu hp'
  have hpremise : ∀ j ∈ p'.premises, s'.status? j = s.status? j ∧
      ∀ d, s'.conclusion? j = some d → ∀ a ∈ d.assumptions, U a ∧ a ∈ b'.ids := by
    intro j hj
    have hji := feeds_of_mem_premises hp' hj
    obtain ⟨heq, -, hopen⟩ := ih j hji (hwf.wired j i hji) (h.closed j i hu hji)
    exact ⟨heq, hopen⟩
  have hassumed : ∀ a, U a → a ∈ b'.ids → b.assumed? a = b'.assumed? a := by
    intro a hua ha
    obtain ⟨q', hq'⟩ := exists_piece? ha
    obtain ⟨q, hq, hqq⟩ := h.same a q' hua hq'
    rw [assumed?, assumed?, hq, hq', Option.bind_some, Option.bind_some, hqq.params]
  have hstatus : statusOf b p s = statusOf b' p' s' := by
    refine statusOf_congr hsame (fun j hj => ?_) fun j hj d hd a ha => ?_
    · exact Statuses.conclusion?_congr (hpremise j hj).1.symm
    · obtain ⟨hua, hai⟩ := (hpremise j hj).2 d hd a ha
      exact hassumed a hua hai
  have hold := hs i p hu hp
  rw [hstatus] at hold
  have hnew : s'.status? i = some (statusOf b' p' s') := by
    rcases hs' i p' hu hp' with h | h
    · exact h
    · rw [h, hold]
  refine ⟨by rw [hnew, hold], ?_, fun d hd a ha => ?_⟩
  · intro q hq
    obtain rfl := Option.some.inj (hp'.symm.trans hq)
    exact hnew
  · have hd' : statusOf b' p' s' = d.status := by
      rw [← Option.some.injEq, ← hnew, Statuses.conclusion?_eq_some_iff.mp hd]
    obtain ⟨-, -, hderives⟩ := statusOf_eq_status_iff.mp hd'
    rcases hderives.assumption_or_mem ha with ⟨rfl, -⟩ | ⟨e, he, hae⟩
    · rw [show (Context.mk b' p').piece.id = i from id_of_piece? hp']
      exact ⟨hu, mem_ids_of_piece? hp'⟩
    · obtain ⟨j, hj, hje⟩ := List.mem_filterMap.mp he
      exact (hpremise j hj).2 e hje a hae

/-- On all pieces of two boards, the agreement makes the tables equal. -/
theorem Keeps.eq_statuses (h : b.Keeps b' fun _ => True) (hwf : b'.WellFormed)
    (horder : s.map Prod.fst = b'.order)
    (hs : ∀ i p, b.piece? i = some p → s.status? i = some (statusOf b p s))
    (hs' : ∀ i p', b'.piece? i = some p' →
      b'.statuses.status? i = some (statusOf b' p' b'.statuses) ∨
        b'.statuses.status? i = s.status? i) : b'.statuses = s := by
  refine Statuses.ext (by rw [map_fst_statuses hwf, horder]) (nodup_statuses hwf) fun i hi => ?_
  rw [map_fst_statuses hwf, mem_order hwf] at hi
  exact (h.status?_eq hwf (fun i p _ => hs i p) (fun i p' _ => hs' i p') hi trivial).1

end Board

end DeductionBoard
