import DeductionBoard.Search.Placement
import Mathlib.Data.List.Nodup
import Mathlib.Data.List.Perm.Subperm

/-! Free cells. A piece gets a cell that no other piece stands on, inside the grid if there is one,
and only a grid without a free cell has none for it. Taking a cell leaves one free cell less. -/

namespace DeductionBoard

variable {g : Grid} {occupied : List Cell} {c wanted : Cell} {grid : Option Grid} {n : Nat}

namespace Grid

@[simp] theorem mem_cells : c ∈ g.cells ↔ g.inBounds c = true := by
  simp only [cells, List.mem_flatMap, List.mem_range, List.mem_map, inBounds, Bool.and_eq_true,
    decide_eq_true_eq]
  constructor
  · rintro ⟨x, hx, y, hy, rfl⟩
    dsimp only
    omega
  · rintro ⟨⟨⟨hx, hx'⟩, hy⟩, hy'⟩
    refine ⟨c.1.toNat, by omega, c.2.toNat, by omega, Prod.ext ?_ ?_⟩
    · exact Int.toNat_of_nonneg hx
    · exact Int.toNat_of_nonneg hy

theorem nodup_cells (g : Grid) : g.cells.Nodup := by
  rw [cells, List.nodup_flatMap]
  refine ⟨fun x _ => List.nodup_range.map fun y y' h => ?_, ?_⟩
  · exact Int.ofNat.inj (Prod.mk.inj h).2
  · refine List.nodup_range.imp fun {x x'} hne => ?_
    simp only [Function.onFun, List.disjoint_left, List.mem_map]
    rintro _ ⟨y, -, rfl⟩ ⟨y', -, h⟩
    exact hne (Int.ofNat.inj (Prod.mk.inj h).1).symm

theorem length_cells (g : Grid) : g.cells.length = g.width.toNat * g.height.toNat := by
  simp [cells, List.length_flatMap]

/-- The cells that are not taken. -/
def free (g : Grid) (occupied : List Cell) : List Cell :=
  g.cells.filter fun c => !occupied.contains c

@[simp] theorem mem_free : c ∈ g.free occupied ↔ c ∉ occupied ∧ g.inBounds c = true := by
  simp [free, mem_cells, and_comm]

/-- A cell that is taken is no longer free; all others are as before. -/
theorem length_free_cons (hc : c ∈ g.free occupied) :
    (g.free (c :: occupied)).length + 1 = (g.free occupied).length := by
  have herase : g.free (c :: occupied) = (g.free occupied).erase c := by
    have hnodup : (g.free occupied).Nodup := g.nodup_cells.filter _
    rw [hnodup.erase_eq_filter, free, free, List.filter_filter]
    refine List.filter_congr fun d _ => ?_
    by_cases h : d = c <;> simp [h]
  have hpos := List.length_pos_of_mem hc
  rw [herase, List.length_erase_of_mem hc]
  omega

/-- Every cell of the grid is free, or a piece stands on it. -/
theorem length_cells_le (g : Grid) (occupied : List Cell) :
    g.cells.length ≤ (g.free occupied).length + occupied.length := by
  have hsub : g.cells ⊆ g.free occupied ++ occupied := by
    intro c hc
    rw [List.mem_append, mem_free]
    by_cases h : c ∈ occupied
    · exact .inr h
    · exact .inl ⟨h, mem_cells.mp hc⟩
  simpa using (g.nodup_cells.subperm hsub).length_le

end Grid

/-! ### Vacancies -/

/-- A piece may be put on the cell. -/
structure IsVacant (grid : Option Grid) (occupied : List Cell) (c : Cell) : Prop where
  free : c ∉ occupied
  inBounds : ∀ g, grid = some g → g.inBounds c = true

/-- There are cells for a number of pieces. -/
def HasVacancies (grid : Option Grid) (occupied : List Cell) (n : Nat) : Prop :=
  ∀ g, grid = some g → n ≤ (g.free occupied).length

theorem HasVacancies.mono {k : Nat} (h : HasVacancies grid occupied n) (hk : k ≤ n) :
    HasVacancies grid occupied k :=
  fun g hg => Nat.le_trans hk (h g hg)

theorem hasVacancies_cons (hc : IsVacant grid occupied c) :
    HasVacancies grid (c :: occupied) n ↔ HasVacancies grid occupied (n + 1) := by
  refine forall₂_congr fun g hg => ?_
  rw [← Grid.length_free_cons (Grid.mem_free.mpr ⟨hc.free, hc.inBounds g hg⟩),
    Nat.add_le_add_iff_right]

theorem betterCell_eq_or (wanted : Cell) (best : Option Cell) (c : Cell) :
    betterCell wanted best c = some c ∨ ∃ d, best = some d ∧ betterCell wanted best c = some d := by
  cases best with
  | none => exact .inl rfl
  | some d =>
    rw [betterCell]
    split
    · exact .inl rfl
    · exact .inr ⟨d, rfl, rfl⟩

/-- The best of some cells is one of them. -/
theorem exists_foldl_betterCell (wanted d : Cell) (cs : List Cell) :
    ∃ c ∈ d :: cs, cs.foldl (betterCell wanted) (some d) = some c := by
  induction cs generalizing d with
  | nil => exact ⟨d, List.mem_cons_self, rfl⟩
  | cons e cs ih =>
    rw [List.foldl_cons]
    rcases betterCell_eq_or wanted (some d) e with he | ⟨d', hd, he⟩
    · obtain ⟨c, hc, heq⟩ := ih e
      exact ⟨c, List.mem_cons_of_mem _ hc, by rw [he, heq]⟩
    · obtain rfl := Option.some.inj hd
      obtain ⟨c, hc, heq⟩ := ih d
      refine ⟨c, ?_, by rw [he, heq]⟩
      rcases List.mem_cons.mp hc with rfl | hc
      · exact List.mem_cons_self
      · exact List.mem_cons_of_mem _ (List.mem_cons_of_mem _ hc)

/-- One more cell than are taken is looked at. -/
theorem freeCellBelow_notMem (occupied : List Cell) (wanted : Cell) :
    freeCellBelow occupied wanted ∉ occupied := by
  let cells := (List.range (occupied.length + 1)).map fun (i : Nat) =>
    (wanted.1, wanted.2 + (i : Int))
  have hfind : ∃ c, cells.find? (fun c => !occupied.contains c) = some c := by
    refine Option.isSome_iff_exists.mp (List.find?_isSome.mpr ?_)
    by_contra hnone
    have hsub : cells ⊆ occupied := by
      intro c hc
      by_contra hfree
      exact hnone ⟨c, hc, by simpa using hfree⟩
    have hnodup : cells.Nodup := List.nodup_range.map fun i j hij => by
      have := (Prod.mk.inj hij).2
      omega
    have hlength := (hnodup.subperm hsub).length_le
    simp only [cells, List.length_map, List.length_range] at hlength
    omega
  obtain ⟨c, hc⟩ := hfind
  have hbelow : freeCellBelow occupied wanted = c := by
    rw [freeCellBelow]
    exact congrArg (Option.getD · wanted) hc
  rw [hbelow]
  simpa using List.find?_some hc

/-- A cell is found exactly if there is one, and it is one that a piece may be put on. -/
theorem freeCell_spec (grid : Option Grid) (occupied : List Cell) (wanted : Cell) :
    (freeCell grid occupied wanted = none ∧ ¬ HasVacancies grid occupied 1) ∨
      ∃ c, freeCell grid occupied wanted = some c ∧ IsVacant grid occupied c ∧
        HasVacancies grid occupied 1 := by
  cases grid with
  | none =>
    exact .inr ⟨_, rfl, ⟨freeCellBelow_notMem occupied wanted, fun _ h => absurd h (by simp)⟩,
      fun _ h => absurd h (by simp)⟩
  | some g =>
    have hfreeCell : freeCell (some g) occupied wanted =
      (g.free occupied).foldl (betterCell wanted) none := rfl
    rw [hfreeCell]
    cases hfree : g.free occupied with
    | nil =>
      refine .inl ⟨rfl, fun h => ?_⟩
      have := h g rfl
      simp [hfree] at this
    | cons d cs =>
      obtain ⟨c, hc, heq⟩ := exists_foldl_betterCell wanted d cs
      obtain ⟨hc, hin⟩ := Grid.mem_free.mp (hfree ▸ hc)
      refine .inr ⟨c, heq, ⟨hc, fun g' hg => Option.some.inj hg ▸ hin⟩, fun g' hg => ?_⟩
      obtain rfl := Option.some.inj hg
      simp [hfree]

end DeductionBoard
