import DeductionBoard.Formula.Key
import Mathlib.Data.List.Sort
import Mathlib.Data.String.Basic

/-! The order of formulas. Two formulas compare by their ranks, and where these agree by their parts
from left to right. What transitivity needs of three formulas in a row is the same at each of these
places, so it is put together place by place. Main result: the order is strict and total, sort keys
are never compared at values of different types and compare as their formulas do, and there is
exactly one way to sort a list of formulas. -/

namespace DeductionBoard

namespace Formula

variable {f g h : Formula} {fs gs : List Formula} {o o' : Ordering}

/-! ### Comparisons by place -/

/-- The comparison of two formulas of one rank. -/
def compareParts : Formula → Formula → Ordering
  | .atom n as, .atom m bs => (compare n m).then (compareNames as bs)
  | .neg f, .neg g => f.order g
  | .binary _ l r, .binary _ l' r' => (l.order l').then (r.order r')
  | .quantified _ v f, .quantified _ v' g => (compare v v').then (f.order g)
  | _, _ => .eq

theorem order_eq (f g : Formula) : f.order g = (compare f.rank g.rank).then (f.compareParts g) := by
  cases f <;> cases g <;> simp [order, compareParts, rank]

/-- Two formulas with the same connective or quantifier. -/
inductive SameRank : Formula → Formula → Prop
  | atom (n m : String) (as bs : List String) : SameRank (.atom n as) (.atom m bs)
  | neg (f g : Formula) : SameRank (.neg f) (.neg g)
  | binary (op : Connective) (l r l' r' : Formula) : SameRank (.binary op l r) (.binary op l' r')
  | quantified (q : Quantifier) (v v' : String) (f g : Formula) :
      SameRank (.quantified q v f) (.quantified q v' g)

theorem sameRank_of_rank_eq (hrank : f.rank = g.rank) : SameRank f g := by
  have hbinary := rank_binary_lt
  have hquantified := rank_quantified
  cases f <;> cases g <;> simp only [rank] at hrank
  case atom.atom => exact .atom ..
  case neg.neg => exact .neg ..
  case binary.binary =>
    obtain rfl := Connective.rank_injective hrank
    exact .binary ..
  case quantified.quantified =>
    obtain rfl := Quantifier.rank_injective hrank
    exact .quantified ..
  all_goals grind

/-! ### Transitivity -/

/-- Three things in a row: how the first compares with the second, the second with the third, and
the first with the third. -/
structure InRow (o₁₂ o₂₃ o₁₃ : Ordering) : Prop where
  eq_left : o₁₂ = .eq → o₁₃ = o₂₃
  eq_right : o₂₃ = .eq → o₁₃ = o₁₂
  lt_lt : o₁₂ = .lt → o₂₃ = .lt → o₁₃ = .lt

theorem inRow_compare {α : Type} [Ord α] [Std.TransOrd α] [Std.LawfulEqOrd α] (a b c : α) :
    InRow (compare a b) (compare b c) (compare a c) where
  eq_left hab := by rw [Std.LawfulEqOrd.eq_of_compare hab]
  eq_right hbc := by rw [Std.LawfulEqOrd.eq_of_compare hbc]
  lt_lt hab hbc := Std.TransCmp.lt_trans hab hbc

theorem then_of_ne_eq (ho : o ≠ .eq) : o.then o' = o := by
  cases o with
  | eq => exact absurd rfl ho
  | lt => rfl
  | gt => rfl

/-- Later places count only where all three are equal at the earlier one. -/
theorem InRow.then {o₁₂ o₂₃ o₁₃ p₁₂ p₂₃ p₁₃ : Ordering} (ho : InRow o₁₂ o₂₃ o₁₃)
    (hp : o₁₂ = .eq → o₂₃ = .eq → InRow p₁₂ p₂₃ p₁₃) :
    InRow (o₁₂.then p₁₂) (o₂₃.then p₂₃) (o₁₃.then p₁₃) where
  eq_left h := by
    obtain ⟨h₁₂, hp₁₂⟩ := Ordering.then_eq_eq.mp h
    rw [ho.eq_left h₁₂]
    by_cases h₂₃ : o₂₃ = .eq
    · rw [(hp h₁₂ h₂₃).eq_left hp₁₂]
    · rw [then_of_ne_eq h₂₃, then_of_ne_eq h₂₃]
  eq_right h := by
    obtain ⟨h₂₃, hp₂₃⟩ := Ordering.then_eq_eq.mp h
    rw [ho.eq_right h₂₃]
    by_cases h₁₂ : o₁₂ = .eq
    · rw [(hp h₁₂ h₂₃).eq_right hp₂₃]
    · rw [then_of_ne_eq h₁₂, then_of_ne_eq h₁₂]
  lt_lt h h' := by
    rw [Ordering.then_eq_lt]
    rcases Ordering.then_eq_lt.mp h with h₁₂ | ⟨h₁₂, hp₁₂⟩ <;>
      rcases Ordering.then_eq_lt.mp h' with h₂₃ | ⟨h₂₃, hp₂₃⟩
    · exact .inl (ho.lt_lt h₁₂ h₂₃)
    · exact .inl ((ho.eq_right h₂₃).trans h₁₂)
    · exact .inl ((ho.eq_left h₁₂).trans h₂₃)
    · exact .inr ⟨(ho.eq_left h₁₂).trans h₂₃, (hp h₁₂ h₂₃).lt_lt hp₁₂ hp₂₃⟩

theorem inRow_names (as bs cs : List String) :
    InRow (compareNames as bs) (compareNames bs cs) (compareNames as cs) := by
  induction as generalizing bs cs with
  | nil => cases bs <;> cases cs <;> constructor <;> simp [compareNames]
  | cons a as ih =>
    cases bs with
    | nil => cases cs <;> constructor <;> simp [compareNames]
    | cons b bs =>
      cases cs with
      | nil => constructor <;> simp [compareNames]
      | cons c cs => exact (inRow_compare a b c).then fun _ _ => ih bs cs

theorem inRow_of_parts (hparts : SameRank f g → SameRank g h →
      InRow (f.compareParts g) (g.compareParts h) (f.compareParts h)) :
    InRow (f.order g) (g.order h) (f.order h) := by
  rw [order_eq f g, order_eq g h, order_eq f h]
  refine (inRow_compare _ _ _).then fun hfg hgh => hparts ?_ ?_
  · exact sameRank_of_rank_eq (Std.LawfulEqOrd.eq_of_compare hfg)
  · exact sameRank_of_rank_eq (Std.LawfulEqOrd.eq_of_compare hgh)

theorem inRow_order (f g h : Formula) : InRow (f.order g) (g.order h) (f.order h) := by
  induction f generalizing g h with
  | atom n as =>
    refine inRow_of_parts fun hfg hgh => ?_
    cases hfg
    cases hgh
    exact (inRow_compare _ _ _).then fun _ _ => inRow_names _ _ _
  | neg f ih =>
    refine inRow_of_parts fun hfg hgh => ?_
    cases hfg
    cases hgh
    exact ih _ _
  | binary op l r ihl ihr =>
    refine inRow_of_parts fun hfg hgh => ?_
    cases hfg
    cases hgh
    exact (ihl _ _).then fun _ _ => ihr _ _
  | quantified q v f ih =>
    refine inRow_of_parts fun hfg hgh => ?_
    cases hfg
    cases hgh
    exact (inRow_compare _ _ _).then fun _ _ => ih _ _

/-! ### A strict total order -/

theorem not_lt_self (f : Formula) : ¬ f < f := by
  rw [lt_iff_order, order_eq_iff.mpr rfl]
  decide

theorem lt_trans (hfg : f < g) (hgh : g < h) : f < h := (inRow_order f g h).lt_lt hfg hgh

theorem not_lt_of_lt (hfg : f < g) : ¬ g < f := fun hgf => not_lt_self f (lt_trans hfg hgf)

theorem lt_or_eq_or_gt (f g : Formula) : f < g ∨ f = g ∨ g < f := by
  by_cases hfg : f < g
  · exact .inl hfg
  · by_cases hgf : g < f
    · exact .inr (.inr hgf)
    · exact .inr (.inl (Ascending.Separates.eq_of_not_lt hfg hgf))

theorem le_iff_not_lt : f ≤ g ↔ ¬ g < f := by
  rw [lt_iff_order, ← order_swap f g, Ordering.swap_eq_lt]
  rfl

theorem le_iff_lt_or_eq : f ≤ g ↔ f < g ∨ f = g := by
  rw [le_iff_not_lt]
  constructor
  · intro hgf
    rcases lt_or_eq_or_gt f g with hfg | heq | hlt
    · exact .inl hfg
    · exact .inr heq
    · exact absurd hlt hgf
  · rintro (hfg | rfl)
    · exact not_lt_of_lt hfg
    · exact not_lt_self f

theorem le_trans (hfg : f ≤ g) (hgh : g ≤ h) : f ≤ h := by
  rcases le_iff_lt_or_eq.mp hfg with hfg | rfl
  · rcases le_iff_lt_or_eq.mp hgh with hgh | rfl
    · exact le_iff_lt_or_eq.mpr (.inl (lt_trans hfg hgh))
    · exact le_iff_lt_or_eq.mpr (.inl hfg)
  · exact hgh

theorem le_antisymm (hfg : f ≤ g) (hgf : g ≤ f) : f = g :=
  Ascending.Separates.eq_of_not_lt (le_iff_not_lt.mp hgf) (le_iff_not_lt.mp hfg)

theorem le_total (f g : Formula) : f ≤ g ∨ g ≤ f := by
  rw [le_iff_lt_or_eq, le_iff_lt_or_eq]
  rcases lt_or_eq_or_gt f g with h | h | h <;> simp [h]

instance : Ascending.Ordered Formula := ⟨fun {f} => not_lt_self f, lt_trans⟩

/-! ### Sorting -/

theorem sort_perm (fs : List Formula) : (sort fs).Perm fs := List.mergeSort_perm fs _

theorem pairwise_sort (fs : List Formula) : (sort fs).Pairwise (· ≤ ·) := by
  refine (List.pairwise_mergeSort (fun f g h hfg hgh => ?_) (fun f g => ?_) fs).imp
    of_decide_eq_true
  · exact decide_eq_true (le_trans (of_decide_eq_true hfg) (of_decide_eq_true hgh))
  · rw [Bool.or_eq_true, decide_eq_true_eq, decide_eq_true_eq]
    exact le_total f g

/-- There is one way to sort a list. -/
theorem eq_sort_iff : gs = sort fs ↔ gs.Perm fs ∧ gs.Pairwise (· ≤ ·) := by
  constructor
  · rintro rfl
    exact ⟨sort_perm fs, pairwise_sort fs⟩
  · rintro ⟨hperm, hsorted⟩
    exact List.Perm.eq_of_pairwise (fun _ _ _ _ => le_antisymm) hsorted (pairwise_sort fs)
      (hperm.trans (sort_perm fs).symm)

end Formula

/-! ### Sort keys -/

namespace Key

variable {x y : Key} {xs ys : List Key} {o o' : Ordering}

/-- What is found out about two keys is how they compare, and the comparison meets no values of
different types. -/
structure Compares (x y : Key) (o : Ordering) : Prop where
  same_eq : same x y = (o == .eq)
  less?_eq : less? x y = some (o == .lt)

/-- The same about the items of two tuples. -/
structure ComparesItems (xs ys : List Key) (o : Ordering) : Prop where
  same_eq : sameItems xs ys = (o == .eq)
  less?_eq : lessItems? xs ys = some (o == .lt)

theorem ComparesItems.tuple (h : ComparesItems xs ys o) : Compares (.tuple xs) (.tuple ys) o :=
  ⟨by rw [same, h.same_eq], by rw [less?, h.less?_eq]⟩

theorem comparesItems_nil : ComparesItems [] [] .eq := ⟨rfl, rfl⟩

/-- The first items decide unless they are equal. -/
theorem Compares.cons (h : Compares x y o) (hrest : o = .eq → ComparesItems xs ys o') :
    ComparesItems (x :: xs) (y :: ys) (o.then o') := by
  by_cases ho : o = .eq
  · obtain ⟨hsame, hless⟩ := hrest ho
    subst ho
    have hxy : same x y = true := h.same_eq
    exact ⟨by rw [sameItems, hxy, hsame]; rfl, by rw [lessItems?, if_pos hxy, hless]; rfl⟩
  · have hxy : same x y = false := h.same_eq.trans (beq_eq_false_iff_ne.mpr ho)
    rw [Formula.then_of_ne_eq ho]
    refine ⟨?_, ?_⟩
    · rw [sameItems, hxy, Bool.false_and, beq_eq_false_iff_ne.mpr ho]
    · rw [lessItems?, if_neg (by simp [hxy]), h.less?_eq]

theorem Compares.last (h : Compares x y o) : ComparesItems [x] [y] o := by
  have hcons := h.cons fun _ => comparesItems_nil
  rwa [Ordering.then_eq] at hcons

theorem compares_number (m n : Nat) : Compares (.number m) (.number n) (compare m n) := by
  constructor
  · rw [same, Bool.eq_iff_iff, beq_iff_eq, beq_iff_eq, Nat.compare_eq_eq]
  · rw [less?, Option.some.injEq, Bool.eq_iff_iff, decide_eq_true_eq, beq_iff_eq, Nat.compare_eq_lt]

theorem compares_text (s t : String) : Compares (.text s) (.text t) (compare s t) := by
  constructor
  · rw [same, Bool.eq_iff_iff, beq_iff_eq, beq_iff_eq, Std.LawfulEqOrd.compare_eq_iff_eq]
  · rw [less?, Option.some.injEq, Bool.eq_iff_iff, decide_eq_true_eq, beq_iff_eq, compare_lt_iff_lt]

theorem compares_names (as bs : List String) :
    ComparesItems (as.map .text) (bs.map .text) (Formula.compareNames as bs) := by
  induction as generalizing bs with
  | nil => cases bs <;> exact ⟨rfl, rfl⟩
  | cons a as ih =>
    cases bs with
    | nil => exact ⟨rfl, rfl⟩
    | cons b bs => exact (compares_text a b).cons fun _ => ih bs

end Key

namespace Formula

open Key

/-- The keys of the parts of a formula. -/
def partKeys : Formula → List Key
  | .atom n args => [.text n, .tuple (args.map .text)]
  | .neg g => [g.sortKey]
  | .binary _ l r => [l.sortKey, r.sortKey]
  | .quantified _ v g => [.text v, g.sortKey]

theorem sortKey_eq (f : Formula) : f.sortKey = .tuple (.number f.rank :: f.partKeys) := by
  cases f <;> rfl

theorem compares_of_parts
    (hparts : SameRank f g → ComparesItems f.partKeys g.partKeys (f.compareParts g)) :
    Compares f.sortKey g.sortKey (f.order g) := by
  rw [sortKey_eq f, sortKey_eq g, order_eq f g]
  refine ((compares_number _ _).cons fun hfg => hparts ?_).tuple
  exact sameRank_of_rank_eq (Std.LawfulEqOrd.eq_of_compare hfg)

/-- Sort keys compare as their formulas do. -/
theorem compares_sortKey (f g : Formula) : Compares f.sortKey g.sortKey (f.order g) := by
  induction f generalizing g with
  | atom n as =>
    refine compares_of_parts fun hfg => ?_
    cases hfg
    exact (compares_text _ _).cons fun _ => (compares_names _ _).tuple.last
  | neg f ih =>
    refine compares_of_parts fun hfg => ?_
    cases hfg
    exact (ih _).last
  | binary op l r ihl ihr =>
    refine compares_of_parts fun hfg => ?_
    cases hfg
    exact (ihl _).cons fun _ => (ihr _).last
  | quantified q v f ih =>
    refine compares_of_parts fun hfg => ?_
    cases hfg
    exact (compares_text _ _).cons fun _ => (ih _).last

/-- Sort keys never meet values of different types and put formulas in a strict order in which any
two different ones have their places; the other comparisons agree with it, and a list can be sorted
in one way only, which is the same for all its permutations. -/
theorem order_total :
    (∀ f g : Formula, f.sortKey.less? g.sortKey = some (decide (f < g))) ∧
      (∀ f : Formula, ¬ f < f) ∧
      (∀ f g h : Formula, f < g → g < h → f < h) ∧
      (∀ f g : Formula, (f < g ∧ f ≠ g ∧ ¬ g < f) ∨ (¬ f < g ∧ f = g ∧ ¬ g < f) ∨
        (¬ f < g ∧ f ≠ g ∧ g < f)) ∧
      (∀ f g : Formula, (f ≤ g ↔ f < g ∨ f = g) ∧ (f > g ↔ ¬ f < g ∧ f ≠ g) ∧
        (f ≥ g ↔ ¬ f < g)) ∧
      (∀ fs gs : List Formula, gs = sort fs ↔ gs.Perm fs ∧ gs.Pairwise (· ≤ ·)) ∧
      ∀ fs gs : List Formula, fs.Perm gs → sort fs = sort gs := by
  refine ⟨fun f g => ?_, not_lt_self, fun f g h => lt_trans, fun f g => ?_,
    fun f g => ⟨?_, ⟨?_, ?_⟩, ?_⟩, fun fs gs => eq_sort_iff, fun fs gs hperm => ?_⟩
  · rw [(compares_sortKey f g).less?_eq]
    rfl
  · rcases lt_or_eq_or_gt f g with hlt | rfl | hgt
    · exact .inl ⟨hlt, fun heq => not_lt_self g (heq ▸ hlt), not_lt_of_lt hlt⟩
    · exact .inr (.inl ⟨not_lt_self f, rfl, not_lt_self f⟩)
    · exact .inr (.inr ⟨not_lt_of_lt hgt, fun heq => not_lt_self g (heq ▸ hgt), hgt⟩)
  · exact le_iff_lt_or_eq
  · intro hgt
    exact ⟨not_lt_of_lt hgt, fun heq => not_lt_self g (heq ▸ hgt)⟩
  · rintro ⟨hnot, hne⟩
    exact ((lt_or_eq_or_gt f g).resolve_left hnot).resolve_left hne
  · exact le_iff_not_lt
  · exact eq_sort_iff.mpr ⟨(sort_perm fs).trans hperm, pairwise_sort fs⟩

end Formula

end DeductionBoard
