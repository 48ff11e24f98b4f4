import DeductionBoard.Formula.Basic

/-! The order of formulas: atoms before negations, conjunctions, disjunctions, implications and the
two quantifiers; within one kind by name or variable, then by the parts from left to right. -/

namespace DeductionBoard

def Connective.rank : Connective → Nat
  | .and => 2
  | .or => 3
  | .implies => 4

def Quantifier.rank : Quantifier → Nat
  | .all => 5
  | .exist => 6

namespace Formula

def rank : Formula → Nat
  | .atom _ _ => 0
  | .neg _ => 1
  | .binary op _ _ => op.rank
  | .quantified q _ _ => q.rank

/-- Names in lexicographic order; a list stands before its extensions. -/
def compareNames : List String → List String → Ordering
  | [], [] => .eq
  | [], _ :: _ => .lt
  | _ :: _, [] => .gt
  | a :: as, b :: bs => (compare a b).then (compareNames as bs)

def order : Formula → Formula → Ordering
  | .atom n as, .atom m bs => (compare n m).then (compareNames as bs)
  | .neg f, .neg g => f.order g
  | .binary o l r, .binary o' l' r' =>
    (compare o.rank o'.rank).then ((l.order l').then (r.order r'))
  | .quantified q v f, .quantified q' v' g =>
    (compare q.rank q'.rank).then ((compare v v').then (f.order g))
  | f, g => compare f.rank g.rank

instance : LT Formula := ⟨fun f g => f.order g = .lt⟩

instance : LE Formula := ⟨fun f g => f.order g ≠ .gt⟩

instance : DecidableRel (α := Formula) (· < ·) :=
  fun f g => inferInstanceAs (Decidable (f.order g = .lt))

instance : DecidableRel (α := Formula) (· ≤ ·) :=
  fun f g => inferInstanceAs (Decidable (f.order g ≠ .gt))

/-- The atoms of the formula, each once and in ascending order. -/
def atoms (f : Formula) : List Formula := Ascending.ofList (f.subformulas.filter isAtom)

/-- Formulas in ascending order; equal ones all stay. -/
def sort (fs : List Formula) : List Formula := fs.mergeSort fun f g => f ≤ g

theorem compareNames_eq_iff {as bs : List String} : compareNames as bs = .eq ↔ as = bs := by
  induction as generalizing bs with
  | nil => cases bs <;> simp [compareNames]
  | cons a as ih =>
    cases bs with
    | nil => simp [compareNames]
    | cons b bs =>
      simp only [compareNames, Ordering.then_eq_eq, ih, List.cons.injEq]
      rw [Std.LawfulEqOrd.compare_eq_iff_eq]

theorem compareNames_swap (as bs : List String) :
    (compareNames as bs).swap = compareNames bs as := by
  induction as generalizing bs with
  | nil => cases bs <;> rfl
  | cons a as ih =>
    cases bs with
    | nil => rfl
    | cons b bs =>
      rw [compareNames, compareNames, Ordering.swap_then, ih, ← Std.OrientedOrd.eq_swap]

theorem rank_binary_lt (op : Connective) : 1 < op.rank ∧ op.rank < 5 := by
  cases op <;> decide

theorem rank_quantified (q : Quantifier) : 4 < q.rank := by
  cases q <;> decide

theorem Connective.rank_injective {o o' : Connective} (h : o.rank = o'.rank) : o = o' := by
  cases o <;> cases o' <;> first | rfl | exact absurd h (by decide)

theorem Quantifier.rank_injective {q q' : Quantifier} (h : q.rank = q'.rank) : q = q' := by
  cases q <;> cases q' <;> first | rfl | exact absurd h (by decide)

/-- The order tells any two formulas apart. -/
theorem order_eq_iff {f g : Formula} : f.order g = .eq ↔ f = g := by
  induction f generalizing g with
  | atom n as =>
    cases g with
    | atom m bs =>
      simp only [order, Ordering.then_eq_eq, compareNames_eq_iff, Formula.atom.injEq]
      rw [Std.LawfulEqOrd.compare_eq_iff_eq]
    | neg => simp [order, rank]
    | binary o => have := rank_binary_lt o; simp [order, rank]; omega
    | quantified q => have := rank_quantified q; simp [order, rank]; omega
  | neg f ih =>
    cases g with
    | neg g => simp [order, ih]
    | atom => simp [order, rank]
    | binary o => have := rank_binary_lt o; simp [order, rank]; omega
    | quantified q => have := rank_quantified q; simp [order, rank]; omega
  | binary o l r ihl ihr =>
    have ho := rank_binary_lt o
    cases g with
    | binary o' l' r' =>
      simp only [order, Ordering.then_eq_eq, ihl, ihr, Formula.binary.injEq]
      rw [Std.LawfulEqOrd.compare_eq_iff_eq]
      constructor
      · rintro ⟨h, h'⟩
        exact ⟨Connective.rank_injective h, h'⟩
      · rintro ⟨rfl, h'⟩
        exact ⟨rfl, h'⟩
    | atom => simp [order, rank]; omega
    | neg => simp [order, rank]; omega
    | quantified q => have := rank_quantified q; simp [order, rank]; omega
  | quantified q v f ih =>
    have hq := rank_quantified q
    cases g with
    | quantified q' v' g =>
      simp only [order, Ordering.then_eq_eq, ih, Formula.quantified.injEq]
      rw [Std.LawfulEqOrd.compare_eq_iff_eq, Std.LawfulEqOrd.compare_eq_iff_eq]
      constructor
      · rintro ⟨h, h'⟩
        exact ⟨Quantifier.rank_injective h, h'⟩
      · rintro ⟨rfl, h'⟩
        exact ⟨rfl, h'⟩
    | atom => simp [order, rank]; omega
    | neg => simp [order, rank]; omega
    | binary o => have := rank_binary_lt o; simp [order, rank]; omega

theorem order_swap (f g : Formula) : (f.order g).swap = g.order f := by
  induction f generalizing g with
  | atom n as =>
    cases g with
    | atom m bs =>
      rw [order, order, Ordering.swap_then, compareNames_swap, ← Std.OrientedOrd.eq_swap]
    | _ => exact (Std.OrientedOrd.eq_swap (α := Nat)).symm
  | neg f ih =>
    cases g with
    | neg g => exact ih g
    | _ => exact (Std.OrientedOrd.eq_swap (α := Nat)).symm
  | binary o l r ihl ihr =>
    cases g with
    | binary o' l' r' =>
      rw [order, order, Ordering.swap_then, Ordering.swap_then, ihl, ihr, ← Std.OrientedOrd.eq_swap]
    | _ => exact (Std.OrientedOrd.eq_swap (α := Nat)).symm
  | quantified q v f ih =>
    cases g with
    | quantified q' v' g =>
      rw [order, order, Ordering.swap_then, Ordering.swap_then, ih, ← Std.OrientedOrd.eq_swap,
        ← Std.OrientedOrd.eq_swap]
    | _ => exact (Std.OrientedOrd.eq_swap (α := Nat)).symm

theorem lt_iff_order {f g : Formula} : f < g ↔ f.order g = .lt := Iff.rfl

instance : Ascending.Separates Formula :=
  ⟨fun {f g} h h' => by
    rw [lt_iff_order] at h
    rw [lt_iff_order, ← order_swap] at h'
    cases hc : f.order g with
    | eq => exact order_eq_iff.mp hc
    | lt => exact absurd hc h
    | gt => rw [hc] at h'; exact absurd rfl h'⟩

end Formula

end DeductionBoard
