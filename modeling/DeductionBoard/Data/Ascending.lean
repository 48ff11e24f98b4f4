/-! Finite sets as ascending lists without repetitions. Two lists with the same members become the
same ascending list, so what is computed from one does not depend on a listing. -/

namespace DeductionBoard.Ascending

variable {α : Type} [LT α] [DecidableRel (α := α) (· < ·)]

def insert (x : α) : List α → List α
  | [] => [x]
  | y :: ys => if x < y then x :: y :: ys else if y < x then y :: insert x ys else y :: ys

def ofList (xs : List α) : List α := xs.foldr insert []

def union (xs ys : List α) : List α := ys.foldr insert xs

theorem ofList_cons (x : α) (xs : List α) : ofList (x :: xs) = insert x (ofList xs) := rfl

/-- The order tells any two values apart. -/
class Separates (α : Type) [LT α] : Prop where
  eq_of_not_lt {a b : α} : ¬ a < b → ¬ b < a → a = b

@[simp]
theorem mem_insert [Separates α] {a x : α} {ys : List α} : a ∈ insert x ys ↔ a = x ∨ a ∈ ys := by
  induction ys with
  | nil => simp [insert]
  | cons y ys ih =>
    unfold insert
    by_cases hxy : x < y
    · simp [hxy]
    · by_cases hyx : y < x
      · simp only [hxy, hyx, if_true, if_false, List.mem_cons, ih]
        constructor
        · rintro (h | h | h) <;> simp [h]
        · rintro (h | h | h) <;> simp [h]
      · have : x = y := Separates.eq_of_not_lt hxy hyx
        subst this
        simp [hxy]

@[simp] theorem mem_ofList [Separates α] {a : α} {xs : List α} : a ∈ ofList xs ↔ a ∈ xs := by
  induction xs with
  | nil => simp [ofList]
  | cons x xs ih => rw [ofList_cons, mem_insert, ih, List.mem_cons]

@[simp]
theorem mem_union [Separates α] {a : α} {xs ys : List α} : a ∈ union xs ys ↔ a ∈ xs ∨ a ∈ ys := by
  induction ys with
  | nil => simp [union]
  | cons y ys ih =>
    have : union xs (y :: ys) = insert y (union xs ys) := rfl
    rw [this, mem_insert, ih, List.mem_cons]
    constructor
    · rintro (h | h | h) <;> simp [h]
    · rintro (h | h | h) <;> simp [h]

instance : Separates Int := ⟨fun h h' => by omega⟩

instance : Separates String :=
  ⟨fun h h' => String.le_antisymm (String.not_lt.mp h') (String.not_lt.mp h)⟩

/-- The order is strict and total. -/
class Ordered (α : Type) [LT α] : Prop extends Separates α where
  irrefl {a : α} : ¬ a < a
  trans {a b c : α} : a < b → b < c → a < c

instance : Ordered Int := ⟨fun {a} => Int.lt_irrefl a, Int.lt_trans⟩

instance : Ordered String := ⟨fun {s} => String.lt_irrefl s, String.lt_trans⟩

section Ordered
variable [Ordered α] {x : α} {xs ys : List α}

/-- What is put into an ascending list leaves it ascending. -/
theorem pairwise_insert (h : ys.Pairwise (· < ·)) : (insert x ys).Pairwise (· < ·) := by
  induction ys with
  | nil => exact List.pairwise_singleton _ _
  | cons y ys ih =>
    obtain ⟨hy, hys⟩ := List.pairwise_cons.mp h
    rw [insert]
    split
    · next hxy =>
      exact .cons (List.forall_mem_cons.mpr ⟨hxy, fun z hz => Ordered.trans hxy (hy z hz)⟩) h
    split
    · next hyx =>
      refine .cons (fun z hz => ?_) (ih hys)
      rcases mem_insert.mp hz with rfl | hz
      · exact hyx
      · exact hy z hz
    · exact h

theorem pairwise_union (h : xs.Pairwise (· < ·)) : (union xs ys).Pairwise (· < ·) := by
  induction ys with
  | nil => exact h
  | cons y ys ih => exact pairwise_insert ih

theorem pairwise_ofList (xs : List α) : (ofList xs).Pairwise (· < ·) := by
  have hnil : ([] : List α).Pairwise (· < ·) := .nil
  exact pairwise_union hnil

end Ordered

theorem length_insert_le (x : Int) (ys : List Int) : (insert x ys).length ≤ ys.length + 1 := by
  induction ys with
  | nil => simp [insert]
  | cons y ys ih =>
    rw [insert]
    split
    · simp
    split
    · simpa using ih
    · simp

theorem length_union_le (xs ys : List Int) :
    (union xs ys).length ≤ xs.length + ys.length := by
  induction ys with
  | nil => simp [union]
  | cons y ys ih =>
    have hstep := length_insert_le y (union xs ys)
    have hunion : union xs (y :: ys) = insert y (union xs ys) := rfl
    rw [hunion, List.length_cons]
    omega

end DeductionBoard.Ascending
