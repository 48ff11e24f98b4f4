import DeductionBoard.Solver.Propositional
import Mathlib.Tactic.Common

/-! The search for an assignment. Main result: without a limit on what is tried both ways, it finds an
assignment that makes the formula true, or says rightly that there is none. -/

namespace DeductionBoard.Solver.Literals

variable {α : Type} {f l r : Literals α} {v w : α → Bool} {a : α} {b : Bool}

@[simp] theorem holds_conjoin : (conjoin l r).holds v = (l.holds v && r.holds v) := by
  unfold conjoin
  split <;> simp [holds]

@[simp] theorem holds_disjoin : (disjoin l r).holds v = (l.holds v || r.holds v) := by
  unfold disjoin
  split <;> simp [holds]

theorem size_conjoin_le : (conjoin l r).size ≤ l.size + r.size := by
  unfold conjoin
  split <;> simp [size]

theorem size_disjoin_le : (disjoin l r).size ≤ l.size + r.size := by
  unfold disjoin
  split <;> simp [size]

/-- A unit literal is true wherever the formula is. -/
theorem eq_of_unit? (hu : f.unit? = some (a, b)) (hf : f.holds v = true) : v a = b := by
  induction f with
  | truth c => simp [unit?] at hu
  | literal c a' =>
    obtain ⟨rfl, rfl⟩ := by simpa [unit?] using hu
    simpa [holds] using hf
  | both l r ihl ihr =>
    simp only [holds, Bool.and_eq_true] at hf
    simp only [unit?, Option.or_eq_some_iff] at hu
    rcases hu with hu | ⟨-, hu⟩
    · exact ihl hu hf.1
    · exact ihr hu hf.2
  | either l r => simp [unit?] at hu

/-- A formula without literals is true or false whatever the assignment. -/
theorem holds_of_first?_none (h : f.first? = none) : f.holds v = f.holds w := by
  induction f with
  | truth c => rfl
  | literal c a => simp [first?] at h
  | both l r ihl ihr =>
    simp only [first?, Option.or_eq_none_iff] at h
    rw [holds, holds, ihl h.1, ihr h.2]
  | either l r ihl ihr =>
    simp only [first?, Option.or_eq_none_iff] at h
    rw [holds, holds, ihl h.1, ihr h.2]

/-- The atom occurs in the formula. -/
def Mentions (a : α) : Literals α → Prop
  | .truth _ => False
  | .literal _ a' => a' = a
  | .both l r => l.Mentions a ∨ r.Mentions a
  | .either l r => l.Mentions a ∨ r.Mentions a

theorem mentions_of_unit? (h : f.unit? = some (a, b)) : f.Mentions a := by
  induction f with
  | truth c => simp [unit?] at h
  | literal c a' => simp_all [unit?, Mentions]
  | both l r ihl ihr =>
    simp only [unit?, Option.or_eq_some_iff] at h
    exact h.imp ihl fun h => ihr h.2
  | either l r => simp [unit?] at h

theorem mentions_of_first? (h : f.first? = some (a, b)) : f.Mentions a := by
  induction f with
  | truth c => simp [first?] at h
  | literal c a' => simp_all [first?, Mentions]
  | both l r ihl ihr =>
    simp only [first?, Option.or_eq_some_iff] at h
    exact h.imp ihl fun h => ihr h.2
  | either l r ihl ihr =>
    simp only [first?, Option.or_eq_some_iff] at h
    exact h.imp ihl fun h => ihr h.2

variable [DecidableEq α]

/-- Setting an atom to the value that it has changes nothing. -/
theorem holds_assign (h : v a = b) : (f.assign a b).holds v = f.holds v := by
  induction f with
  | truth c => rfl
  | literal c a' =>
    rw [assign]
    split_ifs with ha
    · rw [holds, holds, ha, h]
    · rfl
  | both l r ihl ihr => rw [assign, holds_conjoin, ihl, ihr, holds]
  | either l r ihl ihr => rw [assign, holds_disjoin, ihl, ihr, holds]

/-- An atom that has been set is out of the way. -/
theorem holds_assign_congr (h : ∀ x, x ≠ a → v x = w x) :
    (f.assign a b).holds v = (f.assign a b).holds w := by
  induction f with
  | truth c => rfl
  | literal c a' =>
    rw [assign]
    split_ifs with ha
    · rfl
    · rw [holds, holds, h a' ha]
  | both l r ihl ihr => rw [assign, holds_conjoin, holds_conjoin, ihl, ihr]
  | either l r ihl ihr => rw [assign, holds_disjoin, holds_disjoin, ihl, ihr]

theorem size_assign_le : (f.assign a b).size ≤ f.size := by
  induction f with
  | truth c => exact Nat.le_refl _
  | literal c a' =>
    rw [assign]
    split_ifs <;> simp [size]
  | both l r ihl ihr => exact Nat.le_trans size_conjoin_le (Nat.add_le_add ihl ihr)
  | either l r ihl ihr => exact Nat.le_trans size_disjoin_le (Nat.add_le_add ihl ihr)

theorem size_assign_lt (h : f.Mentions a) : (f.assign a b).size < f.size := by
  induction f with
  | truth c => exact h.elim
  | literal c a' =>
    have ha : a' = a := h
    rw [assign, if_pos ha]
    exact Nat.zero_lt_one
  | both l r ihl ihr =>
    have hsum := size_conjoin_le (l := l.assign a b) (r := r.assign a b)
    have hl := size_assign_le (f := l) (a := a) (b := b)
    have hr := size_assign_le (f := r) (a := a) (b := b)
    rw [assign, size]
    rcases h with h | h
    · have := ihl h; omega
    · have := ihr h; omega
  | either l r ihl ihr =>
    have hsum := size_disjoin_le (l := l.assign a b) (r := r.assign a b)
    have hl := size_assign_le (f := l) (a := a) (b := b)
    have hr := size_assign_le (f := r) (a := a) (b := b)
    rw [assign, size]
    rcases h with h | h
    · have := ihl h; omega
    · have := ihr h; omega

/-- What was found out about a formula is right. -/
def Finding.Right (f : Literals α) : Finding α → Prop
  | .found as => f.holds as.value = true
  | .contradictory => ∀ v, f.holds v = false
  | .gaveUp => True

theorem value_cons_self (as : Assignment α) : Assignment.value ((a, b) :: as) a = b := by
  simp [Assignment.value]

theorem value_cons_of_ne {x : α} (as : Assignment α) (h : x ≠ a) :
    Assignment.value ((a, b) :: as) x = as.value x := by
  rw [Assignment.value, List.lookup_cons, beq_false_of_ne h]
  rfl

/-- A contradiction once an atom is set is one wherever the atom has that value. -/
theorem Finding.Right.of_contradictory {x : Finding α} (h : x.Right (f.assign a b))
    (hx : x.set a b = .contradictory) (hv : v a = b) : f.holds v = false := by
  cases x with
  | found as => exact absurd hx (by simp [Finding.set])
  | gaveUp => exact absurd hx (by simp [Finding.set])
  | contradictory =>
    rw [← holds_assign hv]
    exact h v

/-- What was found out once an atom is set is right, unless it is a contradiction that depends on the
value of the atom. -/
theorem Finding.Right.set {x : Finding α} (h : x.Right (f.assign a b))
    (hx : x.set a b = .contradictory → ∀ v, f.holds v = false) : (x.set a b).Right f := by
  cases x with
  | found as =>
    have hself : Assignment.value ((a, b) :: as) a = b := value_cons_self as
    show f.holds (Assignment.value ((a, b) :: as)) = true
    rw [← holds_assign hself, holds_assign_congr fun y hy => value_cons_of_ne as hy]
    exact h
  | contradictory => exact hx rfl
  | gaveUp => trivial

theorem right_settle (h : f.first? = none) : f.settle.Right f := by
  unfold settle
  split_ifs with hf
  · show f.holds _ = true
    rw [holds_of_first?_none h, hf]
  · intro v
    rw [holds_of_first?_none h]
    exact Bool.eq_false_iff.mpr hf

/-- By recursion on the steps; a contradiction with a unit literal is one at all, since a unit literal
is true wherever the formula is. -/
theorem right_search (n k : Nat) : (search n k f).Right f := by
  induction n generalizing k f with
  | zero =>
    unfold search
    split_ifs with h
    · exact right_settle (Option.isNone_iff_eq_none.mp h)
    · trivial
  | succ n ih =>
    unfold search
    split
    · next h => exact right_settle h
    · next x b _ hu =>
      refine (ih _).set fun hx v => ?_
      by_contra hf
      have hv := eq_of_unit? hu (eq_true_of_ne_false hf)
      exact hf ((ih _).of_contradictory hx hv)
    · trivial
    · next x b k _ _ =>
      split
      · next hx =>
        refine (ih k).set fun hx' v => ?_
        by_cases hv : v x = b
        · exact (ih k).of_contradictory hx hv
        · exact (ih k).of_contradictory hx' (Bool.eq_not_of_ne hv)
      · next hne => exact (ih k).set fun hx => absurd hx hne

/-- With as many steps and branches as there are literals, the search comes to an end. -/
theorem search_ne_gaveUp {n k : Nat} (hn : f.size ≤ n) (hk : f.size ≤ k) :
    search n k f ≠ .gaveUp := by
  have hset : ∀ {x : Finding α} {a : α} {b : Bool}, x ≠ .gaveUp → x.set a b ≠ .gaveUp := by
    intro x a b hx
    cases x with
    | gaveUp => exact absurd rfl hx
    | _ => simp [Finding.set]
  have hsettle : ∀ f : Literals α, f.settle ≠ .gaveUp := by
    intro f
    unfold settle
    split_ifs <;> simp
  induction n generalizing k f with
  | zero =>
    unfold search
    split_ifs with h
    · exact hsettle f
    · obtain ⟨e, he⟩ := Option.ne_none_iff_exists'.mp (mt Option.isNone_iff_eq_none.mpr h)
      have := size_assign_lt (b := true) (mentions_of_first? he)
      omega
  | succ n ih =>
    unfold search
    split
    · exact hsettle f
    · next x b _ hu =>
      have := size_assign_lt (b := b) (mentions_of_unit? hu)
      exact hset (ih (by omega) (by omega))
    · next e he _ =>
      have := size_assign_lt (b := true) (mentions_of_first? he)
      omega
    · next x b k he _ =>
      have hlt := fun c => size_assign_lt (b := c) (mentions_of_first? he)
      have hb := hlt b
      have hnb := hlt !b
      split
      · exact hset (ih (by omega) (by omega))
      · exact hset (ih (by omega) (by omega))

/-- Without a limit, an assignment is found, or there is none. -/
theorem satisfy_spec (f : Literals α) :
    (∃ as, f.satisfy none = .found as ∧ f.holds as.value = true) ∨
      f.satisfy none = .contradictory ∧ ∀ v, f.holds v = false := by
  have hright := right_search (f := f) f.size f.size
  have hne := search_ne_gaveUp (f := f) (Nat.le_refl _) (Nat.le_refl _)
  unfold satisfy
  rw [Option.getD_none]
  cases hx : search f.size f.size f with
  | found as => exact .inl ⟨as, rfl, by rwa [hx] at hright⟩
  | contradictory => exact .inr ⟨rfl, by rwa [hx] at hright⟩
  | gaveUp => exact absurd hx hne

end DeductionBoard.Solver.Literals
