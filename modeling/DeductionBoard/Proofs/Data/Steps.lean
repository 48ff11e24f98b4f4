import Mathlib.Data.List.Forall2

/-! Work in steps that may break off. A result comes out where each step has one, and the error is that
of the first step that has none; lists are worked through item by item. -/

namespace DeductionBoard

variable {ε α β : Type} {x : Except ε α} {g : α → Except ε β} {b : β} {xs : List α} {ys : List β}
  {P : ε → Prop}

/-! ### Results -/

@[simp] theorem ok_bind (a : α) (g : α → Except ε β) : (Except.ok a >>= g) = g a := rfl

theorem exists_of_bind_eq_ok (h : (x >>= g) = .ok b) : ∃ a, x = .ok a ∧ g a = .ok b := by
  cases x with
  | error e => exact nomatch h
  | ok a => exact ⟨a, rfl, h⟩

theorem exists_of_map_eq_ok {f : α → β} (h : x.map f = .ok b) : ∃ a, x = .ok a ∧ f a = b := by
  cases x with
  | error e => exact nomatch h
  | ok a => exact ⟨a, rfl, Except.ok.inj h⟩

theorem mapM_eq_ok_iff : xs.mapM g = .ok ys ↔ List.Forall₂ (fun x y => g x = .ok y) xs ys := by
  induction xs generalizing ys with
  | nil =>
    rw [List.forall₂_nil_left_iff]
    exact ⟨fun h => (Except.ok.inj h).symm, fun h => congrArg Except.ok h.symm⟩
  | cons x xs ih =>
    rw [List.mapM_cons, List.forall₂_cons_left_iff]
    constructor
    · intro h
      obtain ⟨y, hy, h⟩ := exists_of_bind_eq_ok h
      obtain ⟨zs, hzs, h⟩ := exists_of_bind_eq_ok h
      exact ⟨y, zs, hy, ih.mp hzs, (Except.ok.inj h).symm⟩
    · rintro ⟨y, zs, hy, hzs, rfl⟩
      rw [hy, ih.mpr hzs]
      rfl

/-- A fold whose steps all succeed is the fold of what they come to. -/
theorem foldlM_eq_ok {f : β → α → Except ε β} {g : β → α → β} {b : β}
    (h : ∀ l a r, xs = l ++ a :: r → f (l.foldl g b) a = .ok (g (l.foldl g b) a)) :
    xs.foldlM f b = .ok (xs.foldl g b) := by
  induction xs generalizing b with
  | nil => rfl
  | cons a xs ih =>
    have hfirst : f b a = .ok (g b a) := h [] a xs rfl
    rw [List.foldlM_cons, hfirst, ok_bind, List.foldl_cons]
    refine ih fun l a' r hxs => ?_
    rw [← List.foldl_cons]
    exact h (a :: l) a' r (by rw [hxs, List.cons_append])

theorem exists_of_mem_right {R : α → β → Prop} (h : List.Forall₂ R xs ys) {y : β} (hy : y ∈ ys) :
    ∃ x ∈ xs, R x y := by
  induction h with
  | nil => exact absurd hy List.not_mem_nil
  | @cons x _ xs _ hxy _ ih =>
    rcases List.mem_cons.mp hy with rfl | hy
    · exact ⟨x, List.mem_cons_self, hxy⟩
    · obtain ⟨w, hw, hwy⟩ := ih hy
      exact ⟨w, List.mem_cons_of_mem x hw, hwy⟩

theorem mapM_eq_some_iff {f : α → Option β} : xs.mapM f = some ys ↔ xs.map f = ys.map some := by
  induction xs generalizing ys with
  | nil => cases ys <;> simp
  | cons x xs ih => cases ys <;> simp [Option.bind_eq_some_iff, ih]

/-! ### Errors -/

/-- Every error of `x` is one of those given. -/
def FailsWith (P : ε → Prop) (x : Except ε α) : Prop := ∀ e, x = .error e → P e

theorem failsWith_ok (a : α) : FailsWith P (.ok a) := fun _ h => nomatch h

theorem failsWith_error {e : ε} (he : P e) : FailsWith P (.error e : Except ε α) :=
  fun _ h => Except.error.inj h ▸ he

theorem FailsWith.bind (hx : FailsWith P x) (hg : ∀ a, x = .ok a → FailsWith P (g a)) :
    FailsWith P (x >>= g) := by
  intro e he
  cases hres : x with
  | error e' =>
    rw [hres] at he
    exact hx e (hres.trans (congrArg Except.error (Except.error.inj he)))
  | ok a =>
    rw [hres] at he
    exact hg a hres e he

theorem FailsWith.mapM (h : ∀ a ∈ xs, FailsWith P (g a)) : FailsWith P (xs.mapM g) := by
  induction xs with
  | nil => exact failsWith_ok []
  | cons a xs ih =>
    rw [List.mapM_cons]
    refine (h a List.mem_cons_self).bind fun b _ => ?_
    exact (ih fun a' ha' => h a' (List.mem_cons_of_mem a ha')).bind fun bs _ => failsWith_ok (b :: bs)

end DeductionBoard
