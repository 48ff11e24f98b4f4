import DeductionBoard.Formula.Name
import DeductionBoard.Proofs.Formula.Semantics
import Mathlib.Data.List.Basic
import Mathlib.Tactic.Common

/-! Names and numbers behind them. A numeral holds no mark, and a name that is numbered tells its
number; a formula whose names can be used keeps such names under substitution. -/

namespace DeductionBoard

theorem toString_injective {i j : Nat} (h : toString i = toString j) : i = j := by
  have hdigits : Nat.toDigits 10 i = Nat.toDigits 10 j := by
    simpa using congrArg String.toList h
  have hvalue := congrArg (fun ds => Nat.ofDigitChars 10 ds 0) hdigits
  simpa using hvalue

theorem numbered_injective {base : String} {i j : Nat}
    (h : base ++ toString i = base ++ toString j) : i = j := by
  refine toString_injective (String.toList_inj.mp ?_)
  simpa using congrArg String.toList h

theorem reservedMark_notMem_toString (n : Nat) : reservedMark ∉ (toString n).toList := by
  intro hmem
  rw [Nat.toString_eq_ofList_toDigits, String.toList_ofList] at hmem
  have hdigit := Nat.isDigit_of_mem_toDigits (by omega) (by omega) hmem
  revert hdigit
  decide

theorem isUsableName_iff {s : String} :
    isUsableName s = true ↔ s ≠ "" ∧ reservedMark ∉ s.toList := by
  simp [isUsableName]

/-- The first mark parts the name from the number. -/
theorem marked_injective {s t : String} {i j : Nat} (hs : reservedMark ∉ s.toList)
    (h : s ++ "!" ++ toString i = t ++ "!" ++ toString j) : s = t ∧ i = j := by
  have hlists : s.toList ++ '!' :: (toString i).toList = t.toList ++ '!' :: (toString j).toList := by
    simpa using congrArg String.toList h
  obtain ⟨hname, -, hnumber⟩ :=
    (List.append_cons_inj_of_notMem hs (reservedMark_notMem_toString i)).mp hlists
  exact ⟨String.toList_inj.mp hname, toString_injective (String.toList_inj.mp hnumber)⟩

namespace Formula

variable {f g : Formula} {t r x : String}

/-- The names of predicates, individuals and bound variables, one entry per occurrence. -/
def names : Formula → List String
  | .atom n args => n :: args
  | .neg g => g.names
  | .binary _ l r => l.names ++ r.names
  | .quantified _ v g => v :: g.names

theorem mem_names_of_mem_freeVars (h : x ∈ f.freeVars) : x ∈ f.names := by
  induction f with
  | atom n args => exact List.mem_cons_of_mem _ h
  | neg f ih => exact ih h
  | binary op l r ihl ihr =>
    rcases List.mem_append.mp h with h | h
    · exact List.mem_append_left _ (ihl h)
    · exact List.mem_append_right _ (ihr h)
  | quantified q v f ih => exact List.mem_cons_of_mem _ (ih (List.mem_of_mem_filter h))

theorem wellNamed_iff : f.WellNamed ↔ ∀ n ∈ f.names, isUsableName n = true := by
  induction f with
  | atom n args => rw [WellNamed, names, List.forall_mem_cons]
  | neg f ih => exact ih
  | binary op l r ihl ihr => rw [WellNamed, names, List.forall_mem_append, ihl, ihr]
  | quantified q v f ih => rw [WellNamed, names, List.forall_mem_cons, ih]

theorem WellNamed.of_mem_freeVars (h : f.WellNamed) (hx : x ∈ f.freeVars) :
    isUsableName x = true :=
  wellNamed_iff.mp h x (mem_names_of_mem_freeVars hx)

theorem WellNamed.substitute (h : f.WellNamed) (hr : isUsableName r = true)
    (hg : f.substitute t r = some g) : g.WellNamed := by
  induction f generalizing g with
  | atom n args =>
    obtain rfl := Option.some.inj hg
    refine ⟨h.1, fun a ha => ?_⟩
    obtain ⟨b, hb, rfl⟩ := List.mem_map.mp ha
    split
    · exact hr
    · exact h.2 b hb
  | neg f ih =>
    obtain ⟨f', hf', rfl⟩ := Option.map_eq_some_iff.mp hg
    show f'.WellNamed
    exact ih h hf'
  | binary op l r' ihl ihr =>
    rw [Formula.substitute] at hg
    split at hg
    · next l' r'' hl hr' =>
      obtain rfl := Option.some.inj hg
      exact ⟨ihl h.1 hl, ihr h.2 hr'⟩
    · exact absurd hg (by simp)
  | quantified q v f ih =>
    rcases substitute_quantified hg with ⟨rfl, -⟩ | ⟨-, -, -, f', hf', rfl⟩
    · exact h
    · exact ⟨h.1, ih h.2 hf'⟩

/-- A name that is put for itself changes nothing. -/
theorem substitute_self (f : Formula) (t : String) : f.substitute t t = some f := by
  induction f with
  | atom n args =>
    have hself : (fun a => if a = t then t else a) = id := by
      funext a
      split
      · next hat => exact hat.symm
      · rfl
    rw [substitute, hself, List.map_id]
  | neg f ih => rw [substitute, ih, Option.map_some]
  | binary op l r ihl ihr => simp only [substitute, ihl, ihr]
  | quantified q v f ih =>
    rw [substitute]
    split
    · rfl
    next hnot =>
    rw [if_neg fun htv => hnot (.inl htv), ih, Option.map_some]

end Formula

end DeductionBoard
