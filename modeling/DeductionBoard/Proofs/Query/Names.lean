import DeductionBoard.Proofs.Smt.Script
import DeductionBoard.Query.Sentence

/-! Names in the text of a query. A name is written so that it is read as a symbol of the user: as it
is, or in bars where it would mean something else. Names that a query makes up hold a mark that no
name of a formula holds. -/

namespace DeductionBoard

open Smt (Expression isWordChar isSimpleSymbol)

/-- A letter or underscore, then letters, digits and underscores, but not the underscore alone. -/
def IsIdentifier (s : String) : Prop := Query.isWord s.toList = true ∧ s ≠ "_"

instance : DecidablePred IsIdentifier := fun s =>
  inferInstanceAs (Decidable (Query.isWord s.toList = true ∧ s ≠ "_"))

namespace Query

section Symbols

variable {s w : String} {i : Nat} {b : Binder}

theorem isWordChar_of_isIdentifierPart {c : Char} (h : Token.isIdentifierPart c = true) :
    isWordChar c = true := by
  rcases Bool.or_eq_true_iff.mp h with h | h
  · simp [isWordChar, h]
  · obtain rfl := beq_iff_eq.mp h
    decide

theorem not_isDigit_of_isIdentifierStart {c : Char} (h : Token.isIdentifierStart c = true) :
    c.isDigit = false := by
  rw [Bool.eq_false_iff]
  intro hdigit
  have hnine : c.val ≤ '9'.val := of_decide_eq_true (Bool.and_eq_true_iff.mp hdigit).2
  rcases Bool.or_eq_true_iff.mp h with h | h
  · rcases Bool.or_eq_true_iff.mp h with h | h
    · have hupper : 'A'.val ≤ c.val := (of_decide_eq_true h).1
      exact absurd (UInt32.le_trans hupper hnine) (by decide)
    · have hlower : 'a'.val ≤ c.val := of_decide_eq_true (Bool.and_eq_true_iff.mp h).1
      exact absurd (UInt32.le_trans hlower hnine) (by decide)
  · obtain rfl := beq_iff_eq.mp h
    exact absurd hdigit (by decide)

theorem isIdentifierPart_of_isWord (h : isWord s.toList = true) :
    ∀ c ∈ s.toList, Token.isIdentifierPart c = true := by
  cases hs : s.toList with
  | nil => simp
  | cons c r =>
    rw [hs, isWord, Bool.and_eq_true, List.all_eq_true] at h
    intro d hd
    rcases List.mem_cons.mp hd with rfl | hd
    · rcases Bool.or_eq_true_iff.mp h.1 with h | h
      · simp [Token.isIdentifierPart, Char.isAlphanum, h]
      · simp [Token.isIdentifierPart, h]
    · exact h.2 d hd

theorem isSimpleSymbol_of_isWord (h : isWord s.toList = true) : isSimpleSymbol s = true := by
  have hpart := isIdentifierPart_of_isWord h
  rw [isSimpleSymbol, Bool.and_eq_true, List.all_eq_true]
  refine ⟨fun c hc => isWordChar_of_isIdentifierPart (hpart c hc), ?_⟩
  cases hs : s.toList with
  | nil =>
    rw [hs] at h
    exact absurd h (by decide)
  | cons c r =>
    rw [hs, isWord, Bool.and_eq_true] at h
    simp [not_isDigit_of_isIdentifierStart h.1]

theorem toList_ne_nil_of_isSimpleSymbol (h : isSimpleSymbol s = true) : s.toList ≠ [] := by
  intro hs
  rw [isSimpleSymbol, hs] at h
  exact absurd h (by decide)

theorem isWordChar_of_isSimpleSymbol (h : isSimpleSymbol s = true) :
    ∀ c ∈ s.toList, isWordChar c = true := by
  rw [isSimpleSymbol, Bool.and_eq_true, List.all_eq_true] at h
  exact h.1

/-- A simple symbol that is quoted wherever it would mean something else. -/
structure Nameable (s : String) : Prop where
  simple : isSimpleSymbol s = true
  quoted : s ∈ Smt.reserved → s ∈ reservedWords

theorem nameable_of_isIdentifier (h : IsIdentifier s) : Nameable s := by
  refine ⟨isSimpleSymbol_of_isWord h.1, fun hs => ?_⟩
  have hall : ∀ w ∈ Smt.reserved, isWord w.toList = true → w ≠ "_" → w ∈ reservedWords := by decide
  exact hall s hs h.1 h.2

theorem nameable_of_notMem_reserved (h : isSimpleSymbol s = true) (hs : s ∉ Smt.reserved) :
    Nameable s :=
  ⟨h, fun hmem => absurd hmem hs⟩

/-- The expression that a name is written as. -/
def symbolExpression (name : String) : Expression :=
  if name ∈ reservedWords ∨ isSimple name = false then .quoted name else .bare name

theorem chars_symbolExpression (s : String) : (symbolExpression s).chars = (symbol s).toList := by
  unfold symbolExpression symbol
  split
  · rw [Expression.chars, String.toList_append, String.toList_append]
    rfl
  · rw [Expression.chars]

theorem printable_bare (h : isSimpleSymbol s = true) : (Expression.bare s).Printable :=
  ⟨toList_ne_nil_of_isSimpleSymbol h, isWordChar_of_isSimpleSymbol h⟩

theorem printable_symbolExpression (h : Nameable s) : (symbolExpression s).Printable := by
  unfold symbolExpression
  split
  · have hchars := isWordChar_of_isSimpleSymbol h.simple
    refine ⟨fun hbar => ?_, fun hback => ?_⟩
    · exact absurd (hchars _ hbar) (by decide)
    · exact absurd (hchars _ hback) (by decide)
  · exact printable_bare h.simple

theorem symbol?_bare (h : isSimpleSymbol s = true) (hs : s ∉ Smt.reserved) :
    (Expression.bare s).symbol? = some s := by
  rw [Expression.symbol?, if_pos ⟨h, hs⟩]

theorem symbol?_symbolExpression (h : Nameable s) : (symbolExpression s).symbol? = some s := by
  unfold symbolExpression
  split
  · rfl
  · next hnot => exact symbol?_bare h.simple fun hmem => hnot (.inl (h.quoted hmem))

theorem toList_toString_ne_nil (n : Nat) : (toString n).toList ≠ [] := by
  simp

theorem isWordChar_of_mem_toString {n : Nat} :
    ∀ c ∈ (toString n).toList, isWordChar c = true := by
  intro c hc
  rw [Nat.toString_eq_ofList_toDigits, String.toList_ofList] at hc
  have hdigit := Nat.isDigit_of_mem_toDigits (by omega) (by omega) hc
  simp [isWordChar, Char.isAlphanum, hdigit]

/-- A numbered name is simple, and the mark in it keeps it apart from every reserved word. -/
theorem isSimpleSymbol_numbered (h : isSimpleSymbol s = true) (n : Nat) :
    isSimpleSymbol (s ++ "!" ++ toString n) = true ∧ s ++ "!" ++ toString n ∉ Smt.reserved := by
  have hne := toList_ne_nil_of_isSimpleSymbol h
  constructor
  · rw [isSimpleSymbol, Bool.and_eq_true, List.all_eq_true] at h ⊢
    simp only [String.toList_append]
    refine ⟨fun c hc => ?_, ?_⟩
    · simp only [List.mem_append] at hc
      rcases hc with (hc | hc) | hc
      · exact h.1 c hc
      · obtain rfl := List.mem_singleton.mp hc
        decide
      · exact isWordChar_of_mem_toString c hc
    · obtain ⟨c, r, hs⟩ := List.exists_cons_of_ne_nil hne
      rw [hs] at h ⊢
      exact h.2
  · intro hmem
    have hshort : ∀ w ∈ Smt.reserved, '!' ∈ w.toList → w.toList.length = 1 := by decide
    have hlength := hshort _ hmem (by simp)
    have hpos := List.length_pos_iff.mpr hne
    simp only [String.toList_append, List.length_append] at hlength
    have : "!".toList.length = 1 := rfl
    have := List.length_pos_iff.mpr (toList_toString_ne_nil n)
    omega

theorem isSimpleSymbol_binder (h : isSimpleSymbol b.surface = true) :
    isSimpleSymbol b.text = true ∧ b.text ∉ Smt.reserved :=
  isSimpleSymbol_numbered h b.index

theorem isSimpleSymbol_witnessName (i : Nat) :
    isSimpleSymbol (witnessName i) = true ∧ witnessName i ∉ Smt.reserved :=
  isSimpleSymbol_numbered (s := "sk") (by decide) i

end Symbols

end Query

end DeductionBoard
