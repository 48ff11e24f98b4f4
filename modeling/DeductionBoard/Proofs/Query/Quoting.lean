import DeductionBoard.Formula.Name
import DeductionBoard.Proofs.Query.Names

/-! Quoting as a naming. A symbol of the solver language is a simple word that the language keeps for
nothing of its own, or any text between bars that holds neither a bar nor a backslash. Main result: for
which names the text that is written is a symbol that denotes the name, and which names are read as the
same symbol. -/

namespace DeductionBoard

namespace Smt

/-- The reserved words: those of the syntax, then those that commands begin with. A name of the core
theory is none of them; a bare `true` is a symbol, though not one of the user. -/
def keywords : List String :=
  ["!", "_", "as", "BINARY", "DECIMAL", "exists", "HEXADECIMAL", "forall", "let", "match", "NUMERAL",
    "par", "STRING", "assert", "check-sat", "check-sat-assuming", "declare-const", "declare-datatype",
    "declare-datatypes", "declare-fun", "declare-sort", "define-fun", "define-fun-rec",
    "define-funs-rec", "define-sort", "echo", "exit", "get-assertions", "get-assignment", "get-info",
    "get-model", "get-option", "get-proof", "get-unsat-assumptions", "get-unsat-core", "get-value",
    "pop", "push", "reset", "reset-assertions", "set-info", "set-logic", "set-option"]

/-- The first text is one symbol and nothing else, and denotes the second. -/
inductive Denotes : String → String → Prop where
  | simple {w : String} (hw : isSimpleSymbol w = true) (hfree : w ∉ keywords) : Denotes w w
  | quoted {w : String} (hbar : '|' ∉ w.toList) (hback : '\\' ∉ w.toList) :
    Denotes ("|" ++ w ++ "|") w

/-- The name that a token denotes if it is a symbol. -/
def Token.denoted? : Token → Option String
  | .bare w => if isSimpleSymbol w = true ∧ w ∉ keywords then some w else none
  | .quoted w => some w
  | _ => none

/-- The text is read as one symbol, which denotes `name`; there may be blanks around it. -/
def ReadAs (text name : String) : Prop :=
  ∃ t, scanner.output .idle text.toList = some [t] ∧ t.denoted? = some name

theorem Denotes.readAs {text name : String} (h : Denotes text name) : ReadAs text name := by
  cases h with
  | simple hw hfree =>
    exact ⟨.bare text, output_bare (Query.toList_ne_nil_of_isSimpleSymbol hw)
      (Query.isWordChar_of_isSimpleSymbol hw), if_pos ⟨hw, hfree⟩⟩
  | quoted hbar hback =>
    refine ⟨.quoted name, ?_, rfl⟩
    rw [String.toList_append, String.toList_append, List.append_assoc]
    exact output_bars_iff.mpr ⟨hbar, hback, rfl⟩

end Smt

namespace Query

open Smt (Denotes ReadAs scanner output_bare output_bars_iff takes_bare)

variable {n m w x : String}

/-- Reserved words that are written bare all the same. -/
def overlooked : List String := ["_", "echo", "exit", "pop", "push", "reset"]

/-- A word with a line feed behind it. -/
def TrailsLineFeed (n : String) : Prop := ∃ w, isWord w.toList = true ∧ n = w ++ "\n"

theorem TrailsLineFeed.not_isWord (h : TrailsLineFeed n) : isWord n.toList = false := by
  obtain ⟨w, -, rfl⟩ := h
  rw [Bool.eq_false_iff]
  intro hword
  exact absurd (isIdentifierPart_of_isWord hword '\n' (by simp)) (by decide)

theorem isSimple_iff : isSimple n = true ↔ isWord n.toList = true ∨ TrailsLineFeed n := by
  rw [isSimple, withoutLineFeed]
  split
  · next hlast =>
    obtain ⟨v, hv⟩ := List.getLast?_eq_some_iff.mp hlast
    have hn : n = String.ofList v ++ "\n" := String.toList_inj.mp (by simp [hv])
    rw [hv, List.dropLast_concat, ← hv]
    constructor
    · exact fun hword => .inr ⟨String.ofList v, by rwa [String.toList_ofList], hn⟩
    · rintro (hword | ⟨w, hword, hw⟩)
      · exact absurd (isIdentifierPart_of_isWord hword '\n' (by simp [hv])) (by decide)
      · have hlists : w.toList ++ ['\n'] = v ++ ['\n'] := by
          rw [← hv, hw, String.toList_append]
          rfl
        rwa [← List.append_cancel_right hlists]
  · next hlast =>
    rw [or_iff_left]
    rintro ⟨w, -, rfl⟩
    exact hlast (List.getLast?_eq_some_iff.mpr ⟨w.toList, by simp⟩)

/-- A name is written bare when it is a word that is not reserved, or trails a line feed; no other
name is overlooked. -/
theorem symbol_cases (n : String) :
    (symbol n = n ∧ n ∉ reservedWords ∧ isWord n.toList = true) ∨
    (symbol n = n ∧ TrailsLineFeed n) ∨
    (symbol n = "|" ++ n ++ "|" ∧ n ∉ overlooked ∧ ¬ TrailsLineFeed n) := by
  have hkept : ∀ w ∈ reservedWords, w ∉ overlooked ∧ w.toList.getLast? ≠ some '\n' := by decide
  have hwords : ∀ w ∈ overlooked, isWord w.toList = true := by decide
  rw [symbol]
  split
  · next hquoted =>
    refine .inr (.inr ⟨rfl, ?_⟩)
    rcases hquoted with hres | hsimple
    · refine ⟨(hkept n hres).1, ?_⟩
      rintro ⟨w, -, rfl⟩
      exact (hkept _ hres).2 (by simp)
    · rw [Bool.eq_false_iff, Ne, isSimple_iff, not_or] at hsimple
      exact ⟨fun hover => hsimple.1 (hwords n hover), hsimple.2⟩
  · next hbare =>
    rw [not_or, Bool.not_eq_false, isSimple_iff] at hbare
    rcases hbare.2 with hword | hfeed
    · exact .inl ⟨rfl, hbare.1, hword⟩
    · exact .inr (.inl ⟨rfl, hfeed⟩)

/-- The names that the text written for them denotes. -/
structure Faithful (n : String) : Prop where
  bar : '|' ∉ n.toList
  backslash : '\\' ∉ n.toList
  caught : n ∉ overlooked
  complete : ¬ TrailsLineFeed n

theorem keyword_cases (hn : n ∈ Smt.keywords) (hw : isWord n.toList = true) :
    n ∈ reservedWords ∨ n ∈ overlooked := by
  have hall : ∀ k ∈ Smt.keywords, isWord k.toList = true → k ∈ reservedWords ∨ k ∈ overlooked := by
    decide +kernel
  exact hall n hn hw

theorem notMem_of_isWord {c : Char} (h : isWord n.toList = true)
    (hc : Token.isIdentifierPart c = false) : c ∉ n.toList := fun hmem =>
  absurd (isIdentifierPart_of_isWord h c hmem) (by simp [hc])

theorem readAs_iff_of_output {text : String} (hw : isWord w.toList = true)
    (h : scanner.output .idle text.toList = some [.bare w]) :
    ReadAs text x ↔ x = w ∧ w ∉ Smt.keywords := by
  constructor
  · rintro ⟨t, ht, hx⟩
    obtain ⟨rfl, -⟩ := List.cons.inj (Option.some.inj (h.symm.trans ht))
    rw [Smt.Token.denoted?] at hx
    split_ifs at hx with hfree
    exact ⟨(Option.some.inj hx).symm, hfree.2⟩
  · rintro ⟨rfl, hfree⟩
    exact ⟨.bare x, h, if_pos ⟨isSimpleSymbol_of_isWord hw, hfree⟩⟩

theorem readAs_word (hw : isWord w.toList = true) : ReadAs w x ↔ x = w ∧ w ∉ Smt.keywords := by
  have hsimple := isSimpleSymbol_of_isWord hw
  exact readAs_iff_of_output hw (output_bare (toList_ne_nil_of_isSimpleSymbol hsimple)
    (isWordChar_of_isSimpleSymbol hsimple))

/-- The line feed ends the word and is read as a blank. -/
theorem readAs_lineFeed (hw : isWord w.toList = true) :
    ReadAs (w ++ "\n") x ↔ x = w ∧ w ∉ Smt.keywords := by
  have hsimple := isSimpleSymbol_of_isWord hw
  refine readAs_iff_of_output hw ?_
  rw [String.toList_append]
  exact (takes_bare (toList_ne_nil_of_isSimpleSymbol hsimple)
    (isWordChar_of_isSimpleSymbol hsimple) (by decide) rfl).output rfl

theorem readAs_quoted :
    ReadAs ("|" ++ n ++ "|") x ↔ x = n ∧ '|' ∉ n.toList ∧ '\\' ∉ n.toList := by
  have hchars : ("|" ++ n ++ "|").toList = '|' :: (n.toList ++ ['|']) := by simp
  constructor
  · rintro ⟨t, ht, hx⟩
    rw [hchars, output_bars_iff] at ht
    obtain ⟨hbar, hback, rfl⟩ := ht
    exact ⟨(Option.some.inj hx).symm, hbar, hback⟩
  · rintro ⟨rfl, hbar, hback⟩
    exact (Denotes.quoted hbar hback).readAs

theorem faithful_of_isWord (hw : isWord n.toList = true) (hfree : n ∉ Smt.keywords) :
    Faithful n := by
  have hkeywords : ∀ k ∈ overlooked, k ∈ Smt.keywords := by decide
  refine ⟨notMem_of_isWord hw (by decide), notMem_of_isWord hw (by decide),
    fun hover => hfree (hkeywords n hover), fun hfeed => ?_⟩
  exact absurd hw (by simp [hfeed.not_isWord])

theorem Faithful.denotes (h : Faithful n) : Denotes (symbol n) n := by
  rcases symbol_cases n with ⟨hs, hres, hword⟩ | ⟨-, hfeed⟩ | ⟨hs, -, -⟩
  · rw [hs]
    refine .simple (isSimpleSymbol_of_isWord hword) fun hkey => ?_
    exact (keyword_cases hkey hword).elim hres h.caught
  · exact absurd hfeed h.complete
  · rw [hs]
    exact .quoted h.bar h.backslash

theorem symbol_lineFeed (hw : isWord w.toList = true) : symbol (w ++ "\n") = w ++ "\n" := by
  have hfeed : TrailsLineFeed (w ++ "\n") := ⟨w, hw, rfl⟩
  rcases symbol_cases (w ++ "\n") with ⟨hs, -, -⟩ | ⟨hs, -⟩ | ⟨-, -, hnot⟩
  · exact hs
  · exact hs
  · exact absurd hfeed hnot

/-- What is read in the text that is written for a name: the name, or the word before the line feed
that it trails. -/
theorem readAs_symbol_iff :
    ReadAs (symbol n) x ↔
      x = n ∧ Faithful n ∨ n = x ++ "\n" ∧ isWord x.toList = true ∧ x ∉ Smt.keywords := by
  constructor
  · intro h
    rcases symbol_cases n with ⟨hs, -, hword⟩ | ⟨hs, w, hword, rfl⟩ | ⟨hs, hcaught, hfeed⟩
    · rw [hs, readAs_word hword] at h
      exact .inl ⟨h.1, faithful_of_isWord hword h.2⟩
    · rw [hs, readAs_lineFeed hword] at h
      obtain ⟨rfl, hfree⟩ := h
      exact .inr ⟨rfl, hword, hfree⟩
    · rw [hs, readAs_quoted] at h
      exact .inl ⟨h.1, h.2.1, h.2.2, hcaught, hfeed⟩
  · rintro (⟨rfl, h⟩ | ⟨rfl, hword, hfree⟩)
    · exact h.denotes.readAs
    · rw [symbol_lineFeed hword, readAs_lineFeed hword]
      exact ⟨rfl, hfree⟩

theorem denotes_symbol_iff : Denotes (symbol n) n ↔ Faithful n := by
  refine ⟨fun h => ?_, Faithful.denotes⟩
  rcases readAs_symbol_iff.mp h.readAs with ⟨-, hn⟩ | ⟨hn, -, -⟩
  · exact hn
  · exact absurd (congrArg String.length hn) (by simp)

/-- Two names are read as the same symbol when one is a word and the other trails a line feed behind
it. -/
theorem exists_readAs_iff (hne : m ≠ n) :
    (∃ x, ReadAs (symbol m) x ∧ ReadAs (symbol n) x) ↔
      ∃ w, isWord w.toList = true ∧ w ∉ Smt.keywords ∧
        (m = w ∧ n = w ++ "\n" ∨ m = w ++ "\n" ∧ n = w) := by
  simp only [readAs_symbol_iff]
  constructor
  · rintro ⟨x, ⟨rfl, -⟩ | ⟨rfl, hw, hfree⟩, ⟨rfl, -⟩ | ⟨rfl, hw', hfree'⟩⟩
    · exact absurd rfl hne
    · exact ⟨_, hw', hfree', .inl ⟨rfl, rfl⟩⟩
    · exact ⟨_, hw, hfree, .inr ⟨rfl, rfl⟩⟩
    · exact absurd rfl hne
  · rintro ⟨w, hw, hfree, ⟨rfl, rfl⟩ | ⟨rfl, rfl⟩⟩
    · exact ⟨_, .inl ⟨rfl, faithful_of_isWord hw hfree⟩, .inr ⟨rfl, hw, hfree⟩⟩
    · exact ⟨_, .inr ⟨rfl, hw, hfree⟩, .inl ⟨rfl, faithful_of_isWord hw hfree⟩⟩

/-- The text that is written for a name is a symbol that denotes it unless the name holds a bar or a
backslash, is an overlooked word, or is a word that trails a line feed. No two names are read as the
same symbol but a word and the same word with a line feed. -/
theorem symbol_faithful_iff (n : String) :
    (Denotes (symbol n) n ↔ Faithful n) ∧
    ∀ m, m ≠ n → ((∃ x, ReadAs (symbol m) x ∧ ReadAs (symbol n) x) ↔
      ∃ w, isWord w.toList = true ∧ w ∉ Smt.keywords ∧
        (m = w ∧ n = w ++ "\n" ∨ m = w ++ "\n" ∧ n = w)) :=
  ⟨denotes_symbol_iff, fun _ => exists_readAs_iff⟩

/-- Usable names that are written as something else, one for each way to fail. The first is read as
the name `P`. -/
theorem symbol_unfaithful :
    (∀ n ∈ ["P\n", "exit", "a|b", "a\\b"], isUsableName n = true ∧ ¬ Denotes (symbol n) n) ∧
    ReadAs (symbol "P\n") "P" ∧ ReadAs (symbol "P") "P" := by
  refine ⟨fun n hn => ?_, readAs_symbol_iff.mpr (.inr ⟨rfl, by decide, by decide⟩),
    readAs_symbol_iff.mpr (.inl ⟨rfl, faithful_of_isWord (by decide) (by decide)⟩)⟩
  rw [denotes_symbol_iff]
  simp only [List.mem_cons, List.not_mem_nil, or_false] at hn
  rcases hn with rfl | rfl | rfl | rfl
  · exact ⟨by decide, fun h => h.complete ⟨"P", by decide, rfl⟩⟩
  · exact ⟨by decide, fun h => h.caught (by decide)⟩
  · exact ⟨by decide, fun h => h.bar (by decide)⟩
  · exact ⟨by decide, fun h => h.backslash (by decide)⟩

end Query

end DeductionBoard
