import Mathlib.Data.List.Basic
import Mathlib.Tactic.Common

/-! S-expressions as text. A scanner cuts characters into tokens, and a nester gathers tokens into
expressions; both read from left to right with a state. A bare word is a run of letters, digits and
the signs that the solver language allows in words; a quoted one stands between bars; a comment runs
from a semicolon to the end of its line. Main result: an expression that is written with single
spaces is read back. -/

namespace DeductionBoard.Smt

/-- A machine reads its input from left to right. Each step rejects, or writes some output and goes
on to a next state; at the end of the input the state may have more to write. -/
structure Machine (σ α β : Type) where
  step : σ → α → Option (List β × σ)
  finish : σ → Option (List β)

namespace Machine

variable {σ α β : Type} {m : Machine σ α β} {s s' s'' : σ} {a : α} {as bs : List α}
  {out out' : List β}

/-- The output on the way through an input, and the state behind it. -/
def run (m : Machine σ α β) (s : σ) : List α → Option (List β × σ)
  | [] => some ([], s)
  | a :: as => (m.step s a).bind fun r => (m.run r.2 as).map fun q => (r.1 ++ q.1, q.2)

/-- The output for a whole input. -/
def output (m : Machine σ α β) (s : σ) (as : List α) : Option (List β) :=
  (m.run s as).bind fun r => (m.finish r.2).map (r.1 ++ ·)

/-- From `s` the machine goes through `as` to `s'` and writes `out`. -/
def Takes (m : Machine σ α β) (s : σ) (as : List α) (out : List β) (s' : σ) : Prop :=
  m.run s as = some (out, s')

theorem Takes.nil (m : Machine σ α β) (s : σ) : m.Takes s [] [] s := rfl

theorem Takes.cons (h : m.step s a = some (out, s')) (ht : m.Takes s' as out' s'') :
    m.Takes s (a :: as) (out ++ out') s'' := by
  unfold Takes at ht ⊢
  rw [run, h, Option.bind_some, ht, Option.map_some]

theorem Takes.single (h : m.step s a = some (out, s')) : m.Takes s [a] out s' := by
  have := Takes.cons h (Takes.nil m s')
  rwa [List.append_nil] at this

theorem Takes.append (h : m.Takes s as out s') (h' : m.Takes s' bs out' s'') :
    m.Takes s (as ++ bs) (out ++ out') s'' := by
  induction as generalizing s out with
  | nil =>
    obtain ⟨rfl, rfl⟩ := Prod.mk.inj (Option.some.inj h)
    exact h'
  | cons a as ih =>
    obtain ⟨r, hr, hrest⟩ := Option.bind_eq_some_iff.mp h
    obtain ⟨q, hq, heq⟩ := Option.map_eq_some_iff.mp hrest
    obtain ⟨rfl, rfl⟩ := Prod.mk.inj heq
    rw [List.append_assoc]
    exact Takes.cons hr (ih hq)

theorem Takes.run_append (h : m.Takes s as out s') (bs : List α) :
    m.run s (as ++ bs) = (m.run s' bs).map fun q => (out ++ q.1, q.2) := by
  cases hrest : m.run s' bs with
  | some q => exact h.append hrest
  | none =>
    induction as generalizing s out with
    | nil =>
      obtain ⟨rfl, rfl⟩ := Prod.mk.inj (Option.some.inj h)
      exact hrest
    | cons a as ih =>
      obtain ⟨r, hr, htail⟩ := Option.bind_eq_some_iff.mp h
      obtain ⟨q, hq, heq⟩ := Option.map_eq_some_iff.mp htail
      obtain ⟨rfl, rfl⟩ := Prod.mk.inj heq
      rw [List.cons_append, run, hr, Option.bind_some, ih hq]
      rfl

/-- What a machine has taken does not change what it makes of the rest. -/
theorem Takes.output_append (h : m.Takes s as out s') (bs : List α) :
    m.output s (as ++ bs) = (m.output s' bs).map (out ++ ·) := by
  rw [output, h.run_append, output, Option.bind_map, Option.map_bind]
  congr 1
  funext q
  simp [Function.comp_def]

theorem Takes.output_eq (h : m.Takes s as out s') :
    m.output s as = (m.finish s').map (out ++ ·) := by
  unfold Takes at h
  rw [Machine.output, h, Option.bind_some]

theorem Takes.output (h : m.Takes s as out s') (hf : m.finish s' = some []) :
    m.output s as = some out := by
  rw [h.output_eq, hf, Option.map_some, List.append_nil]

/-- The output for an input is that of its first step and what follows. -/
theorem exists_of_output_cons {written : List β} (h : m.output s (a :: as) = some written) :
    ∃ out s' rest, m.step s a = some (out, s') ∧ m.output s' as = some rest ∧
      out ++ rest = written := by
  cases hs : m.step s a with
  | none =>
    rw [Machine.output, run, hs, Option.bind_none, Option.bind_none] at h
    exact absurd h (by simp)
  | some r =>
    have hcons : m.output s (a :: as) = (m.output r.2 as).map (r.1 ++ ·) :=
      (Takes.single hs).output_append as
    rw [hcons, Option.map_eq_some_iff] at h
    obtain ⟨rest, hrest, happend⟩ := h
    exact ⟨r.1, r.2, rest, rfl, hrest, happend⟩

end Machine

inductive Token where
  | opening
  | closing
  | bare (word : String)
  | quoted (word : String)
  | comment (text : String)
  deriving DecidableEq, Repr

/-- What the scanner is in the middle of, with the characters of it that were read. -/
inductive Mode where
  | idle
  | bare (word : List Char)
  | quoted (word : List Char)
  | comment (text : List Char)
  deriving DecidableEq, Repr

def isBlank (c : Char) : Bool := c == ' ' || c == '\t' || c == '\n' || c == '\r'

def isLineBreak (c : Char) : Bool := c == '\n' || c == '\r'

/-- The characters of bare words. -/
def isWordChar (c : Char) : Bool := c.isAlphanum || "~!@$%^&*_-+=<>.?/".toList.contains c

/-- What a character does that belongs to nothing before it. -/
def begin? (c : Char) : Option (List Token × Mode) :=
  if isBlank c then some ([], .idle)
  else if c = '(' then some ([.opening], .idle)
  else if c = ')' then some ([.closing], .idle)
  else if c = ';' then some ([], .comment [])
  else if c = '|' then some ([], .quoted [])
  else if isWordChar c then some ([], .bare [c])
  else none

/-- Cuts characters into tokens. A quoted word holds no backslash, and a word ends where a character
follows that no word has. -/
def scanner : Machine Mode Char Token where
  step
    | .idle, c => begin? c
    | .bare w, c =>
      if isWordChar c then some ([], .bare (w ++ [c]))
      else (begin? c).map fun r => (.bare (String.ofList w) :: r.1, r.2)
    | .quoted w, c =>
      if c = '|' then some ([.quoted (String.ofList w)], .idle)
      else if c = '\\' then none
      else some ([], .quoted (w ++ [c]))
    | .comment w, c =>
      if isLineBreak c then some ([.comment (String.ofList w)], .idle)
      else some ([], .comment (w ++ [c]))
  finish
    | .idle => some []
    | .bare w => some [.bare (String.ofList w)]
    | .quoted _ => none
    | .comment w => some [.comment (String.ofList w)]

inductive Expression where
  | bare (word : String)
  | quoted (word : String)
  | list (es : List Expression)
  deriving Repr

/-- What stands at the top of a text. -/
inductive Item where
  | expression (e : Expression)
  | comment (text : String)
  deriving Repr

/-- The lists that are still open, innermost first, each with its elements so far. -/
abbrev Nesting := List (List Expression)

/-- Adds an expression to the innermost open list; without one it stands at the top. -/
def place (e : Expression) : Nesting → List Item × Nesting
  | [] => ([.expression e], [])
  | es :: n => ([], (es ++ [e]) :: n)

/-- Gathers tokens into expressions. Comments inside lists are passed over. -/
def nester : Machine Nesting Token Item where
  step
    | n, .opening => some ([], [] :: n)
    | [], .closing => none
    | es :: n, .closing => some (place (.list es) n)
    | n, .bare w => some (place (.bare w) n)
    | n, .quoted w => some (place (.quoted w) n)
    | [], .comment t => some ([.comment t], [])
    | es :: n, .comment _ => some ([], es :: n)
  finish
    | [] => some []
    | _ :: _ => none

/-- The expressions and comments of a text, in order. -/
def items (text : String) : Option (List Item) :=
  (scanner.output .idle text.toList).bind (nester.output [])

namespace Expression

mutual

/-- The expression as text, with single spaces between the elements of a list. -/
def chars : Expression → List Char
  | .bare w => w.toList
  | .quoted w => '|' :: (w.toList ++ ['|'])
  | .list es => '(' :: closedChars es

/-- The elements of a list and its closing parenthesis. -/
def closedChars : List Expression → List Char
  | [] => [')']
  | [e] => e.chars ++ [')']
  | e :: e' :: es => e.chars ++ ' ' :: closedChars (e' :: es)

end

mutual

def tokens : Expression → List Token
  | .bare w => [.bare w]
  | .quoted w => [.quoted w]
  | .list es => .opening :: (elementTokens es ++ [.closing])

def elementTokens : List Expression → List Token
  | [] => []
  | e :: es => e.tokens ++ elementTokens es

end

mutual

/-- Bare words are made of the characters of words, and quoted ones can stand between bars. -/
def Printable : Expression → Prop
  | .bare w => w.toList ≠ [] ∧ ∀ c ∈ w.toList, isWordChar c = true
  | .quoted w => '|' ∉ w.toList ∧ '\\' ∉ w.toList
  | .list es => AllPrintable es

def AllPrintable : List Expression → Prop
  | [] => True
  | e :: es => e.Printable ∧ AllPrintable es

end

end Expression

section Scanner

variable {c : Char} {w : String} {cs : List Char}

theorem begin?_of_isWordChar (h : isWordChar c = true) : begin? c = some ([], .bare [c]) := by
  have hne : ∀ d, isWordChar d = false → c ≠ d := by
    rintro d hd rfl
    exact absurd (h.symm.trans hd) (by decide)
  have hblank : isBlank c = false := by
    simp [isBlank, hne ' ' (by decide), hne '\t' (by decide), hne '\n' (by decide),
      hne '\r' (by decide)]
  simp [begin?, hblank, h, hne '(' (by decide), hne ')' (by decide), hne ';' (by decide),
    hne '|' (by decide)]

theorem takes_wordChars (v : List Char) (h : ∀ c ∈ cs, isWordChar c = true) :
    scanner.Takes (.bare v) cs [] (.bare (v ++ cs)) := by
  induction cs generalizing v with
  | nil =>
    rw [List.append_nil]
    exact .nil _ _
  | cons c cs ih =>
    have hstep : scanner.step (.bare v) c = some ([], .bare (v ++ [c])) :=
      if_pos (h c List.mem_cons_self)
    have := ih (v ++ [c]) fun d hd => h d (List.mem_cons_of_mem _ hd)
    rw [List.append_assoc] at this
    exact .cons hstep this

theorem takes_word (hne : w.toList ≠ []) (hw : ∀ c ∈ w.toList, isWordChar c = true) :
    scanner.Takes .idle w.toList [] (.bare w.toList) := by
  obtain ⟨d, ds, hds⟩ := List.exists_cons_of_ne_nil hne
  rw [hds] at hw ⊢
  have hfirst : scanner.step .idle d = some ([], .bare [d]) :=
    begin?_of_isWordChar (hw d List.mem_cons_self)
  have hrest : scanner.Takes (.bare [d]) ds [] (.bare (d :: ds)) :=
    takes_wordChars [d] fun c hc => hw c (List.mem_cons_of_mem _ hc)
  exact .cons hfirst hrest

/-- A bare word is complete when a character follows that ends it. -/
theorem takes_bare {out : List Token} {m : Mode} (hne : w.toList ≠ [])
    (hw : ∀ c ∈ w.toList, isWordChar c = true) (hc : isWordChar c = false)
    (hb : begin? c = some (out, m)) :
    scanner.Takes .idle (w.toList ++ [c]) (.bare w :: out) m := by
  have hlast : scanner.Takes (.bare w.toList) [c] (.bare w :: out) m := by
    refine .single ?_
    show (if isWordChar c then _ else _) = _
    rw [if_neg (by simp [hc]), hb, Option.map_some, String.ofList_toList]
  exact (takes_word hne hw).append hlast

/-- A bare word is complete at the end of the text. -/
theorem output_bare (hne : w.toList ≠ []) (hw : ∀ c ∈ w.toList, isWordChar c = true) :
    scanner.output .idle w.toList = some [.bare w] := by
  rw [(takes_word hne hw).output_eq]
  show some [Token.bare (String.ofList w.toList)] = _
  rw [String.ofList_toList]

theorem takes_quoted (h : '|' ∉ w.toList) (h' : '\\' ∉ w.toList) :
    scanner.Takes .idle ('|' :: (w.toList ++ ['|'])) [.quoted w] .idle := by
  have hrun : ∀ (v cs : List Char), '|' ∉ cs → '\\' ∉ cs →
      scanner.Takes (.quoted v) (cs ++ ['|']) [.quoted (String.ofList (v ++ cs))] .idle := by
    intro v cs hbar hback
    induction cs generalizing v with
    | nil =>
      rw [List.append_nil]
      exact .single rfl
    | cons c cs ih =>
      obtain ⟨hc, hbar⟩ := not_or.mp (mt List.mem_cons.mpr hbar)
      obtain ⟨hc', hback⟩ := not_or.mp (mt List.mem_cons.mpr hback)
      have hstep : scanner.step (.quoted v) c = some ([], .quoted (v ++ [c])) := by
        show (if c = '|' then _ else if c = '\\' then _ else _) = _
        rw [if_neg (Ne.symm hc), if_neg (Ne.symm hc')]
      have := ih (v ++ [c]) hbar hback
      rw [List.append_assoc] at this
      exact .cons hstep this
  have hstart : scanner.step .idle '|' = some ([], .quoted []) := rfl
  have := hrun [] w.toList h h'
  rw [List.nil_append, String.ofList_toList] at this
  exact .cons hstart this

/-- A comment runs to the first line break. -/
theorem takes_comment (h : ∀ c ∈ w.toList, isLineBreak c = false) :
    scanner.Takes .idle (';' :: (w.toList ++ ['\n'])) [.comment w] .idle := by
  have hrun : ∀ (v cs : List Char), (∀ c ∈ cs, isLineBreak c = false) →
      scanner.Takes (.comment v) (cs ++ ['\n']) [.comment (String.ofList (v ++ cs))] .idle := by
    intro v cs hcs
    induction cs generalizing v with
    | nil =>
      rw [List.append_nil]
      exact .single rfl
    | cons c cs ih =>
      have hstep : scanner.step (.comment v) c = some ([], .comment (v ++ [c])) := by
        show (if isLineBreak c then _ else _) = _
        rw [if_neg (by simp [hcs c List.mem_cons_self])]
      have := ih (v ++ [c]) fun d hd => hcs d (List.mem_cons_of_mem _ hd)
      rw [List.append_assoc] at this
      exact .cons hstep this
  have hstart : scanner.step .idle ';' = some ([], .comment []) := rfl
  have := hrun [] w.toList h
  rw [List.nil_append, String.ofList_toList] at this
  exact .cons hstart this

theorem step_begun {m m' : Mode} {out : List Token} (h : m ≠ .idle)
    (hs : scanner.step m c = some (out, m')) : out ≠ [] ∨ m' ≠ .idle := by
  cases m with
  | idle => exact absurd rfl h
  | bare v =>
    rw [scanner] at hs
    dsimp only at hs
    split at hs
    · obtain ⟨-, rfl⟩ := Prod.mk.inj (Option.some.inj hs)
      exact .inr Mode.noConfusion
    · obtain ⟨r, -, hr⟩ := Option.map_eq_some_iff.mp hs
      obtain ⟨rfl, -⟩ := Prod.mk.inj hr
      exact .inl (List.cons_ne_nil _ _)
  | quoted v =>
    rw [scanner] at hs
    dsimp only at hs
    split at hs
    · obtain ⟨rfl, -⟩ := Prod.mk.inj (Option.some.inj hs)
      exact .inl (List.cons_ne_nil _ _)
    · split at hs
      · exact absurd hs (by simp)
      · obtain ⟨-, rfl⟩ := Prod.mk.inj (Option.some.inj hs)
        exact .inr Mode.noConfusion
  | comment v =>
    rw [scanner] at hs
    dsimp only at hs
    split at hs
    · obtain ⟨rfl, -⟩ := Prod.mk.inj (Option.some.inj hs)
      exact .inl (List.cons_ne_nil _ _)
    · obtain ⟨-, rfl⟩ := Prod.mk.inj (Option.some.inj hs)
      exact .inr Mode.noConfusion

/-- A token that was begun is written at some time, or the text is no sequence of tokens. -/
theorem output_ne_nil {m : Mode} (h : m ≠ .idle) (cs : List Char) :
    scanner.output m cs ≠ some [] := by
  induction cs generalizing m with
  | nil =>
    cases m with
    | idle => exact absurd rfl h
    | bare | quoted | comment => simp [Machine.output, Machine.run, scanner]
  | cons c cs ih =>
    intro hnil
    obtain ⟨out, m', rest, hs, hrest, happend⟩ := Machine.exists_of_output_cons hnil
    obtain ⟨rfl, rfl⟩ := List.append_eq_nil_iff.mp happend
    exact (step_begun h hs).elim (· rfl) fun hm => ih hm hrest

theorem isBlank_of_begin? (h : begin? c = some ([], .idle)) : isBlank c = true := by
  unfold begin? at h
  split_ifs at h with hblank
  · exact hblank
  all_goals simp at h

theorem isBlank_of_output_nil (h : scanner.output .idle cs = some []) :
    ∀ c ∈ cs, isBlank c = true := by
  induction cs with
  | nil => simp
  | cons c cs ih =>
    obtain ⟨out, m, rest, hs, hrest, happend⟩ := Machine.exists_of_output_cons h
    obtain ⟨rfl, rfl⟩ := List.append_eq_nil_iff.mp happend
    have hidle : m = .idle := by
      by_contra hm
      exact output_ne_nil hm cs hrest
    subst hidle
    exact List.forall_mem_cons.mpr ⟨isBlank_of_begin? hs, ih hrest⟩

/-- Where characters with a bar behind them end a quoted word and are a single token, that bar is the
first to close it. -/
theorem output_quoted {v : List Char} {t : Token}
    (h : scanner.output (.quoted v) (cs ++ ['|']) = some [t]) :
    '|' ∉ cs ∧ '\\' ∉ cs ∧ t = .quoted (String.ofList (v ++ cs)) := by
  have hclose : scanner.step (.quoted v) '|' = some ([.quoted (String.ofList v)], .idle) := rfl
  induction cs generalizing v with
  | nil =>
    obtain ⟨out, m, rest, hs, -, happend⟩ := Machine.exists_of_output_cons h
    obtain ⟨rfl, -⟩ := Prod.mk.inj (Option.some.inj (hclose.symm.trans hs))
    obtain ⟨rfl, -⟩ := List.cons.inj happend
    rw [List.append_nil]
    exact ⟨List.not_mem_nil, List.not_mem_nil, rfl⟩
  | cons c cs ih =>
    obtain ⟨out, m, rest, hs, hrest, happend⟩ := Machine.exists_of_output_cons h
    by_cases hbar : c = '|'
    · subst hbar
      obtain ⟨rfl, rfl⟩ := Prod.mk.inj (Option.some.inj (hclose.symm.trans hs))
      obtain ⟨-, rfl⟩ := List.cons.inj happend
      -- The last bar is still to be read, and no text that ends in one is blank.
      exact absurd (isBlank_of_output_nil hrest '|' (by simp)) (by decide)
    have hstep : scanner.step (.quoted v) c =
        if c = '\\' then none else some ([], .quoted (v ++ [c])) := if_neg hbar
    rw [hstep] at hs
    split_ifs at hs with hback
    obtain ⟨rfl, rfl⟩ := Prod.mk.inj (Option.some.inj hs)
    obtain rfl : rest = [t] := happend
    obtain ⟨hbars, hbacks, ht⟩ := ih hrest rfl
    rw [List.append_assoc] at ht
    exact ⟨List.not_mem_cons_of_ne_of_not_mem (Ne.symm hbar) hbars,
      List.not_mem_cons_of_ne_of_not_mem (Ne.symm hback) hbacks, ht⟩

theorem output_bars_iff {t : Token} :
    scanner.output .idle ('|' :: (w.toList ++ ['|'])) = some [t] ↔
      '|' ∉ w.toList ∧ '\\' ∉ w.toList ∧ t = .quoted w := by
  constructor
  · intro h
    obtain ⟨out, m, rest, hs, hrest, happend⟩ := Machine.exists_of_output_cons h
    have hopen : scanner.step .idle '|' = some ([], .quoted []) := rfl
    obtain ⟨rfl, rfl⟩ := Prod.mk.inj (Option.some.inj (hopen.symm.trans hs))
    obtain rfl : rest = [t] := happend
    have hquoted := output_quoted hrest
    rwa [List.nil_append, String.ofList_toList] at hquoted
  · rintro ⟨hbar, hback, rfl⟩
    exact (takes_quoted hbar hback).output rfl

end Scanner

namespace Expression

mutual

theorem takes_chars (e : Expression) (h : e.Printable) {c : Char} {out : List Token} {m : Mode}
    (hc : isWordChar c = false) (hb : begin? c = some (out, m)) :
    scanner.Takes .idle (e.chars ++ [c]) (e.tokens ++ out) m := by
  cases e with
  | bare w =>
    rw [chars, tokens]
    exact takes_bare h.1 h.2 hc hb
  | quoted w =>
    rw [chars, tokens]
    exact (takes_quoted h.1 h.2).append (.single hb)
  | list es =>
    rw [chars, tokens]
    have hopen : scanner.step .idle '(' = some ([.opening], .idle) := rfl
    exact (Machine.Takes.cons hopen (takes_closedChars es h)).append (.single hb)

theorem takes_closedChars (es : List Expression) (h : AllPrintable es) :
    scanner.Takes .idle (closedChars es) (elementTokens es ++ [.closing]) .idle := by
  match es with
  | [] => exact .single rfl
  | [e] =>
    rw [closedChars, elementTokens, elementTokens, List.append_nil]
    exact takes_chars e h.1 (by decide) rfl
  | e :: e' :: es =>
    have hblank : begin? ' ' = some ([], .idle) := rfl
    have hfirst := takes_chars e h.1 (by decide) hblank
    rw [closedChars, elementTokens, List.append_cons, List.append_assoc e.tokens]
    rw [List.append_nil] at hfirst
    exact hfirst.append (takes_closedChars (e' :: es) h.2)

end

mutual

theorem takes_tokens (e : Expression) (n : Nesting) :
    nester.Takes n e.tokens (place e n).1 (place e n).2 := by
  cases e with
  | bare w => exact .single (by cases n <;> rfl)
  | quoted w => exact .single (by cases n <;> rfl)
  | list es =>
    rw [tokens]
    have hopen : nester.step n .opening = some ([], [] :: n) := by cases n <;> rfl
    have hclose : nester.step (([] ++ es) :: n) .closing = some (place (.list es) n) := rfl
    exact .cons hopen ((takes_elementTokens es [] n).append (.single hclose))

theorem takes_elementTokens (es before : List Expression) (n : Nesting) :
    nester.Takes (before :: n) (elementTokens es) [] ((before ++ es) :: n) := by
  match es with
  | [] =>
    rw [List.append_nil]
    exact .nil _ _
  | e :: es =>
    have hrest := takes_elementTokens es (before ++ [e]) n
    rw [List.append_assoc] at hrest
    exact (takes_tokens e (before :: n)).append hrest

end

end Expression

/-- The characters are whole items, one after the other. -/
def Spells (cs : List Char) (is : List Item) : Prop :=
  ∃ ts, scanner.Takes .idle cs ts .idle ∧ nester.Takes [] ts is []

namespace Spells

variable {cs ds : List Char} {is js : List Item} {e : Expression}

theorem nil : Spells [] [] := ⟨[], .nil _ _, .nil _ _⟩

theorem append (h : Spells cs is) (h' : Spells ds js) : Spells (cs ++ ds) (is ++ js) := by
  obtain ⟨ts, hscan, hnest⟩ := h
  obtain ⟨us, hscan', hnest'⟩ := h'
  exact ⟨ts ++ us, hscan.append hscan', hnest.append hnest'⟩

theorem comment {t : String} (h : ∀ c ∈ t.toList, isLineBreak c = false) :
    Spells (';' :: (t.toList ++ ['\n'])) [.comment t] :=
  ⟨[.comment t], takes_comment h, .single rfl⟩

/-- An expression with a blank behind it. -/
theorem expression (h : e.Printable) {c : Char} (hc : isBlank c = true) :
    Spells (e.chars ++ [c]) [.expression e] := by
  refine ⟨e.tokens, ?_, Expression.takes_tokens e []⟩
  have hdelimits : isWordChar c = false := by
    simp only [isBlank, Bool.or_eq_true, beq_iff_eq] at hc
    rcases hc with ((rfl | rfl) | rfl) | rfl <;> decide
  have hb : begin? c = some ([], .idle) := if_pos hc
  have := e.takes_chars h hdelimits hb
  rwa [List.append_nil] at this

theorem items_eq {text : String} (h : Spells text.toList is) : items text = some is := by
  obtain ⟨ts, hscan, hnest⟩ := h
  rw [items, hscan.output rfl, Option.bind_some, hnest.output rfl]

/-- Items at the beginning of a text come first, and the rest is read as if it stood alone. -/
theorem items_append {text rest : String} (h : Spells cs is) (htext : text.toList = cs ++ rest.toList) :
    items text = (items rest).map (is ++ ·) := by
  obtain ⟨ts, hscan, hnest⟩ := h
  rw [items, htext, hscan.output_append, items, Option.bind_map, Option.map_bind]
  congr 1
  funext us
  exact hnest.output_append us

end Spells

end DeductionBoard.Smt
