import DeductionBoard.Proofs.Formula.Name
import DeductionBoard.Proofs.Query.Spelling
import DeductionBoard.Query.Theory

/-! Theory texts, as a proof assistant cuts them into tokens. A name is a run of letters, digits and
underscores; a symbol such as `\<not>` runs from its backslash to its angle bracket; parentheses, dots
and colons stand for themselves; what a lemma says stands between quotation marks. Main result: the
text of a formula is cut into the tokens of one expression. -/

namespace DeductionBoard.Theory

open Query
open Smt (Expression Machine)
open Token (isIdentifierPart)

/-- What the scanner is in the middle of, with the characters of it that were read. -/
inductive Mode where
  | idle
  | word (w : List Char)
  | symbol (w : List Char)
  | quoted (w : List Char)
  deriving DecidableEq, Repr

def quotationMark : Char := Char.ofNat 34

/-- What a character does that belongs to nothing before it. -/
def begin? (c : Char) : Option (List Smt.Token × Mode) :=
  if Smt.isBlank c then some ([], .idle)
  else if c = '(' then some ([.opening], .idle)
  else if c = ')' then some ([.closing], .idle)
  else if c = '.' ∨ c = ':' then some ([.bare (String.singleton c)], .idle)
  else if c = '\\' then some ([], .symbol [c])
  else if c = quotationMark then some ([], .quoted [])
  else if isIdentifierPart c then some ([], .word [c])
  else none

/-- Cuts characters into tokens. Names, symbols and signs are bare words as they are spelt. -/
def scanner : Machine Mode Char Smt.Token where
  step
    | .idle, c => begin? c
    | .word w, c =>
      if isIdentifierPart c then some ([], .word (w ++ [c]))
      else (begin? c).map fun r => (.bare (String.ofList w) :: r.1, r.2)
    | .symbol w, c =>
      if c = '>' then some ([.bare (String.ofList (w ++ [c]))], .idle)
      else some ([], .symbol (w ++ [c]))
    | .quoted w, c =>
      if c = quotationMark then some ([.quoted (String.ofList w)], .idle)
      else some ([], .quoted (w ++ [c]))
  finish
    | .idle => some []
    | .word w => some [.bare (String.ofList w)]
    | .symbol _ => none
    | .quoted _ => none

/-- The tokens of a text. -/
def tokens? (text : String) : Option (List Smt.Token) := scanner.output .idle text.toList

section Scanner

variable {c : Char} {cs : List Char} {ts out : List Smt.Token} {m : Mode} {w : String}

theorem begin?_of_isIdentifierPart (h : isIdentifierPart c = true) :
    begin? c = some ([], .word [c]) := by
  have hne : ∀ d, isIdentifierPart d = false → c ≠ d := by
    rintro d hd rfl
    exact absurd (h.symm.trans hd) (by decide)
  have hblank : Smt.isBlank c = false := by
    simp [Smt.isBlank, hne ' ' (by decide), hne '\t' (by decide), hne '\n' (by decide),
      hne '\r' (by decide)]
  simp [begin?, hblank, h, hne '(' (by decide), hne ')' (by decide), hne '.' (by decide),
    hne ':' (by decide), hne '\\' (by decide), hne quotationMark (by decide)]

theorem takes_word (hne : cs ≠ [])
    (h : ∀ c ∈ cs, isIdentifierPart c = true) :
    scanner.Takes .idle cs [] (.word cs) := by
  have hrest : ∀ v ds : List Char, (∀ c ∈ ds, isIdentifierPart c = true) →
      scanner.Takes (.word v) ds [] (.word (v ++ ds)) := by
    intro v ds hds
    induction ds generalizing v with
    | nil =>
      rw [List.append_nil]
      exact .nil _ _
    | cons d ds ih =>
      have hstep : scanner.step (.word v) d = some ([], .word (v ++ [d])) :=
        if_pos (hds d List.mem_cons_self)
      have := ih (v ++ [d]) fun c hc => hds c (List.mem_cons_of_mem _ hc)
      rw [List.append_assoc] at this
      exact .cons hstep this
  obtain ⟨d, ds, rfl⟩ := List.exists_cons_of_ne_nil hne
  have hfirst : scanner.step .idle d = some ([], .word [d]) :=
    begin?_of_isIdentifierPart (h d List.mem_cons_self)
  exact .cons hfirst (hrest [d] ds fun c hc => h c (List.mem_cons_of_mem _ hc))

/-- A text has its tokens also where something follows that is not part of its last one. -/
theorem takes_delimited (h : scanner.output .idle cs = some ts)
    (hc : isIdentifierPart c = false) (hb : begin? c = some (out, m)) :
    scanner.Takes .idle (cs ++ [c]) (ts ++ out) m := by
  obtain ⟨⟨us, m'⟩, hrun, hfinish⟩ := Option.bind_eq_some_iff.mp h
  obtain ⟨vs, hvs, rfl⟩ := Option.map_eq_some_iff.mp hfinish
  rw [List.append_assoc]
  refine Machine.Takes.append hrun (.single ?_)
  cases m' with
  | idle =>
    obtain rfl := Option.some.inj hvs
    exact hb
  | word v =>
    obtain rfl := Option.some.inj hvs
    show (if isIdentifierPart c then _ else _) = _
    rw [if_neg (by simp [hc]), hb]
    rfl
  | symbol v => exact nomatch hvs
  | quoted v => exact nomatch hvs

theorem output_name (hw : isWord w.toList = true) :
    scanner.output .idle w.toList = some [.bare w] := by
  have hne : w.toList ≠ [] := by
    intro hnil
    rw [hnil] at hw
    exact absurd hw (by decide)
  rw [(takes_word hne (isIdentifierPart_of_isWord hw)).output_eq]
  show some [Smt.Token.bare (String.ofList w.toList)] = _
  rw [String.ofList_toList]

/-- What stands between quotation marks is one token. -/
theorem takes_quoted (h : quotationMark ∉ cs) :
    scanner.Takes .idle (quotationMark :: (cs ++ [quotationMark])) [.quoted (String.ofList cs)]
      .idle := by
  have hrest : ∀ v ds : List Char, quotationMark ∉ ds → scanner.Takes (.quoted v)
      (ds ++ [quotationMark]) [.quoted (String.ofList (v ++ ds))] .idle := by
    intro v ds hds
    induction ds generalizing v with
    | nil =>
      rw [List.append_nil]
      exact .single rfl
    | cons d ds ih =>
      obtain ⟨hd, hds⟩ := not_or.mp (mt List.mem_cons.mpr hds)
      have hstep : scanner.step (.quoted v) d = some ([], .quoted (v ++ [d])) := if_neg (Ne.symm hd)
      have := ih (v ++ [d]) hds
      rw [List.append_assoc] at this
      exact .cons hstep this
  have hstart : scanner.step .idle quotationMark = some ([], .quoted []) := by decide
  exact .cons hstart (hrest [] cs h)

end Scanner

/-! ### Formulas -/

/-- The expression that a formula is written as. -/
def expression : Formula → Expression
  | .atom n [] => .bare n
  | .atom n (a :: args) => .list (.bare n :: (a :: args).map .bare)
  | .neg f => .list [.bare "\\<not>", expression f]
  | .binary op l r => .list [expression l, .bare (theoryConnective op), expression r]
  | .quantified q v f => .list [.bare (theoryQuantifier q), .bare v, .bare ".", expression f]

variable {f : Formula} {ns : List String}

/-- Names with spaces between them, up to the parenthesis behind them. -/
theorem takes_names (h : ∀ n ∈ ns, isWord n.toList = true) :
    scanner.Takes .idle ((spaced ns).toList ++ [')'])
      (Expression.elementTokens (ns.map .bare) ++ [.closing]) .idle := by
  induction ns with
  | nil => exact .single rfl
  | cons n ns ih =>
    rw [List.forall_mem_cons] at h
    cases ns with
    | nil => exact takes_delimited (output_name h.1) (by decide) rfl
    | cons n' ns =>
      have hfirst : scanner.Takes .idle (n.toList ++ [' ']) ([.bare n] ++ []) .idle :=
        takes_delimited (output_name h.1) (by decide) rfl
      have := hfirst.append (ih h.2)
      rw [spaced_cons_cons]
      simpa [Expression.elementTokens, Expression.tokens] using this

/-- The text of a formula has the tokens of its expression. -/
theorem output_theoryFormula (h : ∀ n ∈ f.names, isWord n.toList = true) :
    scanner.output .idle (theoryFormula f).toList = some (expression f).tokens := by
  induction f with
  | atom n args =>
    rw [Formula.names, List.forall_mem_cons] at h
    cases args with
    | nil => exact output_name h.1
    | cons a args =>
      have hopen : scanner.Takes .idle ['('] [.opening] .idle := .single rfl
      have hname : scanner.Takes .idle (n.toList ++ [' ']) ([.bare n] ++ []) .idle :=
        takes_delimited (output_name h.1) (by decide) rfl
      have htext := (hopen.append (hname.append (takes_names h.2))).output rfl
      rw [theoryFormula, if_neg (by simp)]
      simpa [expression, Expression.tokens, Expression.elementTokens] using htext
  | neg f ih =>
    have hnot : scanner.Takes .idle "(\\<not> ".toList [.opening, .bare "\\<not>"] .idle := rfl
    have hbody : scanner.Takes .idle ((theoryFormula f).toList ++ [')'])
        ((expression f).tokens ++ [.closing]) .idle := takes_delimited (ih h) (by decide) rfl
    have htext := (hnot.append hbody).output rfl
    simpa [theoryFormula, expression, Expression.tokens, Expression.elementTokens] using htext
  | binary op l r ihl ihr =>
    rw [Formula.names, List.forall_mem_append] at h
    have hopen : scanner.Takes .idle ['('] [.opening] .idle := .single rfl
    have hleft : scanner.Takes .idle ((theoryFormula l).toList ++ [' '])
        ((expression l).tokens ++ []) .idle := takes_delimited (ihl h.1) (by decide) rfl
    have hop : scanner.Takes .idle ((theoryConnective op).toList ++ [' '])
        [.bare (theoryConnective op)] .idle := by cases op <;> rfl
    have hright : scanner.Takes .idle ((theoryFormula r).toList ++ [')'])
        ((expression r).tokens ++ [.closing]) .idle := takes_delimited (ihr h.2) (by decide) rfl
    have htext := (hopen.append (hleft.append (hop.append hright))).output rfl
    simpa [theoryFormula, expression, Expression.tokens, Expression.elementTokens] using htext
  | quantified q v f ih =>
    rw [Formula.names, List.forall_mem_cons] at h
    have hopen : scanner.Takes .idle ['('] [.opening] .idle := .single rfl
    have hq : scanner.Takes .idle (theoryQuantifier q).toList [.bare (theoryQuantifier q)] .idle := by
      cases q <;> rfl
    have hv : scanner.Takes .idle (v.toList ++ ['.']) ([.bare v] ++ [.bare "."]) .idle :=
      takes_delimited (output_name h.1) (by decide) rfl
    have hblank : scanner.Takes .idle [' '] [] .idle := .single rfl
    have hbody : scanner.Takes .idle ((theoryFormula f).toList ++ [')'])
        ((expression f).tokens ++ [.closing]) .idle := takes_delimited (ih h.2) (by decide) rfl
    have htext := (hopen.append (hq.append (hv.append (hblank.append hbody)))).output rfl
    simpa [theoryFormula, expression, Expression.tokens, Expression.elementTokens] using htext

end DeductionBoard.Theory
