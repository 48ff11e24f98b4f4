import DeductionBoard.Proofs.Query.Names

/-! What the sentences of a query spell. A sentence is written as an S-expression, and that expression
is read as a statement of the solver language: names stand for themselves, and bound variables for
the texts of their binders. -/

namespace DeductionBoard.Query

open Smt (Expression)

variable {sort : String}

section Texts

variable {e : Expression} {es : List Expression} {ts : List String} {t : String}

@[simp] theorem spaced_singleton (t : String) : spaced [t] = t := String.intercalate_singleton

@[simp] theorem spaced_cons_cons (t t' : String) (ts : List String) :
    spaced (t :: t' :: ts) = t ++ " " ++ spaced (t' :: ts) :=
  String.intercalate_cons_cons

theorem closedChars_eq (h : es.map Expression.chars = ts.map String.toList) :
    Expression.closedChars es = (spaced ts).toList ++ [')'] := by
  induction es generalizing ts with
  | nil =>
    obtain rfl := List.map_eq_nil_iff.mp h.symm
    rfl
  | cons e es ih =>
    obtain ⟨t, ts, rfl, ht, hts⟩ := List.map_eq_cons_iff.mp h.symm
    cases es with
    | nil =>
      obtain rfl := List.map_eq_nil_iff.mp hts
      rw [Expression.closedChars, ← ht, spaced_singleton]
    | cons e' es =>
      have hrest := ih hts.symm
      obtain ⟨t', ts, rfl, -, -⟩ := List.map_eq_cons_iff.mp hts
      rw [Expression.closedChars, hrest, ← ht, spaced_cons_cons]
      simp

/-- A list is the texts of its elements with spaces between them, in parentheses. -/
theorem chars_list (h : es.map Expression.chars = ts.map String.toList) :
    (Expression.list es).chars = ("(" ++ spaced ts ++ ")").toList := by
  rw [Expression.chars, closedChars_eq h]
  simp

theorem chars_application (he : e.chars = t.toList) (hne : ts ≠ [])
    (h : es.map Expression.chars = ts.map String.toList) :
    (Expression.list (e :: es)).chars = ("(" ++ t ++ " " ++ spaced ts ++ ")").toList := by
  have hall : (e :: es).map Expression.chars = (t :: ts).map String.toList := by
    rw [List.map_cons, List.map_cons, he, h]
  obtain ⟨t', ts, rfl⟩ := List.exists_cons_of_ne_nil hne
  rw [chars_list hall, spaced_cons_cons]
  simp

theorem printable_list (h : ∀ e ∈ es, e.Printable) : (Expression.list es).Printable := by
  rw [Expression.Printable]
  induction es with
  | nil => trivial
  | cons e es ih =>
    rw [List.forall_mem_cons] at h
    exact ⟨h.1, ih h.2⟩

end Texts

section Individuals

namespace Binder

def expression (b : Binder) : Expression := .bare b.text

def term (b : Binder) : Smt.Term := .apply b.text []

/-- The surface name is a simple symbol. -/
def Named (b : Binder) : Prop := Smt.isSimpleSymbol b.surface = true

theorem Named.symbol? {b : Binder} (h : b.Named) : b.expression.symbol? = some b.text :=
  symbol?_bare (isSimpleSymbol_binder h).1 (isSimpleSymbol_binder h).2

theorem Named.printable {b : Binder} (h : b.Named) : b.expression.Printable :=
  printable_bare (isSimpleSymbol_binder h).1

end Binder

namespace Individual

def expression : Individual → Expression
  | .named n => symbolExpression n
  | .bound b => b.expression
  | .witness i [] => .bare (witnessName i)
  | .witness i (b :: bs) => .list (.bare (witnessName i) :: b.expression :: bs.map Binder.expression)

def term : Individual → Smt.Term
  | .named n => .apply n []
  | .bound b => b.term
  | .witness i bs => .apply (witnessName i) (bs.map Binder.term)

/-- Every name in it can be written. -/
def Named : Individual → Prop
  | .named n => Nameable n
  | .bound b => b.Named
  | .witness _ bs => ∀ b ∈ bs, b.Named

theorem chars_expression (i : Individual) : i.expression.chars = i.text.toList := by
  cases i with
  | named n => exact chars_symbolExpression n
  | bound b => rfl
  | witness i bs =>
    cases bs with
    | nil => rfl
    | cons b bs =>
      refine chars_application rfl (by simp) ?_
      simp [Binder.expression, Expression.chars]

theorem Named.printable {i : Individual} (h : i.Named) : i.expression.Printable := by
  cases i with
  | named n => exact printable_symbolExpression h
  | bound b => exact Binder.Named.printable h
  | witness i bs =>
    have hname := printable_bare (isSimpleSymbol_witnessName i).1
    cases bs with
    | nil => exact hname
    | cons b bs =>
      refine printable_list fun e he => ?_
      rcases List.mem_cons.mp he with rfl | he
      · exact hname
      · obtain ⟨b', hb', rfl⟩ := List.mem_map.mp (List.map_cons ▸ he)
        exact (h b' hb').printable

end Individual

variable {e f : Expression} {es : List Expression} {w : String}

theorem term?_of_symbol? (h : e.symbol? = some w) : e.term? = some (.apply w []) := by
  cases e with
  | bare v => rw [Expression.term?, h, Option.map_some]; simp
  | quoted v => rw [Expression.term?, h, Option.map_some]; simp
  | list es => exact absurd h (by simp [Expression.symbol?])

theorem terms?_map {α : Type} {expression : α → Expression} {term : α → Smt.Term} {xs : List α}
    (h : ∀ x ∈ xs, (expression x).term? = some (term x)) :
    Expression.terms? (xs.map expression) = some (xs.map term) := by
  induction xs with
  | nil => rfl
  | cons x xs ih =>
    rw [List.forall_mem_cons] at h
    rw [List.map_cons, Expression.terms?, h.1, ih h.2]
    rfl

theorem term?_application {ts : List Smt.Term} (hf : f.symbol? = some w) (hne : es ≠ [])
    (hes : Expression.terms? es = some ts) :
    (Expression.list (f :: es)).term? = some (.apply w ts) := by
  obtain ⟨e, es, rfl⟩ := List.exists_cons_of_ne_nil hne
  rw [Expression.terms?] at hes
  split at hes
  · next t ts' ht hts =>
    obtain rfl := Option.some.inj hes
    rw [Expression.term?, hf, ht, hts]
  · exact absurd hes (by simp)

theorem Binder.Named.term? {b : Binder} (h : b.Named) : b.expression.term? = some b.term :=
  term?_of_symbol? h.symbol?

theorem Individual.Named.term? {i : Individual} (h : i.Named) :
    i.expression.term? = some i.term := by
  cases i with
  | named n => exact term?_of_symbol? (symbol?_symbolExpression h)
  | bound b => exact Binder.Named.term? h
  | witness i bs =>
    obtain ⟨hsimple, hreserved⟩ := isSimpleSymbol_witnessName i
    have hname := symbol?_bare hsimple hreserved
    cases bs with
    | nil => exact term?_of_symbol? hname
    | cons b bs =>
      refine term?_application hname (by simp) ?_
      rw [← List.map_cons]
      exact terms?_map fun b' hb' => (h b' hb').term?

end Individuals

namespace Sentence

def expression (sort : String) : Sentence → Expression
  | .atom n [] => symbolExpression n
  | .atom n (a :: args) =>
    .list (symbolExpression n :: a.expression :: args.map Individual.expression)
  | .neg f => .list [.bare "not", f.expression sort]
  | .binary op l r => .list [.bare (connectiveSymbol op), l.expression sort, r.expression sort]
  | .quantified q b f =>
    .list [.bare (quantifierSymbol q), .list [.list [b.expression, symbolExpression sort]],
      f.expression sort]

def statement (sort : String) : Sentence → Smt.Statement
  | .atom n args => .holds n (args.map Individual.term)
  | .neg f => .neg (f.statement sort)
  | .binary op l r => .binary op (l.statement sort) (r.statement sort)
  | .quantified q b f => .quantified q b.text sort (f.statement sort)

/-- Every name in it can be written. -/
def Named : Sentence → Prop
  | .atom n args => Nameable n ∧ ∀ a ∈ args, a.Named
  | .neg f => f.Named
  | .binary _ l r => l.Named ∧ r.Named
  | .quantified _ b f => b.Named ∧ f.Named

theorem chars_expression (s : Sentence) :
    (s.expression sort).chars = (s.text (symbol sort)).toList := by
  induction s with
  | atom n args =>
    cases args with
    | nil => exact chars_symbolExpression n
    | cons a args =>
      refine chars_application (chars_symbolExpression n) (by simp) ?_
      simp [Individual.chars_expression]
  | neg f ih => simp [expression, text, Expression.chars, Expression.closedChars, ih]
  | binary op l r ihl ihr =>
    simp [expression, text, Expression.chars, Expression.closedChars, ihl, ihr]
  | quantified q b f ih =>
    simp [expression, text, Expression.chars, Expression.closedChars, ih, chars_symbolExpression,
      Binder.expression]

theorem Named.printable {s : Sentence} (h : s.Named) (hsort : Nameable sort) :
    (s.expression sort).Printable := by
  induction s with
  | atom n args =>
    have hname := printable_symbolExpression h.1
    cases args with
    | nil => exact hname
    | cons a args =>
      refine printable_list fun e he => ?_
      rcases List.mem_cons.mp he with rfl | he
      · exact hname
      · obtain ⟨a', ha', rfl⟩ := List.mem_map.mp (List.map_cons ▸ he)
        exact (h.2 a' ha').printable
  | neg f ih =>
    have hnot := printable_bare (s := "not") (by decide)
    exact printable_list (by simp [hnot, ih h])
  | binary op l r ihl ihr =>
    have hop : Smt.isSimpleSymbol (connectiveSymbol op) = true := by cases op <;> decide
    exact ⟨printable_bare hop, ihl h.1, ihr h.2, trivial⟩
  | quantified q b f ih =>
    have hq : Smt.isSimpleSymbol (quantifierSymbol q) = true := by cases q <;> decide
    have hbinder := And.intro h.1.printable (And.intro (printable_symbolExpression hsort) trivial)
    exact ⟨printable_bare hq, ⟨⟨hbinder, trivial⟩, ih h.2, trivial⟩⟩

variable {e f : Expression} {es : List Expression} {w : String}

theorem statement?_of_symbol? (h : e.symbol? = some w) : e.statement? = some (.holds w []) := by
  have hatom : e.atom? = some (.holds w []) := by
    rw [Expression.atom?, term?_of_symbol? h, Option.map_some]
  cases e with
  | bare v => exact hatom
  | quoted v => exact hatom
  | list es => exact absurd h (by simp [Expression.symbol?])

/-- What begins with a symbol of the user is an atom. -/
theorem statement?_application (h : f.symbol? = some w) :
    (Expression.list (f :: es)).statement? = (Expression.list (f :: es)).atom? := by
  have hword : ∀ v, f = .bare v → v ∉ Smt.reserved := by
    rintro v rfl hv
    rw [Expression.symbol?, if_neg fun hc => hc.2 hv] at h
    exact absurd h (by simp)
  have hnone : ∀ v, v ∉ Smt.reserved →
      Expression.quantifier? v = none ∧ Expression.connective? v = none := by
    intro v hv
    unfold Expression.quantifier? Expression.connective?
    refine ⟨?_, ?_⟩ <;> split <;> first | rfl | exact absurd (by decide) hv
  unfold Expression.statement?
  split
  · next heq =>
    obtain ⟨hf, -⟩ := List.cons.inj (Expression.list.inj heq)
    exact absurd (by decide) (hword _ hf)
  · next v l r heq =>
    obtain ⟨hf, -⟩ := List.cons.inj (Expression.list.inj heq)
    obtain ⟨hq, hc⟩ := hnone v (hword v hf)
    simp only [hq, hc, ← heq]
  · rfl

theorem Named.statement? {s : Sentence} (h : s.Named) (hsort : Nameable sort) :
    (s.expression sort).statement? = some (s.statement sort) := by
  induction s with
  | atom n args =>
    have hname := symbol?_symbolExpression h.1
    cases args with
    | nil => exact statement?_of_symbol? hname
    | cons a args =>
      have hargs := terms?_map fun a ha => (h.2 a ha).term?
      have hterm := term?_application hname (by simp) hargs
      rw [expression, statement?_application hname, Expression.atom?]
      rw [List.map_cons] at hterm
      rw [hterm]
      rfl
  | neg f ih =>
    rw [expression, Expression.statement?, ih h]
    rfl
  | binary op l r ihl ihr =>
    cases op <;>
    · rw [expression, connectiveSymbol, Expression.statement?, ihl h.1, ihr h.2]
      rfl
  | quantified q b f ih =>
    have hbinder : (Expression.list [.list [b.expression, symbolExpression sort]]).binder? =
        some (b.text, sort) := by
      rw [Expression.binder?, h.1.symbol?, symbol?_symbolExpression hsort]
    cases q <;>
    · rw [expression, quantifierSymbol, Expression.statement?, hbinder, ih h.2]
      rfl

end Sentence

end DeductionBoard.Query
