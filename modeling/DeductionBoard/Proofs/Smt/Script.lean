import DeductionBoard.Proofs.Data.Steps
import DeductionBoard.Proofs.Formula.Semantics
import DeductionBoard.Proofs.Smt.Expression

/-! Scripts of the solver language, read from their expressions: the fragment with at most one sort
of individuals, predicates over it, and assertions made of connectives and quantifiers. A script is
well-sorted when each symbol is declared once, before it is used, and is used as declared; it is
satisfiable when some interpretation of the symbols makes every assertion true. -/

namespace DeductionBoard.Smt

universe u

/-- The words that are no symbols of the user when they stand bare: those of the syntax, and those
that the core theory gives a meaning to. -/
def reserved : List String :=
  ["_", "!", "as", "exists", "forall", "let", "match", "par", "BINARY", "DECIMAL", "HEXADECIMAL",
    "NUMERAL", "STRING", "Bool", "true", "false", "not", "and", "or", "xor", "=>", "=", "distinct",
    "ite"]

/-- A word that can be a symbol: characters of words, the first one no digit. -/
def isSimpleSymbol (w : String) : Bool :=
  w.toList.all isWordChar && w.toList.head?.any fun c => !c.isDigit

/-- What a symbol yields: a truth value, or an individual of a sort. -/
inductive Range where
  | truth
  | individual (sort : String)
  deriving DecidableEq, Repr

/-- The sorts of the arguments of a symbol, and its range. -/
structure Rank where
  arguments : List String
  range : Range
  deriving DecidableEq, Repr

inductive Term where
  | apply (symbol : String) (args : List Term)
  deriving Repr

inductive Statement where
  | holds (symbol : String) (args : List Term)
  | neg (body : Statement)
  | binary (op : Connective) (left right : Statement)
  | quantified (q : Quantifier) (var sort : String) (body : Statement)
  deriving Repr

inductive Command where
  | setLogic (name : String)
  | declareSort (name : String)
  | declare (symbol : String) (rank : Rank)
  | assert (s : Statement)
  | checkSat
  deriving Repr

inductive Entry where
  | command (c : Command)
  | comment (text : String)
  deriving Repr

abbrev Script := List Entry

namespace Expression

/-- The symbol of the user that the expression is. -/
def symbol? : Expression → Option String
  | .bare w => if isSimpleSymbol w = true ∧ w ∉ reserved then some w else none
  | .quoted w => some w
  | .list _ => none

def range? : Expression → Option Range
  | .bare "Bool" => some .truth
  | e => e.symbol?.map .individual

mutual

def term? : Expression → Option Term
  | .list (f :: a :: args) =>
    match f.symbol?, a.term?, terms? args with
    | some f, some t, some ts => some (.apply f (t :: ts))
    | _, _, _ => none
  | e => e.symbol?.map (.apply · [])

def terms? : List Expression → Option (List Term)
  | [] => some []
  | e :: es =>
    match e.term?, terms? es with
    | some t, some ts => some (t :: ts)
    | _, _ => none

end

/-- An atom is written like a term. -/
def atom? (e : Expression) : Option Statement :=
  e.term?.map fun | .apply p ts => .holds p ts

def connective? : String → Option Connective
  | "and" => some .and
  | "or" => some .or
  | "=>" => some .implies
  | _ => none

def quantifier? : String → Option Quantifier
  | "forall" => some .all
  | "exists" => some .exist
  | _ => none

/-- The bound variable and its sort. -/
def binder? : Expression → Option (String × String)
  | .list [.list [x, s]] =>
    match x.symbol?, s.symbol? with
    | some x, some s => some (x, s)
    | _, _ => none
  | _ => none

def statement? : Expression → Option Statement
  | .list [.bare "not", f] => f.statement?.map .neg
  | e@(.list [.bare w, l, r]) =>
    match quantifier? w, connective? w with
    | some q, _ =>
      match l.binder?, r.statement? with
      | some (x, s), some f => some (.quantified q x s f)
      | _, _ => none
    | none, some op =>
      match l.statement?, r.statement? with
      | some l, some r => some (.binary op l r)
      | _, _ => none
    | none, none => e.atom?
  | e => e.atom?

def command? : Expression → Option Command
  | .list [.bare "set-logic", .bare l] => some (.setLogic l)
  | .list [.bare "declare-sort", s, .bare "0"] => s.symbol?.map .declareSort
  | .list [.bare "declare-const", f, r] =>
    match f.symbol?, r.range? with
    | some f, some r => some (.declare f ⟨[], r⟩)
    | _, _ => none
  | .list [.bare "declare-fun", f, .list ss, r] =>
    match f.symbol?, ss.mapM symbol?, r.range? with
    | some f, some ss, some r => some (.declare f ⟨ss, r⟩)
    | _, _, _ => none
  | .list [.bare "assert", f] => f.statement?.map .assert
  | .list [.bare "check-sat"] => some .checkSat
  | _ => none

end Expression

def Item.entry? : Item → Option Entry
  | .expression e => e.command?.map .command
  | .comment t => some (.comment t)

/-- The script that a text is. -/
def read (text : String) : Option Script := (items text).bind fun is => is.mapM Item.entry?

/-- The characters are whole entries, one after the other. -/
def Reads (cs : List Char) (s : Script) : Prop :=
  ∃ is, Spells cs is ∧ is.map Item.entry? = s.map some

namespace Reads

variable {cs ds : List Char} {s t : Script}

theorem nil : Reads [] [] := ⟨[], .nil, rfl⟩

theorem append (h : Reads cs s) (h' : Reads ds t) : Reads (cs ++ ds) (s ++ t) := by
  obtain ⟨is, hspells, hentries⟩ := h
  obtain ⟨js, hspells', hentries'⟩ := h'
  refine ⟨is ++ js, hspells.append hspells', ?_⟩
  rw [List.map_append, hentries, hentries', List.map_append]

theorem flatMap {α : Type} {xs : List α} {chars : α → List Char} {entries : α → Script}
    (h : ∀ x ∈ xs, Reads (chars x) (entries x)) : Reads (xs.flatMap chars) (xs.flatMap entries) := by
  induction xs with
  | nil => exact .nil
  | cons x xs ih =>
    rw [List.forall_mem_cons] at h
    exact h.1.append (ih h.2)

/-- A command with a blank behind it. -/
theorem command {e : Expression} {c : Command} (h : e.Printable) (hc : e.command? = some c)
    {b : Char} (hb : isBlank b = true) : Reads (e.chars ++ [b]) [.command c] := by
  refine ⟨[.expression e], .expression h hb, ?_⟩
  rw [List.map_singleton, Item.entry?, hc]
  rfl

theorem comment {text : String} (h : ∀ c ∈ text.toList, isLineBreak c = false) :
    Reads (';' :: (text.toList ++ ['\n'])) [.comment text] :=
  ⟨[.comment text], .comment h, rfl⟩

theorem read_eq {text : String} (h : Reads text.toList s) : read text = some s := by
  obtain ⟨is, hspells, hentries⟩ := h
  rw [read, hspells.items_eq, Option.bind_some, mapM_eq_some_iff.mpr hentries]

end Reads

namespace Script

def commands : Script → List Command
  | [] => []
  | .command c :: s => c :: commands s
  | .comment _ :: s => commands s

/-- The assertions, each with the comment right behind it. -/
def labelled : Script → List (Statement × Option String)
  | [] => []
  | .command (.assert f) :: .comment t :: s => (f, some t) :: labelled s
  | .command (.assert f) :: s => (f, none) :: labelled s
  | _ :: s => labelled s

variable {s t : Script}

theorem commands_append (s t : Script) : commands (s ++ t) = commands s ++ commands t := by
  induction s with
  | nil => rfl
  | cons e s ih =>
    cases e with
    | command c => exact congrArg (c :: ·) ih
    | comment _ => exact ih

/-- What asserts nothing has no part in the assertions. -/
theorem labelled_append (h : ∀ f, Entry.command (.assert f) ∉ s) :
    labelled (s ++ t) = labelled t := by
  induction s with
  | nil => rfl
  | cons e s ih =>
    have hs := ih fun f hf => h f (List.mem_cons_of_mem _ hf)
    rw [List.cons_append, labelled, hs]
    · rintro f u r rfl
      exact absurd List.mem_cons_self (h f)
    · rintro f rfl
      exact absurd List.mem_cons_self (h f)

def assertions (s : Script) : List Statement := s.labelled.map (·.1)

/-- The comment of each assertion. -/
def labels (s : Script) : List (Option String) := s.labelled.map (·.2)

end Script

/-- The sort that is declared, and the ranks of the symbols in scope, innermost first. -/
structure Context where
  sort : Option String
  ranks : List (String × Rank)

namespace Context

def rank? (c : Context) (symbol : String) : Option Rank := List.lookup symbol c.ranks

/-- Under a quantifier. -/
def bind (c : Context) (x sort : String) : Context :=
  ⟨c.sort, (x, ⟨[], .individual sort⟩) :: c.ranks⟩

def after (c : Context) : Command → Context
  | .declareSort s => ⟨some s, c.ranks⟩
  | .declare f r => ⟨c.sort, (f, r) :: c.ranks⟩
  | _ => c

end Context

mutual

/-- The term has a sort in a context. -/
def Term.HasSort (c : Context) : Term → String → Prop
  | .apply f args, s => ∃ ss, c.rank? f = some ⟨ss, .individual s⟩ ∧ HaveSorts c args ss

def HaveSorts (c : Context) : List Term → List String → Prop
  | [], [] => True
  | t :: ts, s :: ss => t.HasSort c s ∧ HaveSorts c ts ss
  | _, _ => False

end

def Statement.WellSorted (c : Context) : Statement → Prop
  | .holds p args => ∃ ss, c.rank? p = some ⟨ss, .truth⟩ ∧ HaveSorts c args ss
  | .neg f => f.WellSorted c
  | .binary _ l r => l.WellSorted c ∧ r.WellSorted c
  | .quantified _ x s f => c.sort = some s ∧ f.WellSorted (c.bind x s)

/-- What a command asks of the commands before it. A script has one sort at most. -/
def Command.Admissible (c : Context) : Command → Prop
  | .declareSort _ => c.sort = none
  | .declare f r =>
    c.rank? f = none ∧ (∀ s ∈ r.arguments, c.sort = some s) ∧
      ∀ s, r.range = .individual s → c.sort = some s
  | .assert f => f.WellSorted c
  | .setLogic _ => True
  | .checkSat => True

/-- Every command is admissible behind those before it. -/
def AllAdmissible (c : Context) : List Command → Prop
  | [] => True
  | d :: ds => d.Admissible c ∧ AllAdmissible (c.after d) ds

/-- The context behind a list of commands. -/
def Context.afterAll (c : Context) (ds : List Command) : Context := ds.foldl after c

theorem allAdmissible_append {c : Context} {ds es : List Command} :
    AllAdmissible c (ds ++ es) ↔ AllAdmissible c ds ∧ AllAdmissible (c.afterAll ds) es := by
  induction ds generalizing c with
  | nil => exact (and_iff_right trivial).symm
  | cons d ds ih =>
    rw [List.cons_append, AllAdmissible, AllAdmissible, ih, and_assoc]
    rfl

def Script.WellSorted (s : Script) : Prop := AllAdmissible ⟨none, []⟩ s.commands

/-- Values for the symbols over a domain of individuals. A constant has a value, so the domain is
not empty. -/
structure Interpretation (D : Type u) where
  value : String → List D → D
  holds : String → List D → Prop

namespace Interpretation

variable {D : Type u}

def constant (I : Interpretation D) (symbol : String) : D := I.value symbol []

mutual

/-- The value of a term, where `ρ` gives the values of symbols without arguments. -/
def eval (I : Interpretation D) (ρ : String → D) : Term → D
  | .apply f [] => ρ f
  | .apply f (t :: ts) => I.value f (I.eval ρ t :: I.evals ρ ts)

def evals (I : Interpretation D) (ρ : String → D) : List Term → List D
  | [] => []
  | t :: ts => I.eval ρ t :: I.evals ρ ts

end

/-- The truth of a statement; a quantifier gives its variable every value in turn. -/
def Satisfies (I : Interpretation D) : Statement → (String → D) → Prop
  | .holds p args, ρ => I.holds p (I.evals ρ args)
  | .neg f, ρ => ¬ I.Satisfies f ρ
  | .binary op l r, ρ => op.Joins (I.Satisfies l ρ) (I.Satisfies r ρ)
  | .quantified q x _ f, ρ => q.Ranges fun d => I.Satisfies f (Function.update ρ x d)

end Interpretation

/-- Some interpretation makes every assertion true. -/
def Script.Satisfiable (s : Script) : Prop :=
  ∃ (D : Type u) (I : Interpretation D), ∀ f ∈ s.assertions, I.Satisfies f I.constant

end DeductionBoard.Smt
