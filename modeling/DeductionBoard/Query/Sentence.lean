import DeductionBoard.Formula.Printer
import DeductionBoard.Query.Symbol

/-! Sentences of the solver language: formulas in which every individual is resolved to a declared
name, to a binder, or to a witness that stands for an existential. Binders and witnesses are numbered
over the whole query, so that equal variables of different quantifiers never meet. -/

namespace DeductionBoard.Query

/-- A bound variable: its surface name and its number. -/
structure Binder where
  surface : String
  index : Nat
  deriving DecidableEq, Repr

inductive Individual where
  | named (name : String)
  | bound (b : Binder)
  | witness (index : Nat) (args : List Binder)
  deriving DecidableEq, Repr

inductive Sentence where
  | atom (name : String) (args : List Individual)
  | neg (body : Sentence)
  | binary (op : Connective) (left right : Sentence)
  | quantified (q : Quantifier) (b : Binder) (body : Sentence)
  deriving DecidableEq, Repr

/-- What the surface names in scope stand for, innermost first. -/
abbrev Scope := List (String × Individual)

def Scope.resolve (scope : Scope) (name : String) : Individual :=
  (List.lookup name scope).getD (.named name)

/-- How many binders a query has so far, and the arities of its witnesses in order. -/
structure Numbering where
  binders : Nat
  witnesses : List Nat
  deriving DecidableEq, Repr

namespace Sentence

/-- The sentence of a formula in a scope; equal variables get different numbers. -/
def resolve (scope : Scope) : Formula → Numbering → Sentence × Numbering
  | .atom n args, k => (.atom n (args.map scope.resolve), k)
  | .neg f, k =>
    let (f, k) := resolve scope f k
    (.neg f, k)
  | .binary op l r, k =>
    let (l, k) := resolve scope l k
    let (r, k) := resolve scope r k
    (.binary op l r, k)
  | .quantified q v f, k =>
    let b : Binder := ⟨v, k.binders + 1⟩
    let (f, k) := resolve ((v, .bound b) :: scope) f ⟨k.binders + 1, k.witnesses⟩
    (.quantified q b f, k)

/-- As `resolve`, with a witness for every existential that is reached through conjunctions,
universals and existentials alone. A witness depends on the universals around it. -/
def skolemize (scope : Scope) (universals : List Binder) : Formula → Numbering → Sentence × Numbering
  | .binary .and l r, k =>
    let (l, k) := skolemize scope universals l k
    let (r, k) := skolemize scope universals r k
    (.binary .and l r, k)
  | .quantified .all v f, k =>
    let b : Binder := ⟨v, k.binders + 1⟩
    let (f, k) := skolemize ((v, .bound b) :: scope) (universals ++ [b]) f
      ⟨k.binders + 1, k.witnesses⟩
    (.quantified .all b f, k)
  | .quantified .exist v f, k =>
    let w : Individual := .witness (k.witnesses.length + 1) universals
    skolemize ((v, w) :: scope) universals f ⟨k.binders, k.witnesses ++ [universals.length]⟩
  | f, k => resolve scope f k

def hasQuantifier : Sentence → Bool
  | .atom _ _ => false
  | .neg f => f.hasQuantifier
  | .binary _ l r => l.hasQuantifier || r.hasQuantifier
  | .quantified _ _ _ => true

end Sentence

def Binder.text (b : Binder) : String := b.surface ++ "!" ++ toString b.index

def witnessName (index : Nat) : String := "sk!" ++ toString index

def spaced (xs : List String) : String := String.intercalate " " xs

def Individual.text : Individual → String
  | .named n => symbol n
  | .bound b => b.text
  | .witness i args =>
    if args.isEmpty then witnessName i
    else "(" ++ witnessName i ++ " " ++ spaced (args.map Binder.text) ++ ")"

def connectiveSymbol : Connective → String
  | .and => "and"
  | .or => "or"
  | .implies => "=>"

def quantifierSymbol : Quantifier → String
  | .all => "forall"
  | .exist => "exists"

/-- The sentence as text; bound variables range over `sort`. -/
def Sentence.text (sort : String) : Sentence → String
  | .atom n args =>
    if args.isEmpty then symbol n
    else "(" ++ symbol n ++ " " ++ spaced (args.map Individual.text) ++ ")"
  | .neg f => "(not " ++ f.text sort ++ ")"
  | .binary op l r => "(" ++ connectiveSymbol op ++ " " ++ l.text sort ++ " " ++ r.text sort ++ ")"
  | .quantified q b f =>
    "(" ++ quantifierSymbol q ++ " ((" ++ b.text ++ " " ++ sort ++ ")) " ++ f.text sort ++ ")"

end DeductionBoard.Query
