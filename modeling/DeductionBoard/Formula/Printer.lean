import DeductionBoard.Formula.Order
import DeductionBoard.Text.Quoted

/-! Formulas as text with as few parentheses as possible. A part is wrapped when it binds more
loosely than its place asks for: `∧` and `∨` group to the left, `→` to the right, and the body of a
quantifier extends as far right as it can. -/

namespace DeductionBoard

open Text

def Connective.sign : Connective → Char
  | .and => '∧'
  | .or => '∨'
  | .implies => '→'

def Quantifier.sign : Quantifier → Char
  | .all => '∀'
  | .exist => '∃'

/-- How tightly a connective binds. -/
def Connective.strength : Connective → Nat
  | .and => 3
  | .or => 2
  | .implies => 1

/-- The strengths that the left and the right operand need to stand without parentheses. -/
def Connective.operandStrengths : Connective → Nat × Nat
  | .and => (3, 4)
  | .or => (2, 3)
  | .implies => (2, 1)

def Connective.word : Connective → String
  | .and => "And"
  | .or => "Or"
  | .implies => "Implies"

def Quantifier.word : Quantifier → String
  | .all => "Forall"
  | .exist => "Exists"

namespace Formula

def strength : Formula → Nat
  | .atom _ _ => 5
  | .neg _ => 4
  | .binary op _ _ => op.strength
  | .quantified _ _ _ => 0

/-- Texts with a comma and a space between them. -/
def commaSeparated : List String → List Char
  | [] => []
  | [a] => a.toList
  | a :: r => a.toList ++ (',' :: ' ' :: commaSeparated r)

def parenthesized (s : List Char) : List Char := '(' :: (s ++ [')'])

/-- The text `s` of a part, wrapped when the part is looser than its place. -/
def wrapped (part place : Nat) (s : List Char) : List Char :=
  if part < place then parenthesized s else s

def atomChars (name : String) (args : List String) : List Char :=
  if args.isEmpty then name.toList else name.toList ++ parenthesized (commaSeparated args)

def chars : Formula → List Char
  | .atom n args => atomChars n args
  | .neg g => '¬' :: wrapped g.strength 4 g.chars
  | .binary op l r =>
    wrapped l.strength op.operandStrengths.1 l.chars ++
      (' ' :: op.sign :: ' ' :: wrapped r.strength op.operandStrengths.2 r.chars)
  | .quantified q v g => q.sign :: (v.toList ++ ('.' :: ' ' :: g.chars))

/-- The formula as text. -/
def pretty (f : Formula) : String := String.ofList f.chars

/-- The tree of the formula as text: every part under the word for its kind. -/
def outline : Formula → String
  | .atom n args => "Atom(" ++ String.ofList (atomChars n args) ++ ")"
  | .neg g => "Not(" ++ g.outline ++ ")"
  | .binary op l r => op.word ++ "(" ++ l.outline ++ ", " ++ r.outline ++ ")"
  | .quantified q v g => q.word ++ "(" ++ quoted v ++ ", " ++ g.outline ++ ")"

/-- The texts of a list of formulas with a comma and a space between them. -/
def prettyList (fs : List Formula) : String := String.ofList (commaSeparated (fs.map pretty))

end Formula

end DeductionBoard
