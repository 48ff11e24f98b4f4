import DeductionBoard.Formula.Token

/-! Symbols of the solver language. A name is written bare when it is a simple word and not reserved,
and between bars otherwise. -/

namespace DeductionBoard.Query

/-- The words that name something else when they stand bare. -/
def reservedWords : List String :=
  ["and", "or", "not", "xor", "true", "false", "ite", "distinct", "let", "forall", "exists",
   "match", "par", "as", "assert", "check-sat", "declare-const", "declare-fun", "declare-sort",
   "define-fun", "Bool", "Int", "Real", "NUMERAL", "DECIMAL", "STRING", "BINARY", "HEXADECIMAL"]

/-- A letter or underscore, then letters, digits and underscores. -/
def isWord : List Char → Bool
  | [] => false
  | c :: r => Token.isIdentifierStart c && r.all Token.isIdentifierPart

/-- The text without one line feed at its end. -/
def withoutLineFeed (s : List Char) : List Char :=
  if s.getLast? = some '\n' then s.dropLast else s

/-- A word, possibly with one line feed after it. -/
def isSimple (s : String) : Bool := isWord (withoutLineFeed s.toList)

/-- How a name is written. -/
def symbol (name : String) : String :=
  if name ∈ reservedWords ∨ isSimple name = false then "|" ++ name ++ "|" else name

end DeductionBoard.Query
