import DeductionBoard.Formula.Printer
import DeductionBoard.Formula.Token

/-! Formulas from text. An implication is a disjunction, or one followed by an arrow and an
implication; disjunctions and conjunctions are chains that group to the left; a negation or a
quantifier takes what follows it; the rest are atoms and formulas in parentheses. Every function
returns the tokens that it leaves, and these are fewer than it was given. -/

namespace DeductionBoard

open Text

/-- What the notation asks for at some place. -/
inductive Expected where
  | formula
  | boundVariable
  | dot
  | closing
  | term
  | closingArguments
  deriving DecidableEq, Repr

def Expected.text : Expected → String
  | .formula => "formula"
  | .boundVariable => "bound variable"
  | .dot => "'.' after bound variable"
  | .closing => "')'"
  | .term => "term name"
  | .closingArguments => "')' closing argument list"

/-- What is wrong with a text that is no formula. -/
inductive SyntaxFault where
  | empty
  | unexpectedCharacter
  | expected (what : Expected) (found : String)
  | trailing (found : String)
  deriving DecidableEq, Repr

def SyntaxFault.message : SyntaxFault → String
  | .empty => "Empty formula"
  | .unexpectedCharacter => "Unexpected character"
  | .expected what found => "Expected " ++ what.text ++ ", found " ++ quoted found
  | .trailing found => "Unexpected trailing " ++ quoted found

/-- A fault, the text it is in and the position in that text. -/
structure SyntaxError where
  fault : SyntaxFault
  text : String
  position : Nat
  deriving DecidableEq, Repr

def SyntaxError.message (e : SyntaxError) : String :=
  e.fault.message ++ " at position " ++ toString e.position ++ " in " ++ quoted e.text

namespace Parser

/-- A fault at the token where reading stopped. -/
structure Stop where
  fault : SyntaxFault
  position : Nat
  deriving DecidableEq, Repr

/-- A result, and tokens that are fewer than `ts`. -/
abbrev Step (α : Type) (ts : List Token) :=
  Except Stop (α × { rest : List Token // rest.length < ts.length })

/-- Stops at the next token. -/
def unexpected (what : Expected) : List Token → Stop
  | [] => ⟨.expected what "", 0⟩
  | t :: _ => ⟨.expected what t.text, t.position⟩

/-- Takes a token of one kind. -/
def take (k : Token.Kind) (what : Expected) (ts : List Token) : Step Token ts :=
  match ts with
  | [] => .error (unexpected what [])
  | t :: r => if t.kind = k then .ok (t, ⟨r, by simp⟩) else .error (unexpected what (t :: r))

/-- The names of an argument list after its opening parenthesis, up to the closing one. -/
def arguments (ts : List Token) : Step (List String) ts :=
  match take .identifier .term ts with
  | .error e => .error e
  | .ok (a, ⟨[], _⟩) => .error (unexpected .closingArguments [])
  | .ok (a, ⟨t :: r, h⟩) =>
    if t.kind = .comma then
      match arguments r with
      | .error e => .error e
      | .ok (as, ⟨r', h'⟩) => .ok (a.text :: as, ⟨r', by simp at h; omega⟩)
    else
      match take .closing .closingArguments (t :: r) with
      | .error e => .error e
      | .ok (_, ⟨r', h'⟩) => .ok ([a.text], ⟨r', by omega⟩)
termination_by ts.length
decreasing_by simp at h; omega

/-- An atom whose name has been read. -/
def atom (name : String) (ts : List Token) :
    Except Stop (Formula × { rest : List Token // rest.length ≤ ts.length }) :=
  match ts with
  | [] => .ok (.atom name [], ⟨[], by simp⟩)
  | t :: r =>
    if t.kind = .opening then
      match arguments r with
      | .error e => .error e
      | .ok (as, ⟨r', h⟩) => .ok (.atom name as, ⟨r', by simp; omega⟩)
    else .ok (.atom name [], ⟨t :: r, by simp⟩)

/-- The layers of the grammar, loosest first. -/
inductive Layer where
  | implication
  | disjunction
  | conjunction
  | unary
  deriving DecidableEq

def Layer.rank : Layer → Nat
  | .implication => 4
  | .disjunction => 3
  | .conjunction => 2
  | .unary => 1

theorem Layer.rank_le (l : Layer) : l.rank ≤ 4 := by
  cases l <;> decide

/-- The two connectives that form chains. -/
inductive Chain where
  | and
  | or
  deriving DecidableEq

def Chain.connective : Chain → Connective
  | .and => .and
  | .or => .or

def Chain.token : Chain → Token.Kind
  | .and => .and
  | .or => .or

/-- The layer of the operands of a chain. -/
def Chain.operand : Chain → Layer
  | .and => .unary
  | .or => .conjunction

mutual
/-- A formula of one layer. -/
def layer (l : Layer) (ts : List Token) : Step Formula ts :=
  match l with
  | .implication =>
    match layer .disjunction ts with
    | .error e => .error e
    | .ok (f, ⟨[], h⟩) => .ok (f, ⟨[], h⟩)
    | .ok (f, ⟨t :: r, h⟩) =>
      if t.kind = .arrow then
        match layer .implication r with
        | .error e => .error e
        | .ok (g, ⟨r', h'⟩) => .ok (.imp f g, ⟨r', by simp at h; omega⟩)
      else .ok (f, ⟨t :: r, h⟩)
  | .disjunction =>
    match layer .conjunction ts with
    | .error e => .error e
    | .ok (f, ⟨r, h⟩) =>
      match chain .or f r with
      | .error e => .error e
      | .ok (g, ⟨r', h'⟩) => .ok (g, ⟨r', by omega⟩)
  | .conjunction =>
    match layer .unary ts with
    | .error e => .error e
    | .ok (f, ⟨r, h⟩) =>
      match chain .and f r with
      | .error e => .error e
      | .ok (g, ⟨r', h'⟩) => .ok (g, ⟨r', by omega⟩)
  | .unary =>
    match ts with
    | [] => .error (unexpected .formula [])
    | t :: r =>
      match t.kind with
      | .not =>
        match layer .unary r with
        | .error e => .error e
        | .ok (f, ⟨r', h⟩) => .ok (.neg f, ⟨r', by simp; omega⟩)
      | .all => quantified .all (t :: r) r (by simp)
      | .exist => quantified .exist (t :: r) r (by simp)
      | .opening =>
        match layer .implication r with
        | .error e => .error e
        | .ok (f, ⟨r', h⟩) =>
          match take .closing .closing r' with
          | .error e => .error e
          | .ok (_, ⟨more, h'⟩) => .ok (f, ⟨more, by simp; omega⟩)
      | .identifier =>
        match atom t.text r with
        | .error e => .error e
        | .ok (f, ⟨r', h⟩) => .ok (f, ⟨r', by simp; omega⟩)
      | _ => .error (unexpected .formula (t :: r))
termination_by 5 * ts.length + l.rank
decreasing_by all_goals (simp only [Layer.rank, List.length_cons] at *; omega)
/-- The variable, the dot and the body after a quantifier; `ts` begins with the quantifier. -/
def quantified (q : Quantifier) (ts r : List Token) (hr : r.length < ts.length) : Step Formula ts :=
  match take .identifier .boundVariable r with
  | .error e => .error e
  | .ok (v, ⟨r', h⟩) =>
    match take .dot .dot r' with
    | .error e => .error e
    | .ok (_, ⟨more, h'⟩) =>
      match layer .implication more with
      | .error e => .error e
      | .ok (f, ⟨out, hm⟩) => .ok (.quantified q v.text f, ⟨out, by omega⟩)
termination_by 5 * ts.length
decreasing_by simp only [Layer.rank]; omega
/-- The operands that follow `f` in a chain. -/
def chain (c : Chain) (f : Formula) (ts : List Token) :
    Except Stop (Formula × { rest : List Token // rest.length ≤ ts.length }) :=
  match ts with
  | [] => .ok (f, ⟨[], by simp⟩)
  | t :: r =>
    if t.kind = c.token then
      match layer c.operand r with
      | .error e => .error e
      | .ok (g, ⟨r', h⟩) =>
        match chain c (.binary c.connective f g) r' with
        | .error e => .error e
        | .ok (k, ⟨more, h'⟩) => .ok (k, ⟨more, by simp; omega⟩)
    else .ok (f, ⟨t :: r, by simp⟩)
termination_by 5 * ts.length
decreasing_by
  · have := c.operand.rank_le
    simp only [List.length_cons]
    omega
  · simp only [List.length_cons]
    omega
end

/-- The formula that a whole list of tokens denotes; the last token marks the end. -/
def formula (ts : List Token) : Except Stop Formula :=
  match layer .implication ts with
  | .error e => .error e
  | .ok (f, ⟨[], _⟩) => .ok f
  | .ok (f, ⟨t :: _, _⟩) =>
    if t.kind = .endOfText then .ok f else .error ⟨.trailing t.text, t.position⟩

end Parser

/-- The formula that a text denotes. -/
def Formula.parse (s : String) : Except SyntaxError Formula :=
  let cs := s.toList
  if (trim cs).isEmpty then .error ⟨.empty, s, 0⟩
  else
    match Token.scan cs with
    | .error position => .error ⟨.unexpectedCharacter, s, position⟩
    | .ok ts =>
      match Parser.formula ts with
      | .error e => .error ⟨e.fault, s, e.position⟩
      | .ok f => .ok f

end DeductionBoard
