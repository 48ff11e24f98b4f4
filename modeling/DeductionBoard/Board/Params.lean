import DeductionBoard.Formula.Printer
import DeductionBoard.Rule

/-! Side parameters of a piece. Which of them matter depends on the rule: an assumption has its
formula, a disjunction the disjunct that its premise does not give and the side the premise goes to,
a discharging rule its hypothesis, a quantifier its variable and the term that the variable replaces.
Side, variable and term are kept as they were given; the rule checker judges them. -/

namespace DeductionBoard

structure Params where
  formula : Option Formula
  other : Option Formula
  hypothesis : Option Formula
  side : Value
  variableName : Value
  term : Value
  deriving DecidableEq, Repr

/-- A parameter as a caller gives it. -/
inductive ParamValue where
  | formula (f : Option Formula)
  | raw (v : Value)

namespace Params

def leftSide : Value := .text "left"

def rightSide : Value := .text "right"

/-- Parameters of which none is given. -/
def empty : Params := ⟨none, none, none, leftSide, .null, .null⟩

/-- The term that a quantifier abstracts: the variable itself where no term is given. -/
def abstracted (p : Params) : Value := if p.term.holds then p.term else p.variableName

/-- Variable and term are texts or missing. -/
def TextNames (p : Params) : Prop :=
  (p.variableName = .null ∨ ∃ s, p.variableName = .text s) ∧ (p.term = .null ∨ ∃ s, p.term = .text s)

/-- The given parameters under their names. -/
def fields (p : Params) : List (String × Value) :=
  let shown (key : String) (f : Option Formula) : List (String × Value) :=
    match f with
    | some f => [(key, .text f.pretty)]
    | none => []
  let named (key : String) (v : Value) : List (String × Value) :=
    if v = .null then [] else [(key, v)]
  shown "formula" p.formula ++ shown "other" p.other ++ shown "hypothesis" p.hypothesis ++
    (if p.side = leftSide then [] else [("side", p.side)]) ++
    named "variable" p.variableName ++ named "term" p.term

/-- The given parameters in one line. -/
def text (p : Params) : String :=
  String.intercalate ", " (p.fields.map fun f => f.1 ++ "=" ++ f.2.display)

/-- Sets one parameter; there are no others than these six. -/
def set (p : Params) (key : String) (v : ParamValue) : Option Params :=
  match key, v with
  | "formula", .formula f => some { p with formula := f }
  | "other", .formula f => some { p with other := f }
  | "hypothesis", .formula f => some { p with hypothesis := f }
  | "side", .raw v => some { p with side := v }
  | "variable", .raw v => some { p with variableName := v }
  | "term", .raw v => some { p with term := v }
  | _, _ => none

/-- Parameters from names and values, unless a name is not one of theirs. -/
def ofFields (fs : List (String × ParamValue)) : Option Params :=
  fs.foldlM (fun p f => p.set f.1 f.2) empty

end Params

end DeductionBoard
