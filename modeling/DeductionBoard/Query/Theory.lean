import DeductionBoard.Query.Entailment

/-! Theories for a proof assistant: the entailment of a query as a lemma. -/

namespace DeductionBoard.Query

def theoryConnective : Connective → String
  | .and => "\\<and>"
  | .or => "\\<or>"
  | .implies => "\\<longrightarrow>"

def theoryQuantifier : Quantifier → String
  | .all => "\\<forall>"
  | .exist => "\\<exists>"

/-- A formula with all its parentheses; names stand as they are. -/
def theoryFormula : Formula → String
  | .atom n args => if args.isEmpty then n else "(" ++ n ++ " " ++ spaced args ++ ")"
  | .neg f => "(\\<not> " ++ theoryFormula f ++ ")"
  | .binary op l r =>
    "(" ++ theoryFormula l ++ " " ++ theoryConnective op ++ " " ++ theoryFormula r ++ ")"
  | .quantified q v f => "(" ++ theoryQuantifier q ++ v ++ ". " ++ theoryFormula f ++ ")"

/-- A name made of letters, digits and underscores that begins with a letter. -/
def theoryName (name : String) : String :=
  let cs := name.toList.map fun c => if Token.isIdentifierPart c then c else '_'
  let cs := if cs.isEmpty then "proof".toList else cs
  String.ofList (if cs.headD '_' |>.isAlpha then cs else 'p' :: '_' :: cs)

def hypothesisLine (i : Nat) (f : Formula) : String :=
  "  " ++ (if i = 0 then "assumes" else "    and") ++ " h" ++ toString (i + 1) ++ ": \"" ++
    theoryFormula f ++ "\""

def theoryLines (q : Query) (name : String) : List String :=
  ["theory " ++ theoryName name, "  imports Main", "begin", "",
    "lemma " ++ theoryName name ++ ":"] ++
    q.hypotheses.mapIdx hypothesisLine ++
    ["  shows \"" ++ theoryFormula q.conclusion ++ "\"",
     if q.hypotheses.isEmpty then "  by blast" else "  using assms by blast", "", "end"]

def theory (q : Query) (name : String) : String :=
  String.join ((theoryLines q name).map (· ++ "\n"))

end DeductionBoard.Query
