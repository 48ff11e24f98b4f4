import DeductionBoard.Derivation.Report
import DeductionBoard.Query.Theory

/-! The entailment query of a derived goal: its open assumptions as hypotheses, labelled by the
pieces they stand on. -/

namespace DeductionBoard

namespace Report

def entailment (r : Report) (c : Derivation.Conclusion) (title : Option String) : Query.Entailment :=
  { hypotheses := r.hypotheses.map fun h => ⟨h.2, "hyp_" ++ toString h.1, some h.1⟩
    goal := c.formula
    goalSource := r.goal
    title := match title with
      | some t => if t = "" then "proof rev " ++ toString r.revision else t
      | none => "proof rev " ++ toString r.revision }

/-- The query of the goal, which has to be derived. -/
def query (r : Report) (o : Query.Options) (title : Option String) : Except Query.Fault Query :=
  match r.goalConclusion with
  | none => .error (.goalNotDerived r.goal)
  | some c => (r.entailment c title).query o

/-- The query of the goal under settings, which are looked at once the goal is derived. -/
def queryUnder (r : Report) (s : EncoderSettings) (title : Option String) :
    Except Query.Fault Query :=
  match r.goalConclusion with
  | none => .error (.goalNotDerived r.goal)
  | some _ => match s.options with
    | .error f => .error f
    | .ok o => r.query o title

end Report

end DeductionBoard
