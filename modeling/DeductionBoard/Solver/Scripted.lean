import DeductionBoard.Solver.Dialogue

/-! A solver that answers from a list. When the list is used up, every query is unsatisfiable. -/

namespace DeductionBoard.Solver.Scripted

/-- One prepared answer, or a failure of the solver. -/
inductive Reply where
  | answer (a : Answer)
  | failure (kind text : String)
  /-- An answer whose status is none. -/
  | unknownStatus (v : Value)

/-- The replies that are left, and the queries so far. -/
structure State where
  replies : List Reply
  asked : List (Query × Value)

def solverName : String := "scripted"

def unknownStatusMessage (v : Value) : String := v.shown ++ " is not a valid SolverStatus"

def Reply.toAnswer : Reply → Answer
  | .answer a => { a with solver := solverName }
  | .failure kind text => Answer.ofFailure solverName kind text
  | .unknownStatus v => Answer.ofFailure solverName "ValueError" (unknownStatusMessage v)

def ofReplies (rs : List Reply) : State := ⟨rs, []⟩

def solve (q : Query) (timeout : Value) (s : State) : Answer × State :=
  match s.replies with
  | [] => (Answer.plain solverName .unsat "", ⟨[], s.asked ++ [(q, timeout)]⟩)
  | r :: rs => (r.toAnswer, ⟨rs, s.asked ++ [(q, timeout)]⟩)

end DeductionBoard.Solver.Scripted
