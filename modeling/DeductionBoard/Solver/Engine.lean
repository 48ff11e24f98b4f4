import DeductionBoard.Data.Ascending
import DeductionBoard.Solver.Dialogue

/-! Engines inside the program. Every assertion goes to the engine under a mark and its label, so that
a core comes back as marked labels, and a model may speak of marked names beside those of the query. -/

namespace DeductionBoard.Solver.Engine

/-- What an engine comes to. -/
inductive Outcome where
  /-- The engine does not take the text. -/
  | rejected (message : String)
  | unsatisfiable (core : List String)
  | satisfiable (model : List (String × String))
  | undecided (reason : String)
  deriving DecidableEq, Repr

def mark : String := "track!"

def rejectionMessage (message : String) : String := "Z3 rejected the query: " ++ message

/-- The label that a name marks. -/
def label? (name : String) : Option String :=
  if mark.toList <+: name.toList then some (String.ofList (name.toList.drop mark.length)) else none

def mentions (reason word : String) : Bool := (reason.splitOn word).length ≠ 1

/-- Why nothing was found out. An engine that was cancelled may give any reason. -/
def undecidedStatus (cancelled : Bool) (reason : String) : Status :=
  if cancelled || mentions reason "cancel" then .cancelled
  else if mentions reason "timeout" then .timeout
  else .unknown

/-- The labels in a core, by ascending label. -/
def core (names : List String) : List String :=
  (names.filterMap label?).mergeSort fun l l' => ¬ l' < l

/-- The values of the names of the query, by ascending name. -/
def model (entries : List (String × String)) : Model :=
  (Model.ofList (entries.filter fun e => (label? e.1).isNone)).mergeSort fun e e' => ¬ e'.1 < e.1

/-- The answer of an engine, which may have been cancelled on the way. -/
def answer (name : String) (cancelled : Bool) : Outcome → Answer
  | .rejected t => Answer.plain name .error (rejectionMessage t)
  | .unsatisfiable names => { Answer.plain name .unsat "" with core := core names }
  | .satisfiable entries => { Answer.plain name .sat "" with model := model entries }
  | .undecided reason => Answer.plain name (undecidedStatus cancelled reason) reason

/-- Only a proof of it makes a query count as unsatisfiable. -/
theorem status_answer_eq_unsat_iff {name : String} {cancelled : Bool} {o : Outcome} :
    (answer name cancelled o).status = .unsat ↔ ∃ names, o = .unsatisfiable names := by
  cases o with
  | undecided reason =>
    have hne : undecidedStatus cancelled reason ≠ .unsat := by
      unfold undecidedStatus
      repeat' split
      all_goals simp
    simpa [answer, Answer.plain] using hne
  | _ => simp [answer, Answer.plain]

end DeductionBoard.Solver.Engine
