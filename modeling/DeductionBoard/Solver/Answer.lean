import DeductionBoard.Number.Binary64

/-! What a solver answers to a query: a status, a model of the assertions or the labels of the ones
that contradict each other, and the reason why there is neither. -/

namespace DeductionBoard.Solver

open Number

inductive Status where
  | sat
  | unsat
  | unknown
  | timeout
  | cancelled
  | error
  deriving DecidableEq, Repr

namespace Status

def name : Status → String
  | .sat => "sat"
  | .unsat => "unsat"
  | .unknown => "unknown"
  | .timeout => "timeout"
  | .cancelled => "cancelled"
  | .error => "error"

def all : List Status := [.sat, .unsat, .unknown, .timeout, .cancelled, .error]

def ofName? (s : String) : Option Status := all.find? fun k => k.name == s

/-- The query is decided. -/
def isDefinitive : Status → Bool
  | .sat | .unsat => true
  | _ => false

end Status

/-- The values of the symbols of a query, in order; a name has one value. -/
abbrev Model := List (String × String)

/-- Sets the value of a name where it stands, or adds it at the end. -/
def Model.set (m : Model) (name value : String) : Model :=
  match m with
  | [] => [(name, value)]
  | (n, v) :: r => if n = name then (n, value) :: r else (n, v) :: Model.set r name value

def Model.ofList (entries : List (String × String)) : Model :=
  entries.foldl (fun m e => m.set e.1 e.2) []

/-- The values in one line. -/
def Model.text (m : Model) : String :=
  if m.isEmpty then "any interpretation"
  else String.intercalate ", " (m.map fun e => e.1 ++ " = " ++ e.2)

structure Answer where
  status : Status
  model : Model
  core : List String
  reason : String
  /-- The time it took, in milliseconds. -/
  elapsed : Binary64
  solver : String
  deriving DecidableEq, Repr

namespace Answer

/-- An answer that took no time and has neither model nor core. -/
def plain (solver : String) (status : Status) (reason : String) : Answer :=
  ⟨status, [], [], reason, .zero, solver⟩

/-- A failure of the solver is an answer too. -/
def ofFailure (solver kind text : String) : Answer :=
  plain solver .error (kind ++ ": " ++ text)

/-- The reason, or the status where no reason is given. -/
def explanation (a : Answer) : String := if a.reason = "" then a.status.name else a.reason

end Answer

end DeductionBoard.Solver
