import DeductionBoard.Level.Storage

/-! The built-in levels, as stored values. They are read like every other level. -/

namespace DeductionBoard

namespace Tutorial

def texts (xs : List String) : Value := .list (xs.map .text)

def placed (kind : String) (x y : Int) (params : List (String × Value)) : Value :=
  .object ([("kind", .text kind), ("position", .list [.int x, .int y])] ++
    if params.isEmpty then [] else [("params", .object params)])

def assumed (formula : String) (x y : Int) : Value :=
  placed "assumption" x y [("formula", .text formula)]

def goal (x y : Int) : Value := placed "goal" x y []

def level (id name description target : String) (premises rules : List String)
    (pieces : List Value) : String × Value :=
  (id, .object [("id", .text id), ("name", .text name), ("description", .text description),
    ("target", .text target), ("premises", texts premises), ("available_rules", texts rules),
    ("pieces", .list pieces)])

/-- The levels in order, each under its id. -/
def levels : List (String × Value) :=
  [level "tutorial-1" "First Steps" "Place an AND piece to join P and Q, then feed it to the goal"
     "P & Q" ["P", "Q"] ["assumption", "and_intro"]
     [assumed "P" 2 5, assumed "Q" 2 3, goal 8 4],
   level "tutorial-2" "Either Way" "Use OR introduction to prove A ∨ B from A"
     "A | B" ["A"] ["assumption", "or_intro"]
     [assumed "A" 2 5, goal 8 5],
   level "tutorial-3" "Conjunction Junction" "Combine X, Y and Z using two AND pieces"
     "(X & Y) & Z" ["X", "Y", "Z"] ["assumption", "and_intro"]
     [assumed "X" 1 7, assumed "Y" 1 5, assumed "Z" 1 3, goal 9 5],
   level "tutorial-4" "Chain of Logic" "Assume A for a moment: then A ∧ B holds, so A → (A ∧ B)"
     "A -> (A & B)" ["B"] ["assumption", "and_intro", "implies_intro"]
     [assumed "B" 1 4, goal 9 5],
   level "tutorial-5" "Someone Did It" "From a concrete witness, introduce an existential"
     "exists x. Guilty(x)" ["Guilty(butler)"] ["assumption", "exists_intro"]
     [goal 8 5],
   level "tutorial-6" "For All Of Them" "Prove P(x) → P(x) for an arbitrary x, then generalise"
     "forall x. P(x) -> P(x)" [] ["assumption", "implies_intro", "forall_intro"]
     [goal 9 5]]

def ids : List String := levels.map (·.1)

/-- The built-in level of an id. -/
def find (id : String) : Except LevelFault Draft :=
  match List.lookup id levels with
  | some v => Level.read v
  | none => .error (.unknownTutorial id ids)

def all : Except LevelFault (List Draft) := levels.mapM fun l => Level.read l.2

end Tutorial

end DeductionBoard
