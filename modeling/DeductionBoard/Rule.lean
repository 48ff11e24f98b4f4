import DeductionBoard.Data.Value

/-! The inference rules that a piece can stand for, and palettes of rules. -/

namespace DeductionBoard

inductive RuleKind where
  | assumption
  | goal
  | andIntro
  | orIntro
  | impliesIntro
  | notIntro
  | forallIntro
  | existsIntro
  deriving DecidableEq, Repr

namespace RuleKind

/-- Every rule, by ascending name. -/
def all : List RuleKind :=
  [.andIntro, .assumption, .existsIntro, .forallIntro, .goal, .impliesIntro, .notIntro, .orIntro]

def name : RuleKind → String
  | .assumption => "assumption"
  | .goal => "goal"
  | .andIntro => "and_intro"
  | .orIntro => "or_intro"
  | .impliesIntro => "implies_intro"
  | .notIntro => "not_intro"
  | .forallIntro => "forall_intro"
  | .existsIntro => "exists_intro"

def label : RuleKind → String
  | .assumption => "ASSUME"
  | .goal => "GOAL"
  | .andIntro => "∧I"
  | .orIntro => "∨I"
  | .impliesIntro => "→I"
  | .notIntro => "¬I"
  | .forallIntro => "∀I"
  | .existsIntro => "∃I"

/-- The number of premise slots. -/
def arity : RuleKind → Nat
  | .assumption => 0
  | .goal => 1
  | .andIntro => 2
  | .orIntro => 1
  | .impliesIntro => 1
  | .notIntro => 2
  | .forallIntro => 1
  | .existsIntro => 1

/-- The rules that close a local hypothesis. -/
def discharges : RuleKind → Bool
  | .impliesIntro | .notIntro => true
  | _ => false

/-- The rules that bind a variable. -/
def binds : RuleKind → Bool
  | .forallIntro | .existsIntro => true
  | _ => false

theorem mem_all (k : RuleKind) : k ∈ all := by cases k <;> decide

/-- The rule of a given name. -/
def ofName? (s : String) : Option RuleKind := all.find? fun k => k.name == s

theorem ofName?_name (k : RuleKind) : ofName? k.name = some k := by cases k <;> decide

/-- A rule as levels write it; any other value is refused as it is. -/
def ofValue (v : Value) : Except Value RuleKind :=
  match v with
  | .text s => match ofName? s with
    | some k => .ok k
    | none => .error v
  | _ => .error v

end RuleKind

/-- The rules on offer, each once and by ascending name. -/
structure Palette where
  kinds : List RuleKind
  deriving DecidableEq, Repr

namespace Palette

/-- The palette of the rules in a list. -/
def ofList (ks : List RuleKind) : Palette := ⟨RuleKind.all.filter fun k => k ∈ ks⟩

def full : Palette := ⟨RuleKind.all⟩

def contains (p : Palette) (k : RuleKind) : Bool := k ∈ p.kinds

theorem contains_ofList (ks : List RuleKind) (k : RuleKind) :
    (ofList ks).contains k = true ↔ k ∈ ks := by
  simp [contains, ofList, RuleKind.mem_all k]

end Palette

end DeductionBoard
