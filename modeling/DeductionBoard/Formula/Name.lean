import DeductionBoard.Formula.Basic

/-! Usable names. Predicates, individuals and bound variables carry any text that is not empty and
holds no exclamation mark; that mark is kept for names that an entailment query makes up. -/

namespace DeductionBoard

def reservedMark : Char := '!'

/-- A text that may name a predicate, an individual or a bound variable. -/
def isUsableName (s : String) : Bool := s != "" && !s.toList.contains reservedMark

/-- What a name stands for. -/
inductive NameRole where
  | atom
  | term
  | boundVariable
  deriving DecidableEq

def NameRole.text : NameRole → String
  | .atom => "Atom name"
  | .term => "Term name"
  | .boundVariable => "Quantified variable name"

inductive NameFault where
  | empty (role : NameRole)
  | reserved (role : NameRole) (name : String)
  deriving DecidableEq

def NameFault.message : NameFault → String
  | .empty role => role.text ++ " must be non-empty"
  | .reserved role name =>
    role.text ++ " '" ++ name ++ "' may not contain '" ++ String.singleton reservedMark ++ "'"

def checkName (role : NameRole) (s : String) : Except NameFault Unit :=
  if s = "" then .error (.empty role)
  else if s.toList.contains reservedMark then .error (.reserved role s)
  else .ok ()

theorem checkName_eq_ok_iff {role : NameRole} {s : String} :
    checkName role s = .ok () ↔ isUsableName s = true := by
  unfold checkName isUsableName
  by_cases h : s = ""
  · simp [h]
  · cases s.toList.contains reservedMark <;> simp [h]

namespace Formula

/-- The first name of a list that cannot be used. -/
def checkNames (role : NameRole) : List String → Except NameFault Unit
  | [] => .ok ()
  | s :: r => match checkName role s with
    | .error e => .error e
    | .ok () => checkNames role r

/-- An atom, unless one of its names cannot be used. -/
def mkAtom (name : String) (args : List String) : Except NameFault Formula :=
  match checkName .atom name with
  | .error e => .error e
  | .ok () => match checkNames .term args with
    | .error e => .error e
    | .ok () => .ok (.atom name args)

/-- A quantified formula, unless its variable cannot be used. -/
def mkQuantified (q : Quantifier) (v : String) (f : Formula) : Except NameFault Formula :=
  match checkName .boundVariable v with
  | .error e => .error e
  | .ok () => .ok (.quantified q v f)

/-- Every name of the formula can be used. -/
def WellNamed : Formula → Prop
  | .atom n args => isUsableName n = true ∧ ∀ a ∈ args, isUsableName a = true
  | .neg g => g.WellNamed
  | .binary _ l r => l.WellNamed ∧ r.WellNamed
  | .quantified _ v g => isUsableName v = true ∧ g.WellNamed

/-- Substitution of a text that may be no name: it fails exactly where it would be written. -/
def substituteText (t r : String) (f : Formula) : Except NameFault (Option Formula) :=
  if t ∈ f.freeVars then
    match checkName .term r with
    | .error e => .error e
    | .ok () => .ok (f.substitute t r)
  else .ok (f.substitute t r)

end Formula

end DeductionBoard
