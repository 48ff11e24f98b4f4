import DeductionBoard.Formula.Parser
import DeductionBoard.Level.Basic

/-! Levels as stored values. Reading goes through the palette, the grid and the pieces first and
through the formulas last, and the first fault counts. What is wrong with the first three is
reported under the name of the level. -/

namespace DeductionBoard

/-- A use that the kind of a value does not allow. -/
inductive Misuse where
  | walk (kind : String)
  | lookup (kind : String)
  | lookupInText
  | lookupInList
  | conversion (kind : String)
  | comparison (kind : String)
  | membership (kind : String)
  | ordering (first second : String)
  deriving DecidableEq, Repr

def Misuse.message : Misuse → String
  | .walk k => "'" ++ k ++ "' object is not iterable"
  | .lookup k => "'" ++ k ++ "' object is not subscriptable"
  | .lookupInText => "string indices must be integers, not 'str'"
  | .lookupInList => "list indices must be integers or slices, not str"
  | .conversion k =>
    "int() argument must be a string, a bytes-like object or a real number, not '" ++ k ++ "'"
  | .comparison k => "'<=' not supported between instances of '" ++ k ++ "' and 'int'"
  | .membership k => "unhashable type: '" ++ k ++ "'"
  | .ordering k l => "'<' not supported between instances of '" ++ k ++ "' and '" ++ l ++ "'"

/-- What is malformed in the palette, the grid or the pieces of a level. -/
inductive Malformation where
  | unknownRule (v : Value)
  | missingKey (key : Value)
  | numeral (s : String) (f : Text.NumeralFault)
  | undefinedNumber
  | dimensions
  | limit
  | misuse (m : Misuse)
  deriving DecidableEq, Repr

/-- How much of a bad numeral a message shows. -/
def numeralLength : Nat := 200

def numeralMessage (s : String) : Text.NumeralFault → String
  | .malformed =>
    "invalid literal for int() with base 10: " ++
      String.ofList ((Text.quotedChars s.toList).take numeralLength)
  | .tooLong n =>
    "Exceeds the limit (" ++ toString Text.maxDigits ++ " digits) for integer string conversion: " ++
      "value has " ++ toString n ++
      " digits; use sys.set_int_max_str_digits() to increase the limit"

namespace Malformation

def message : Malformation → String
  | .unknownRule v => v.shown ++ " is not a valid RuleKind"
  | .missingKey k => k.shown
  | .numeral s f => numeralMessage s f
  | .undefinedNumber => "cannot convert float NaN to integer"
  | .dimensions => "Grid dimensions must be positive"
  | .limit => "max_pieces must be positive when set"
  | .misuse m => m.message

/-- A value of the wrong kind, and not a bad one of the right kind. -/
def isMisuse : Malformation → Bool
  | .misuse _ => true
  | _ => false

def ofGridFault : GridFault → Malformation
  | .dimensions => .dimensions
  | .limit => .limit
  | .illTyped k => .misuse (.comparison k)

end Malformation

inductive LevelFault where
  | missingField (name : String)
  | malformed (id : Value) (m : Malformation)
  | badFormula (field : String) (e : SyntaxError)
  | notFormula (field kind : String)
  | unknownParameters (names : List Value)
  | badSide (side : Value)
  /-- A value of the wrong kind outside the palette, the grid and the pieces. -/
  | wrongKind
  /-- A value without fields where fields are looked up. -/
  | noFields
  /-- A position without two coordinates. -/
  | tooShort
  /-- An infinity for a whole number. -/
  | infinite
  /-- A formula that is needed is missing. -/
  | noFormula
  | unknownTutorial (id : String) (known : List String)
  | notPublishable (id : String) (errors : List String)
  deriving DecidableEq, Repr

namespace LevelFault

/-- The wording of a fault that was foreseen. -/
def message? : LevelFault → Option String
  | .missingField n => some ("Puzzle is missing required field '" ++ n ++ "'")
  | .malformed id m => some ("Malformed puzzle '" ++ id.display ++ "': " ++ m.message)
  | .badFormula f e => some ("Invalid formula for '" ++ f ++ "': " ++ e.message)
  | .notFormula f k =>
    some ("Field '" ++ f ++ "' must be a formula or formula text, got " ++ k)
  | .unknownParameters ns => some ("Unknown piece parameters: " ++ (Value.list ns).shown)
  | .badSide v => some ("side must be 'left' or 'right', got " ++ v.shown)
  | .unknownTutorial id _ => some ("No tutorial level '" ++ id ++ "'")
  | .notPublishable id es =>
    some ("Invalid puzzle '" ++ id ++ "': " ++ String.intercalate "; " es)
  | .wrongKind | .noFields | .tooShort | .infinite | .noFormula => none

def context : LevelFault → List (String × Value)
  | .malformed id _ => [("puzzle_id", id)]
  | .badFormula f _ => [("field", .text f)]
  | .notFormula f _ => [("field", .text f)]
  | .badSide _ => [("field", .text "side")]
  | .unknownTutorial id known => [("puzzle_id", .text id), ("known", .list (known.map .text))]
  | .notPublishable id es => [("puzzle_id", .text id), ("errors", .list (es.map .text))]
  | _ => []

end LevelFault

/-- What stops reading: a malformation, which is reported under the name of the level, or a fault. -/
inductive Trouble where
  | malformation (m : Malformation)
  | fault (f : LevelFault)

/-- A formula field: a text is read and nothing stays nothing. -/
def readFormula (field : String) : Value → Except LevelFault (Option Formula)
  | .null => .ok none
  | .text s => match Formula.parse s with
    | .ok f => .ok (some f)
    | .error e => .error (.badFormula field e)
  | v => .error (.notFormula field v.kindName)

/-- A use of a value of the wrong kind. -/
def misused {α : Type} (m : Misuse) : Except Trouble α := .error (.malformation (.misuse m))

/-- The elements of a value that holds some. -/
def elementsOf (v : Value) : Except Trouble (List Value) :=
  match v.elements? with
  | some xs => .ok xs
  | none => misused (.walk v.kindName)

namespace Params

def knownNames : List String := ["formula", "other", "side", "hypothesis", "variable", "term"]

/-- Different values in ascending order. Texts can be ordered, and so can numbers, but not the ones
among the others. -/
def ordered (vs : List Value) : Except Trouble (List Value) :=
  match vs with
  | [] | [_] => .ok vs
  | v :: w :: _ =>
    if vs.all fun x => vs.all fun y => (x.below? y).isSome then
      .ok (vs.mergeSort fun x y => !((y.below? x).getD false))
    else misused (.ordering w.kindName v.kindName)

/-- The elements of a value that are no parameter names, each once and in order. -/
def unknownNames (vs : List Value) : Except Trouble (List Value) :=
  match vs.find? fun v => !v.isKey with
  | some v => misused (.membership v.kindName)
  | none => ordered ((Value.distinct vs).filter fun v => v.text?.all fun s => s ∉ knownNames)

/-- Parameters of an object: unknown names are judged first, then the side, then the formulas. -/
def readFields (fs : List (String × Value)) : Except LevelFault Params :=
  let side := (Value.field? "side" fs).getD leftSide
  let field (key : String) : Value := (Value.field? key fs).getD .null
  if side ≠ leftSide ∧ side ≠ rightSide then .error (.badSide side)
  else
    match readFormula "formula" (field "formula"), readFormula "other" (field "other"),
      readFormula "hypothesis" (field "hypothesis") with
    | .error e, _, _ => .error e
    | _, .error e, _ => .error e
    | _, _, .error e => .error e
    | .ok f, .ok o, .ok h => .ok ⟨f, o, h, side, field "variable", field "term"⟩

/-- Parameters from a stored value. -/
def read (v : Value) : Except Trouble Params := do
  match ← unknownNames (← elementsOf v) with
  | n :: ns => .error (.fault (.unknownParameters (n :: ns)))
  | [] => match v with
    | .object fs => match readFields fs with
      | .ok p => .ok p
      | .error e => .error (.fault e)
    | _ => .error (.fault .noFields)

end Params

namespace Level

def integer (v : Value) : Except Trouble Int :=
  match v.toInteger with
  | .ok n => .ok n
  | .error (.numeral s f) => .error (.malformation (.numeral s f))
  | .error .infinite => .error (.fault .infinite)
  | .error .undefined => .error (.malformation .undefinedNumber)
  | .error (.notANumber k) => misused (.conversion k)

def rule (v : Value) : Except Trouble RuleKind :=
  match RuleKind.ofValue v with
  | .ok k => .ok k
  | .error v => .error (.malformation (.unknownRule v))

def readPalette (v : Option Value) : Except Trouble Palette :=
  match v with
  | none => .ok Palette.full
  | some v => do
    let ks ← (← elementsOf v).mapM rule
    return Palette.ofList ks

/-- The size of a grid is judged before its limit. -/
def readGrid (v : Option Value) : Except Trouble Grid :=
  match v with
  | none => .ok Grid.standard
  | some (.object fs) => do
    let width ← integer ((Value.field? "width" fs).getD (.int Frame.standardSize))
    let height ← integer ((Value.field? "height" fs).getD (.int Frame.standardSize))
    match Grid.make width height ((Value.field? "max_pieces" fs).getD .null) with
    | .ok g => .ok g
    | .error f => .error (.malformation (.ofGridFault f))
  | some _ => .error (.fault .noFields)

/-- The value under a key that has to be there. -/
def required (key : String) (v : Value) : Except Trouble Value :=
  match v with
  | .object fs => match Value.field? key fs with
    | some w => .ok w
    | none => .error (.malformation (.missingKey (.text key)))
  | .text _ => misused .lookupInText
  | .list _ => misused .lookupInList
  | v => misused (.lookup v.kindName)

/-- A coordinate of a position: an item of a list or a character of a text. -/
def coordinate (position : Value) (i : Nat) : Except Trouble Int :=
  match position with
  | .object _ => .error (.malformation (.missingKey (.int i)))
  | v => match v.elements? with
    | none => misused (.lookup v.kindName)
    | some xs => match xs[i]? with
      | some x => integer x
      | none => .error (.fault .tooShort)

def readPlacement (v : Value) : Except Trouble Placement := do
  let kind ← rule (← required "kind" v)
  let x ← coordinate (← required "position" v) 0
  let y ← coordinate (← required "position" v) 1
  let params := match v with
    | .object fs => (Value.field? "params" fs).getD (.object [])
    | _ => .object []
  return ⟨kind, (x, y), ← Params.read params⟩

def readPieces (v : Option Value) : Except Trouble (List Placement) :=
  match v with
  | none => .ok []
  | some v => do (← elementsOf v).mapM readPlacement

/-- The palette, the grid and the pieces of a level. -/
def readParts (fs : List (String × Value)) :
    Except Trouble (Palette × Grid × List Placement) := do
  let palette ← readPalette (Value.field? "available_rules" fs)
  let grid ← readGrid (Value.field? "grid" fs)
  let pieces ← readPieces (Value.field? "pieces" fs)
  return (palette, grid, pieces)

def readPremises (v : Option Value) : Except LevelFault (List (Option Formula)) :=
  match v with
  | none => .ok []
  | some v => match v.elements? with
    | none => .error .wrongKind
    | some xs => xs.mapM (readFormula "premises")

/-- The level of an object that has an id, a name and a target. -/
def readFields (fs : List (String × Value)) : Except LevelFault Draft :=
  let id := (Value.field? "id" fs).getD .null
  match readParts fs with
  | .error (.fault f) => .error f
  | .error (.malformation m) => .error (.malformed id m)
  | .ok (palette, grid, pieces) =>
    match readFormula "target" ((Value.field? "target" fs).getD .null),
      readPremises (Value.field? "premises" fs) with
    | .error e, _ => .error e
    | _, .error e => .error e
    | .ok target, .ok premises =>
      .ok ⟨id.display, (Value.field? "name" fs).getD .null,
        (Value.field? "description" fs).getD (.text ""), target, premises, palette, grid, pieces⟩

def requiredFields : List String := ["id", "name", "target"]

/-- The text `t` begins somewhere in the given text. -/
def occursInText (t : List Char) : List Char → Bool
  | [] => t.isEmpty
  | c :: r => t.isPrefixOf (c :: r) || occursInText t r

/-- The first required field that a value does not mention. -/
def missingField? (v : Value) : Option (Option String) :=
  match v with
  | .object fs => some (requiredFields.find? fun n => (Value.field? n fs).isNone)
  | .list xs => some (requiredFields.find? fun n => Value.text n ∉ xs)
  | .text s => some (requiredFields.find? fun n => !occursInText n.toList s.toList)
  | _ => none

/-- The level that a stored value describes. -/
def read (v : Value) : Except LevelFault Draft :=
  match missingField? v with
  | none => .error .wrongKind
  | some (some n) => .error (.missingField n)
  | some none => match v with
    | .object fs => readFields fs
    | _ => .error .noFields

def storedGrid (g : Grid) : Value :=
  .object ([("width", .int g.width), ("height", .int g.height)] ++
    match g.limit with
    | some l => [("max_pieces", l.written)]
    | none => [])

def storedPlacement (p : Placement) : Value :=
  .object [("kind", .text p.kind.name), ("position", .list [.int p.cell.1, .int p.cell.2]),
    ("params", .object p.params.fields)]

/-- The stored value of a puzzle. -/
def stored (p : Puzzle) : Value :=
  .object [("id", .text p.id), ("name", p.name), ("description", p.description),
    ("target", .text p.target.pretty), ("premises", .list (p.premises.map fun f => .text f.pretty)),
    ("available_rules", .list (p.palette.kinds.map fun k => .text k.name)),
    ("grid", storedGrid p.grid), ("pieces", .list (p.pieces.map storedPlacement))]

end Level

end DeductionBoard
