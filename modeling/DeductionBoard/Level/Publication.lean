import DeductionBoard.Level.Storage
import DeductionBoard.Query.Symbol

/-! What keeps a level from being published: a bad id or name, no way to start a derivation, repeated
premises, or pieces off the grid, on one cell or beyond the budget. -/

namespace DeductionBoard

namespace Level

def isIdPart (c : Char) : Bool := Token.isIdentifierPart c || c = '.' || c = '-'

/-- Letters, digits, underscores, points and dashes, not beginning with a point or a dash. One line
feed may follow. -/
def isPuzzleId (s : String) : Bool :=
  match Query.withoutLineFeed s.toList with
  | [] => false
  | c :: r => Token.isIdentifierPart c && r.all isIdPart

/-- Whether a name is missing or blank; only texts can be judged. -/
def lacksName (name : Value) : Except LevelFault Bool :=
  if ¬ name.holds then .ok true
  else match name with
    | .text s => .ok (Text.trim s.toList).isEmpty
    | _ => .error .noFields

variable {F : Type} [DecidableEq F]

def idErrors (l : Level F) : List String :=
  if isPuzzleId l.id then [] else ["Puzzle id '" ++ l.id ++ "' has invalid characters"]

/-- Premises need assumption pieces; without premises a derivation starts from a discharged
assumption. -/
def startErrors (l : Level F) : List String :=
  let canAssume := l.palette.contains .assumption
  let canDischarge := l.palette.kinds.any RuleKind.discharges
  if l.premises.isEmpty then
    if canAssume && canDischarge then []
    else ["Puzzle has no premises and offers no discharging rule: no derivation can start"]
  else if canAssume || l.pieces.any fun p => p.kind = .assumption then []
  else ["Premises are declared but ASSUMPTION pieces are not available"]

def premiseErrors (l : Level F) : List String :=
  if l.premises.eraseDups.length = l.premises.length then [] else ["Duplicate premise formulas"]

/-- The faults of the placements from number `i` on, after those on the cells `seen`. -/
def placementErrors (g : Grid) : (i : Nat) → (seen : List Cell) → List Placement → List String
  | _, _, [] => []
  | i, seen, p :: ps =>
    let name := "Pre-placed piece " ++ toString i
    (if g.inBounds p.cell then []
     else [name ++ " at " ++ (Position.cell p.cell).text ++ " is out of bounds"]) ++
      (if p.cell ∈ seen then [name ++ " overlaps another at " ++ (Position.cell p.cell).text]
       else []) ++
      placementErrors g (i + 1) (p.cell :: seen) ps

def budgetErrors (l : Level F) : List String :=
  match l.grid.limit with
  | some limit =>
    if limit.isExceeded l.pieces.length then
      [toString l.pieces.length ++ " pre-placed pieces exceed max_pieces=" ++ limit.written.display]
    else []
  | none => []

/-- Everything that keeps the level from being published. -/
def publicationErrors (l : Level F) : Except LevelFault (List String) := do
  let nameless ← lacksName l.name
  return l.idErrors ++ (if nameless then ["Puzzle must have a name"] else []) ++ l.startErrors ++
    l.premiseErrors ++ placementErrors l.grid 0 [] l.pieces ++ l.budgetErrors

/-- Fails on a level that cannot be published. -/
def assertPublishable (l : Level F) : Except LevelFault Unit := do
  let errors ← l.publicationErrors
  if errors.isEmpty then .ok () else .error (.notPublishable l.id errors)

end Level

end DeductionBoard
