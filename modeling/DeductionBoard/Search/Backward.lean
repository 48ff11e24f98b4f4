import DeductionBoard.Data.Defect
import DeductionBoard.Search.Construction
import DeductionBoard.Settings

/-! Backward search for a construction of a goal. A goal is closed by a piece that stands on the
board, or by an assumption of the context; otherwise the introduction rule of its shape reduces it to
the goals of its premises. The search is bounded in depth and in the number of goals it takes up, and
alternatives are tried in a fixed order. -/

namespace DeductionBoard.Search

/-- A piece that a construction may rest on: its rule and the formulas it leaves open. -/
structure Placed where
  piece : PieceId
  kind : RuleKind
  assumptions : List Formula
  deriving DecidableEq, Repr

/-- A bound of a search as its setting gives it. -/
inductive Limit where
  | upTo (n : Int)
  | unbounded
  /-- The setting is no number. -/
  | illTyped
  deriving DecidableEq, Repr

/-- The bound that a value sets, where `whole` makes a fraction whole. -/
def Limit.ofValue (whole : Rat → Int) (v : Value) : Limit :=
  match v.number? with
  | none => .illTyped
  | some (.exact q) => .upTo (whole q)
  | some (.infinite true) => .upTo 0
  | some _ => .unbounded

/-- A number of goals exceeds a limit when it exceeds the whole numbers up to it. -/
def nodeLimit (s : SearchSettings) : Limit := .ofValue Rat.floor s.maxNodes

/-- A level of rules takes one off the depth, and there has to be more than one left. -/
def depthLimit (s : SearchSettings) : Limit := .ofValue Rat.ceil s.maxDepth

/-- What a search may use. -/
structure Resources where
  palette : Palette
  /-- The pieces at hand, under the formulas they derive. -/
  existing : List (Formula × Placed)
  /-- The number of goals that may be taken up. -/
  maxNodes : Limit
  /-- One of the premises is missing. It can be neither used nor passed over where all of the context
  is looked at. -/
  gap : Bool
  deriving DecidableEq, Repr

/-- Why a search is given up. -/
inductive Stop where
  | outOfNodes
  | defect (d : Defect)
  deriving DecidableEq, Repr

/-- A search counts the goals it takes up and fails for good when there are too many. -/
abbrev Trial := ExceptT Stop (StateM Nat)

/-- The room for new pieces; nothing means that there is no bound. -/
abbrev Room := Option Int

def Room.spend (room : Room) (n : Nat) : Room := room.map fun k => k - n

def Room.isUsedUp (room : Room) : Bool := room.any fun k => k < 1

/-- A way to look for a construction of a goal in a context with a room for pieces. -/
abbrev Tactic := Formula → List Formula → Room → Trial (Option Construction)

/-- The first construction that one of the alternatives yields. -/
def firstOf {α : Type} (attempt : α → Trial (Option Construction)) :
    List α → Trial (Option Construction)
  | [] => pure none
  | a :: r => do
    match ← attempt a with
    | some c => pure (some c)
    | none => firstOf attempt r

/-- Both constructions, the second in the room that the first one leaves. -/
def pair (prove : Tactic) (f g : Formula) (ctx : List Formula) (room : Room) :
    Trial (Option (Construction × Construction)) := do
  match ← prove f ctx room with
  | none => pure none
  | some c =>
    match ← prove g ctx (room.spend c.newPieces) with
    | none => pure none
    | some d => pure (some (c, d))

/-- The formulas that may contradict their negation: those that occur negated, then the others. -/
def contradictionCandidates (ctx : List Formula) : List Formula :=
  let negated := (ctx.filterMap fun f => match f with
    | .neg g => some g
    | _ => none).eraseDups
  negated ++ ctx.filter fun f => f ∉ negated

/-- `base` with the least positive number that makes it an unused name. -/
def freshName (base : String) (used : List String) : String :=
  let candidates := (List.range (used.length + 1)).map fun i => base ++ toString (i + 1)
  (candidates.find? fun s => s ∉ used).getD base

/-- The names that occur in formulas, free or bound. -/
def namesOf (fs : List Formula) : List String := fs.flatMap fun f => f.freeVars ++ f.boundVars

/-- A term for a universal: its variable, or a fresh name where that is free in the context. -/
def eigenTerm (v : String) (body : Formula) (ctx : List Formula) : String :=
  if ctx.any fun f => v ∈ f.freeVars then freshName v (namesOf (.all v body :: ctx)) else v

/-- The body of a quantifier with a term for its variable. -/
def instanceOf (v t : String) (body : Formula) : Option Formula :=
  if t = v then some body else body.substitute v t

def otherTerm (v t : String) : Option String := if t = v then none else some t

/-- The terms that may witness an existential: its variable and what is free in the context. -/
def witnesses (v : String) (ctx : List Formula) : List String :=
  v :: (Ascending.ofList (ctx.flatMap Formula.freeVars)).filter (· ≠ v)

/-- An instance from which the existential can be read back. -/
def witnessed (v t : String) (body : Formula) : Option Formula :=
  if t ≠ v ∧ t ∈ body.freeVars then none
  else match instanceOf v t body with
    | none => none
    | some i => if t ≠ v ∧ v ∈ i.freeVars then none else some i

/-- Whether a name is free in one of the formulas. -/
def occursIn (names : List String) (fs : List Formula) : Bool :=
  fs.any fun f => names.any fun x => x ∈ f.freeVars

def proveUniversal (prove : Tactic) (v : String) (body : Formula) (ctx : List Formula)
    (room : Room) : Trial (Option Construction) := do
  let t := eigenTerm v body ctx
  match instanceOf v t body with
  | none => pure none
  | some i =>
    match ← prove i ctx room with
    | none => pure none
    | some c =>
      pure (if occursIn [v, t] c.assumptions then none
        else some (.quantify .all v (otherTerm v t) body c))

def proveExistential (prove : Tactic) (v : String) (body : Formula) (ctx : List Formula)
    (room : Room) : Trial (Option Construction) :=
  firstOf (fun t => do
    match witnessed v t body with
    | none => pure none
    | some i =>
      match ← prove i ctx room with
      | none => pure none
      | some c =>
        pure (if occursIn [v] c.assumptions then none
          else some (.quantify .exist v (otherTerm v t) body c)))
    (witnesses v ctx)

def proveNegation (prove : Tactic) (h : Formula) (ctx : List Formula) (room : Room) :
    Trial (Option Construction) :=
  let inner := Ascending.insert h ctx
  firstOf (fun f => do
    match ← pair prove f (.neg f) inner room with
    | none => pure none
    | some (c, d) => pure (some (.refute h c d)))
    (contradictionCandidates inner)

/-- The introduction rule of a goal, where the palette has it. -/
def introduce (r : Resources) (prove : Tactic) (goal : Formula) (ctx : List Formula) (room : Room) :
    Trial (Option Construction) :=
  match goal with
  | .atom _ _ => pure none
  | .conj f g =>
    if r.palette.contains .andIntro then do
      match ← pair prove f g ctx room with
      | none => pure none
      | some (c, d) => pure (some (.both c d))
    else pure none
  | .disj f g =>
    if r.palette.contains .orIntro then do
      match ← prove f ctx room with
      | some c => pure (some (.leftOf c g))
      | none => match ← prove g ctx room with
        | some c => pure (some (.rightOf f c))
        | none => pure none
    else pure none
  | .imp f g =>
    if r.palette.contains .impliesIntro then do
      match ← prove g (Ascending.insert f ctx) room with
      | some c => pure (some (.implies f c))
      | none => pure none
    else pure none
  | .neg f =>
    if r.palette.contains .notIntro then do
      if r.gap then throw (.defect .illTyped)
      proveNegation prove f ctx room
    else pure none
  | .all v f =>
    if r.palette.contains .forallIntro then do
      if r.gap then throw (.defect .noFormula)
      proveUniversal prove v f ctx room
    else pure none
  | .exist v f =>
    if r.palette.contains .existsIntro then do
      if r.gap then throw (.defect .noFormula)
      proveExistential prove v f ctx room
    else pure none

/-- A piece at hand whose open formulas the context allows. -/
def reuse? (r : Resources) (goal : Formula) (ctx : List Formula) : Option Construction :=
  match List.lookup goal r.existing with
  | none => none
  | some p =>
    if p.assumptions.all fun f => f ∈ ctx then some (.reused p.piece p.kind goal p.assumptions)
    else none

/-- A construction without premises: reuse is free, an assumption takes one piece. -/
def leaf? (r : Resources) (goal : Formula) (ctx : List Formula) (room : Room) :
    Option Construction :=
  match reuse? r goal ctx with
  | some c => some c
  | none =>
    if room.isUsedUp then none
    else if goal ∈ ctx ∧ r.palette.contains .assumption then some (.assume goal)
    else none

/-- Takes up a goal, unless too many have been taken up. -/
def takeUp (r : Resources) : Trial Unit := do
  modify (· + 1)
  match r.maxNodes with
  | .upTo n => if n < (← get : Nat) then throw .outOfNodes
  | .unbounded => pure ()
  | .illTyped => throw (.defect .illTyped)

/-- The search with `n` levels of rules. -/
def proveWithin (r : Resources) : (n : Nat) → Tactic
  | 0, goal, ctx, room => do
    takeUp r
    pure (leaf? r goal ctx room)
  | n + 1, goal, ctx, room => do
    takeUp r
    match leaf? r goal ctx room with
    | some c => pure (some c)
    | none =>
      if room.isUsedUp then pure none
      else introduce r (proveWithin r n) goal ctx (room.spend 1)

/-- More levels of rules than any finite setting gives. -/
def unboundedLevels : Nat := Nat.pow 2 1024

/-- The search to a depth. A single leaf has depth one; a depth that is no number shows where a rule
would have to be tried. -/
def proveTo (r : Resources) (depth : Limit) (goal : Formula) (ctx : List Formula) (room : Room) :
    Trial (Option Construction) :=
  match depth with
  | .upTo d => proveWithin r (d - 1).toNat goal ctx room
  | .unbounded => proveWithin r unboundedLevels goal ctx room
  | .illTyped => do
    takeUp r
    match leaf? r goal ctx room with
    | some c => pure (some c)
    | none => if room.isUsedUp then pure none else throw (.defect .illTyped)

/-- What a search has come to. -/
structure Outcome where
  found : Option Construction
  /-- The number of goals that were taken up. -/
  expanded : Nat
  /-- The search was given up. -/
  exhausted : Bool
  deriving DecidableEq, Repr

/-- Searches for a construction of the goal from the premises. -/
def prove (r : Resources) (depth : Limit) (premises : List Formula) (goal : Formula) (room : Room) :
    Except Defect Outcome :=
  match (proveTo r depth goal (Ascending.ofList premises) room).run.run 0 with
  | (.ok found, n) => .ok ⟨found, n, false⟩
  | (.error .outOfNodes, n) => .ok ⟨none, n, true⟩
  | (.error (.defect d), _) => .error d

/-- Whether a missing goal is found: it is where a missing premise can be assumed for it. -/
def provesBlank (r : Resources) (depth : Limit) (room : Room) : Except Defect Bool :=
  let leaf := r.gap && r.palette.contains .assumption
  match r.maxNodes, depth with
  | .illTyped, _ => .error .illTyped
  | .upTo n, depth =>
    if n < 1 ∨ room.isUsedUp then .ok false
    else if !leaf && depth = .illTyped then .error .illTyped else .ok leaf
  | .unbounded, depth =>
    if room.isUsedUp then .ok false
    else if !leaf && depth = .illTyped then .error .illTyped else .ok leaf

end DeductionBoard.Search
