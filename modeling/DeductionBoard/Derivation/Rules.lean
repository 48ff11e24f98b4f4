import DeductionBoard.Board.Topology
import DeductionBoard.Formula.Name

/-! The contracts of the rules. Each says what a piece derives from the conclusions of its premises
and the assumptions under them, or which flaw it has. -/

namespace DeductionBoard

namespace Derivation

/-- A conclusion and the assumptions it rests on, ascending. -/
structure Conclusion where
  formula : Formula
  assumptions : List PieceId
  deriving DecidableEq, Repr

def Conclusion.status (c : Conclusion) : Status := .derived c.formula c.assumptions

/-- A piece and the board whose assumptions its rule looks at. -/
structure Context where
  board : Board
  piece : Piece

namespace Context

def flawed (c : Context) (f : Flaw) : Status := .violated ⟨some c.piece.id, f⟩

def missing (c : Context) (name : String) : Status := c.flawed (.missingParameter c.piece.kind name)

/-- The assumptions that stay open once a hypothesis is discharged. -/
def discharge (c : Context) (hypothesis : Formula) (open_ : List PieceId) : List PieceId :=
  open_.filter fun a => c.board.assumed? a ≠ some hypothesis

def assumption (c : Context) : Status :=
  match c.piece.params.formula with
  | none => c.missing "formula"
  | some f => .derived f [c.piece.id]

def conjunction (p q : Conclusion) : Status :=
  .derived (.conj p.formula q.formula) (Ascending.union p.assumptions q.assumptions)

def disjunction (c : Context) (p : Conclusion) : Status :=
  match c.piece.params.other with
  | none => c.missing "other"
  | some other =>
    if c.piece.params.side = Params.leftSide then .derived (.disj p.formula other) p.assumptions
    else if c.piece.params.side = Params.rightSide then
      .derived (.disj other p.formula) p.assumptions
    else c.flawed (.unknownSide c.piece.kind c.piece.params.side)

def implication (c : Context) (p : Conclusion) : Status :=
  match c.piece.params.hypothesis with
  | none => c.missing "hypothesis"
  | some h => .derived (.imp h p.formula) (c.discharge h p.assumptions)

def negation (c : Context) (p q : Conclusion) : Status :=
  match c.piece.params.hypothesis with
  | none => c.missing "hypothesis"
  | some h =>
    if q.formula = .neg p.formula then
      .derived (.neg h) (c.discharge h (Ascending.union p.assumptions q.assumptions))
    else c.flawed (.notNegation p.formula q.formula)

/-- The first open assumption in which one of the names occurs free, with the least such name. -/
def clash? (c : Context) (watched : List String) :
    List PieceId → Option (PieceId × Formula × String)
  | [] => none
  | a :: r =>
    match c.board.assumed? a with
    | none => c.clash? watched r
    | some f =>
      match (Ascending.ofList watched).find? fun x => x ∈ f.freeVars with
      | some x => some (a, f, x)
      | none => c.clash? watched r

/-- A quantifier over `v` that replaces the term `t`. For a universal, neither may occur free in an
open assumption; for an existential, `v` may not. -/
def quantification (c : Context) (q : Quantifier) (v t : String) (p : Conclusion) : Status :=
  if t ≠ v ∧ v ∈ p.formula.freeVars then c.flawed (.conflated v (.text t) p.formula)
  else match p.formula.substitute t v with
    | none => c.flawed (.captured v t p.formula)
    | some body =>
      let watched := match q with
        | .all => [t, v]
        | .exist => [v]
      match c.clash? watched p.assumptions with
      | some (a, f, x) => c.flawed (.notArbitrary x a f)
      | none => .derived (.quantified q v body) p.assumptions

/-- An existential over `v` whose term `t` is no name, so that nothing is replaced. -/
def vacuous (c : Context) (v : String) (t : Value) (p : Conclusion) : Status :=
  if v ∈ p.formula.freeVars then c.flawed (.conflated v t p.formula)
  else match c.clash? [v] p.assumptions with
    | some (a, f, x) => c.flawed (.notArbitrary x a f)
    | none => .derived (.exist v p.formula) p.assumptions

/-- Whether a value can name a variable or a term. Texts can unless they hold the reserved mark, and
so can lists and objects that do not have it among their items or keys; about other values nothing
can be said. -/
def isNameable? (v : Value) : Option Bool :=
  match v with
  | .text s => some (isUsableName s)
  | .list xs => some (Value.text (String.singleton reservedMark) ∉ xs)
  | .object fs => some (fs.all fun f => f.1 ≠ String.singleton reservedMark)
  | _ => none

def quantifier (c : Context) (q : Quantifier) (p : Conclusion) : Status :=
  let v := c.piece.params.variableName
  let t := c.piece.params.abstracted
  if ¬ v.holds then c.missing "variable"
  else if isNameable? v ≠ some true then c.flawed (.unusableName v)
  else if isNameable? t ≠ some true then c.flawed (.unusableName t)
  else match v, t with
    | .text v, .text t => c.quantification q v t p
    | .text v, t => c.vacuous v t p
    | v, _ => c.flawed (.unusableName v)

/-- The names of a quantifier are of a kind that its rule cannot be applied to. A term that is no name
can be compared, but it cannot be looked for among the variables of a formula. -/
def isIllTyped (c : Context) (q : Quantifier) (p : Conclusion) : Bool :=
  let v := c.piece.params.variableName
  let t := c.piece.params.abstracted
  if ¬ v.holds then false
  else match isNameable? v, isNameable? t with
    | none, _ => true
    | some false, _ => false
    | some true, none => true
    | some true, some false => false
    | some true, some true => match v, t with
      | .text _, .text _ => false
      | .text v, _ => v ∉ p.formula.freeVars && (q = .all || !p.formula.boundVars.isEmpty)
      | _, _ => true

/-- The status of a piece whose premises derive `ps`, in slot order. -/
def apply (c : Context) (ps : List Conclusion) : Status :=
  match c.piece.kind, ps with
  | .assumption, _ => c.assumption
  | .goal, [p] => p.status
  | .andIntro, [p, q] => conjunction p q
  | .orIntro, [p] => c.disjunction p
  | .impliesIntro, [p] => c.implication p
  | .notIntro, [p, q] => c.negation p q
  | .forallIntro, [p] => c.quantifier .all p
  | .existsIntro, [p] => c.quantifier .exist p
  | _, _ => .incomplete [] []

/-- The rule of the piece cannot be applied to its parameters. -/
def isDefective (c : Context) (ps : List Conclusion) : Bool :=
  match c.piece.kind, ps with
  | .forallIntro, [p] => c.isIllTyped .all p
  | .existsIntro, [p] => c.isIllTyped .exist p
  | _, _ => false

end Context

/-- Statuses of pieces in the order they were found. -/
abbrev Statuses := List (PieceId × Status)

def Statuses.status? (s : Statuses) (i : PieceId) : Option Status := List.lookup i s

/-- The conclusion of a piece that derives one. -/
def Statuses.conclusion? (s : Statuses) (i : PieceId) : Option Conclusion :=
  match s.status? i with
  | some (.derived f a) => some ⟨f, a⟩
  | _ => none

/-- The status of a piece, given those of its producers. -/
def statusOf (b : Board) (p : Piece) (s : Statuses) : Status :=
  if ¬ p.isComplete then .incomplete p.missing []
  else
    let blocked := p.premises.filter fun i => (s.conclusion? i).isNone
    if ¬ blocked.isEmpty then .incomplete [] blocked
    else (Context.mk b p).apply (p.premises.filterMap s.conclusion?)

/-- The piece has all its premises, and its rule cannot be applied to its parameters. -/
def isDefective (b : Board) (p : Piece) (s : Statuses) : Bool :=
  p.isComplete && (p.premises.all fun i => (s.conclusion? i).isSome) &&
    (Context.mk b p).isDefective (p.premises.filterMap s.conclusion?)

end Derivation

end DeductionBoard
