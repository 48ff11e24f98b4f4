import DeductionBoard.Board.Basic
import DeductionBoard.Formula.Order

/-! Constructions: derivations by introduction rules, as trees. A leaf is an assumption or a piece
that stands on the board already; every other node is a rule over the constructions of its premises.
A construction knows what it derives, which formulas it leaves open, and the pieces it takes. -/

namespace DeductionBoard

inductive Construction where
  /-- A piece on the board, with what it derives and the formulas it rests on, ascending. -/
  | reused (piece : PieceId) (kind : RuleKind) (formula : Formula) (assumptions : List Formula)
  | assume (formula : Formula)
  | both (left right : Construction)
  | leftOf (premise : Construction) (other : Formula)
  | rightOf (other : Formula) (premise : Construction)
  | implies (hypothesis : Formula) (premise : Construction)
  /-- Two conclusions that contradict each other under a hypothesis. -/
  | refute (hypothesis : Formula) (premise contrary : Construction)
  /-- A quantifier over `v` from an instance in which another term may stand for `v`. -/
  | quantify (q : Quantifier) (v : String) (term : Option String) (body : Formula)
      (premise : Construction)
  deriving DecidableEq, Repr

namespace Construction

def formula : Construction → Formula
  | .reused _ _ f _ => f
  | .assume f => f
  | .both l r => .conj l.formula r.formula
  | .leftOf p other => .disj p.formula other
  | .rightOf other p => .disj other p.formula
  | .implies h p => .imp h p.formula
  | .refute h _ _ => .neg h
  | .quantify q v _ body _ => .quantified q v body

def quantifierKind : Quantifier → RuleKind
  | .all => .forallIntro
  | .exist => .existsIntro

def kind : Construction → RuleKind
  | .reused _ k _ _ => k
  | .assume _ => .assumption
  | .both _ _ => .andIntro
  | .leftOf _ _ => .orIntro
  | .rightOf _ _ => .orIntro
  | .implies _ _ => .impliesIntro
  | .refute _ _ _ => .notIntro
  | .quantify q _ _ _ _ => quantifierKind q

def nameValue (s : Option String) : Value :=
  match s with
  | none => .null
  | some s => .text s

/-- The parameters of the piece that the root becomes. -/
def params : Construction → Params
  | .reused _ _ _ _ => Params.empty
  | .assume f => { Params.empty with formula := some f }
  | .both _ _ => Params.empty
  | .leftOf _ other => { Params.empty with other := some other }
  | .rightOf other _ => { Params.empty with other := some other, side := Params.rightSide }
  | .implies h _ => { Params.empty with hypothesis := some h }
  | .refute h _ _ => { Params.empty with hypothesis := some h }
  | .quantify _ v term _ _ =>
    { Params.empty with variableName := .text v, term := nameValue term }

/-- The constructions of the premises, in slot order. -/
def premises : Construction → List Construction
  | .reused _ _ _ _ => []
  | .assume _ => []
  | .both l r => [l, r]
  | .leftOf p _ => [p]
  | .rightOf _ p => [p]
  | .implies _ p => [p]
  | .refute _ p c => [p, c]
  | .quantify _ _ _ _ p => [p]

/-- The formulas that stay open, ascending. -/
def assumptions : Construction → List Formula
  | .reused _ _ _ a => a
  | .assume f => [f]
  | .both l r => Ascending.union l.assumptions r.assumptions
  | .leftOf p _ => p.assumptions
  | .rightOf _ p => p.assumptions
  | .implies h p => p.assumptions.filter (· ≠ h)
  | .refute h p c => (Ascending.union p.assumptions c.assumptions).filter (· ≠ h)
  | .quantify _ _ _ _ p => p.assumptions

/-- The piece that the root stands on already. -/
def piece? : Construction → Option PieceId
  | .reused i _ _ _ => some i
  | _ => none

/-- The number of nodes. -/
def size : Construction → Nat
  | .reused _ _ _ _ => 1
  | .assume _ => 1
  | .both l r => 1 + (l.size + r.size)
  | .leftOf p _ => 1 + p.size
  | .rightOf _ p => 1 + p.size
  | .implies _ p => 1 + p.size
  | .refute _ p c => 1 + (p.size + c.size)
  | .quantify _ _ _ _ p => 1 + p.size

/-- The number of nodes on the longest branch. -/
def height : Construction → Nat
  | .reused _ _ _ _ => 1
  | .assume _ => 1
  | .both l r => 1 + max l.height r.height
  | .leftOf p _ => 1 + p.height
  | .rightOf _ p => 1 + p.height
  | .implies _ p => 1 + p.height
  | .refute _ p c => 1 + max p.height c.height
  | .quantify _ _ _ _ p => 1 + p.height

/-- The number of pieces that have to be added to the board. -/
def newPieces : Construction → Nat
  | .reused _ _ _ _ => 0
  | .assume _ => 1
  | .both l r => 1 + (l.newPieces + r.newPieces)
  | .leftOf p _ => 1 + p.newPieces
  | .rightOf _ p => 1 + p.newPieces
  | .implies _ p => 1 + p.newPieces
  | .refute _ p c => 1 + (p.newPieces + c.newPieces)
  | .quantify _ _ _ _ p => 1 + p.newPieces

/-- The construction and the constructions inside it, each after its premises. -/
def postOrder : Construction → List Construction
  | c@(.reused _ _ _ _) => [c]
  | c@(.assume _) => [c]
  | c@(.both l r) => l.postOrder ++ r.postOrder ++ [c]
  | c@(.leftOf p _) => p.postOrder ++ [c]
  | c@(.rightOf _ p) => p.postOrder ++ [c]
  | c@(.implies _ p) => p.postOrder ++ [c]
  | c@(.refute _ p r) => p.postOrder ++ r.postOrder ++ [c]
  | c@(.quantify _ _ _ _ p) => p.postOrder ++ [c]

/-- The first construction whose root is not on the board yet; all its premises are. -/
def nextStep (c : Construction) : Option Construction :=
  c.postOrder.find? fun d => d.piece?.isNone

end Construction

end DeductionBoard
