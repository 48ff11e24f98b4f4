import DeductionBoard.Query.Script

/-! Entailment queries. A query asks whether a list of labelled hypotheses entails a goal. Main
definition: `Entailment.query`, which fails on the first formula whose names clash with those of the
formulas before it. -/

namespace DeductionBoard

namespace Query

structure Options where
  sortName : String
  skolemize : Bool
  exportTheory : Bool
  deriving DecidableEq, Repr

def Options.standard : Options := ⟨"Obj", false, true⟩

/-- A hypothesis, the label of its assertion, and the piece it comes from. -/
structure Hypothesis where
  formula : Formula
  label : String
  source : Option Int
  deriving DecidableEq, Repr

structure Entailment where
  hypotheses : List Hypothesis
  goal : Formula
  goalSource : Option Int
  title : String
  deriving DecidableEq, Repr

/-- Why an entailment has no query. -/
inductive Fault where
  | clash (c : Clash) (piece : Option Int)
  | goalNotDerived (goal : Option Int)
  /-- One of the formulas is missing. -/
  | missingFormula
  /-- The sort is no text. -/
  | illTyped
  deriving DecidableEq, Repr

def Fault.message : Fault → String
  | .clash c _ =>
    "Symbol '" ++ c.name ++ "' used both as " ++ c.known.text ++ " and as " ++ c.used.text
  | .goalNotDerived _ => "Goal is not derived; nothing to encode"
  | .missingFormula => "Cannot encode formula node NoneType"
  | .illTyped => ""

/-- What is said of labels or sources that are too many or too few. -/
def mismatchMessage : String := "labels and sources must match hypotheses one-to-one"

def goalLabel : String := "goal"

def defaultTitle : String := "entailment"

namespace Entailment

/-- Formulas with the labels `hyp_1`, `hyp_2`, … and no source. -/
def unlabelled (fs : List Formula) : List Hypothesis :=
  fs.mapIdx fun i f => ⟨f, "hyp_" ++ toString (i + 1), none⟩

/-- Formulas with labels and sources, unless the lists differ in length. -/
def labelled? (fs : List Formula) (labels : List String) (sources : List (Option Int)) :
    Option (List Hypothesis) :=
  if labels.length = fs.length ∧ sources.length = fs.length then
    some (List.zipWith (fun f ls => ⟨f, ls.1, ls.2⟩) fs (labels.zip sources))
  else none

def formulas (e : Entailment) : List Formula := e.hypotheses.map (·.formula)

/-- Every formula with the piece it comes from, the goal last. -/
def sourced (e : Entailment) : List (Formula × Option Int) :=
  e.hypotheses.map (fun h => (h.formula, h.source)) ++ [(e.goal, e.goalSource)]

/-- The signature of formulas in order. -/
def signatureFrom (s : Signature) : List (Formula × Option Int) → Except Fault Signature
  | [] => .ok s
  | (f, source) :: r => match s.declareAll (uses [] f) with
    | .error c => .error (.clash c source)
    | .ok s => signatureFrom s r

def signature (e : Entailment) : Except Fault Signature := signatureFrom [] e.sourced

/-- The sentences of formulas in order, numbered together. -/
def resolveAll (skolem : Bool) : List Formula → Numbering → List Sentence × Numbering
  | [], k => ([], k)
  | f :: fs, k =>
    let (s, k) := if skolem then Sentence.skolemize [] [] f k else Sentence.resolve [] f k
    let (ss, k) := resolveAll skolem fs k
    (s :: ss, k)

def sequent (e : Entailment) : String :=
  (if e.hypotheses.isEmpty then "⊤" else String.intercalate " ∧ " (e.formulas.map Formula.pretty)) ++
    " ⊢ " ++ e.goal.pretty

def declarationOf (u : String × Use) : Declaration :=
  match u.2 with
  | .individual => .individual u.1
  | .predicate n => .predicate u.1 n

def script (o : Options) (e : Entailment) (signature : Signature) : Script :=
  let hyps := resolveAll o.skolemize e.formulas ⟨0, []⟩
  let goal := Sentence.resolve [] e.goal hyps.2
  let sentences := hyps.1 ++ [.neg goal.1]
  { title := e.title
    sequent := e.sequent
    quantified := sentences.any Sentence.hasQuantifier
    sort := symbol o.sortName
    firstOrder := (e.formulas ++ [e.goal]).any Formula.isFirstOrder
    declarations := signature.sorted.map declarationOf ++
      goal.2.witnesses.mapIdx fun i arity => .witness (i + 1) arity
    assertions := sentences.zip (e.hypotheses.map (·.label) ++ [goalLabel]) }

end Entailment

end Query

/-- An entailment lowered to a script. -/
structure Query where
  script : Query.Script
  symbols : List String
  hypotheses : List Formula
  conclusion : Formula
  deriving DecidableEq, Repr

namespace Query

/-- An entailment in which formulas may be missing; none of them has a source. -/
structure Sketch where
  hypotheses : List (Option Formula)
  goal : Option Formula
  deriving DecidableEq, Repr

namespace Sketch

/-- The formulas, where none is missing. -/
def complete? (s : Sketch) : Option (List Formula × Formula) :=
  match s.hypotheses.mapM fun f => f, s.goal with
  | some hs, some g => some (hs, g)
  | _, _ => none

/-- Why a sketch with a gap has no query: a clash before the gap, or the gap itself. -/
def gapFault (s : Sketch) : Fault :=
  let present := ((s.hypotheses ++ [s.goal]).takeWhile Option.isSome).filterMap fun f => f
  match Entailment.signatureFrom [] (present.map fun f => (f, none)) with
  | .error f => f
  | .ok _ => .missingFormula

end Sketch

def text (q : Query) : String := q.script.text

def digest (q : Query) : String := Digest.ofText q.text

/-- The query of an entailment. -/
def Entailment.query (o : Options) (e : Entailment) : Except Fault Query :=
  match e.signature with
  | .error c => .error c
  | .ok s => .ok ⟨e.script o s, s.sorted.map (·.1), e.formulas, e.goal⟩

/-- The query of a sketch, with the labels of its hypotheses and a title. -/
def Sketch.query (o : Options) (s : Sketch) (label : Nat → String) (title : String) :
    Except Fault Query :=
  match s.complete? with
  | none => .error s.gapFault
  | some (hs, g) =>
    Entailment.query o ⟨hs.mapIdx fun i f => ⟨f, label (i + 1), none⟩, g, none, title⟩

end Query

end DeductionBoard
