import DeductionBoard.Data.Digest
import DeductionBoard.Query.Sentence
import DeductionBoard.Query.Signature

/-! Scripts for a solver. A script asserts the hypotheses of an entailment and the negation of its
goal; the entailment holds when the assertions have no model. -/

namespace DeductionBoard.Query

inductive Declaration where
  | individual (name : String)
  | predicate (name : String) (arity : Nat)
  | witness (index arity : Nat)
  deriving DecidableEq, Repr

def Declaration.text (sort : String) : Declaration → String
  | .individual n => "(declare-const " ++ symbol n ++ " " ++ sort ++ ")"
  | .predicate n 0 => "(declare-const " ++ symbol n ++ " Bool)"
  | .predicate n (k + 1) =>
    "(declare-fun " ++ symbol n ++ " (" ++ spaced (List.replicate (k + 1) sort) ++ ") Bool)"
  | .witness i 0 => "(declare-const " ++ witnessName i ++ " " ++ sort ++ ")"
  | .witness i (k + 1) =>
    "(declare-fun " ++ witnessName i ++ " (" ++ spaced (List.replicate (k + 1) sort) ++ ") " ++
      sort ++ ")"

structure Script where
  title : String
  /-- The entailment as it is written for people. -/
  sequent : String
  quantified : Bool
  /-- The sort of individuals as written, where the script speaks about any. -/
  sort : String
  firstOrder : Bool
  declarations : List Declaration
  assertions : List (Sentence × String)
  deriving DecidableEq, Repr

namespace Script

def logic (s : Script) : String := if s.quantified then "UF" else "QF_UF"

def lines (s : Script) : List String :=
  ["; proofwork " ++ s.title, "; " ++ s.sequent, "(set-logic " ++ s.logic ++ ")"] ++
    (if s.firstOrder then ["(declare-sort " ++ s.sort ++ " 0)"] else []) ++
    s.declarations.map (Declaration.text s.sort) ++
    s.assertions.map (fun a => "(assert " ++ a.1.text s.sort ++ ") ; " ++ a.2) ++
    ["(check-sat)"]

def text (s : Script) : String := String.join (s.lines.map (· ++ "\n"))

def labels (s : Script) : List String := s.assertions.map (·.2)

end Script

end DeductionBoard.Query
