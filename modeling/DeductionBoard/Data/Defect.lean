/-! Input that is taken without being judged may turn out later to be of no use. -/

namespace DeductionBoard

/-- Why work on such input breaks off. -/
inductive Defect where
  /-- A value of the wrong kind. -/
  | illTyped
  /-- A formula that is needed is missing. -/
  | noFormula
  deriving DecidableEq, Repr

end DeductionBoard
