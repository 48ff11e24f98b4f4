import DeductionBoard.Data.Value

/-! Version numbers. The parts of a version are written as they were given. -/

namespace DeductionBoard

structure Version where
  major : Value
  minor : Value
  patch : Value
  preRelease : Value
  deriving DecidableEq, Repr

namespace Version

/-- The version with three or four parts. -/
def ofParts? : List Value → Option Version
  | [major, minor, patch] => some ⟨major, minor, patch, .text ""⟩
  | [major, minor, patch, preRelease] => some ⟨major, minor, patch, preRelease⟩
  | _ => none

def text (v : Version) : String :=
  let base := v.major.display ++ "." ++ v.minor.display ++ "." ++ v.patch.display
  if v.preRelease.holds then base ++ "-" ++ v.preRelease.display else base

def current : Version := ⟨.int 0, .int 3, .int 0, .text ""⟩

end Version

end DeductionBoard
