import DeductionBoard.Text.Blank

/-! Whole numbers written in text: blanks around, one sign, decimal digits of any script, and single
underscores between digits. -/

namespace DeductionBoard.Text

/-- The zeros of the decimal scripts; the other nine digits of a script follow its zero. -/
def scriptZeros : List Nat :=
  [0x0030, 0x0660, 0x06F0, 0x07C0, 0x0966, 0x09E6, 0x0A66, 0x0AE6, 0x0B66, 0x0BE6, 0x0C66, 0x0CE6,
   0x0D66, 0x0DE6, 0x0E50, 0x0ED0, 0x0F20, 0x1040, 0x1090, 0x17E0, 0x1810, 0x1946, 0x19D0, 0x1A80,
   0x1A90, 0x1B50, 0x1BB0, 0x1C40, 0x1C50, 0xA620, 0xA8D0, 0xA900, 0xA9D0, 0xA9F0, 0xAA50, 0xABF0,
   0xFF10, 0x104A0, 0x10D30, 0x11066, 0x110F0, 0x11136, 0x111D0, 0x112F0, 0x11450, 0x114D0, 0x11650,
   0x116C0, 0x11730, 0x118E0, 0x11950, 0x11C50, 0x11D50, 0x11DA0, 0x16A60, 0x16AC0, 0x16B50, 0x1D7CE,
   0x1D7D8, 0x1D7E2, 0x1D7EC, 0x1D7F6, 0x1E140, 0x1E2F0, 0x1E950, 0x1FBF0]

/-- The value of a decimal digit. -/
def digit? (c : Char) : Option Nat :=
  (scriptZeros.find? fun z => z ≤ c.toNat && c.toNat < z + 10).map fun z => c.toNat - z

/-- The number that a non-empty run of digits denotes, above what was read before it. -/
def readDigits : Nat → List Char → Option Nat
  | _, [] => none
  | n, [c] => (digit? c).map fun d => 10 * n + d
  | n, c :: '_' :: r => match digit? c with
    | some d => readDigits (10 * n + d) r
    | none => none
  | n, c :: r => match digit? c with
    | some d => readDigits (10 * n + d) r
    | none => none

/-- Why a text is no whole number. -/
inductive NumeralFault where
  | malformed
  /-- The numeral has too many digits to be read. -/
  | tooLong (digits : Nat)
  deriving DecidableEq, Repr

/-- The number of digits that a numeral may have. -/
def maxDigits : Nat := 4300

def isNumeralPart (c : Char) : Bool := c = '_' || (digit? c).isSome

/-- A number without a sign. The digits at the beginning are counted before anything else is looked
at that may come after them. -/
def readUnsigned (s : List Char) : Except NumeralFault Nat :=
  let run := s.takeWhile isNumeralPart
  let digits := (run.filter (· != '_')).length
  match readDigits 0 run with
  | none => .error .malformed
  | some n =>
    if maxDigits < digits then .error (.tooLong digits)
    else if run.length < s.length then .error .malformed
    else .ok n

/-- A signed number without blanks. -/
def readSigned : List Char → Except NumeralFault Int
  | '-' :: r => (readUnsigned r).map fun n => -(n : Int)
  | '+' :: r => (readUnsigned r).map fun n => (n : Int)
  | r => (readUnsigned r).map fun n => (n : Int)

/-- The blanks that may stand around a numeral; the information separators are not among them. -/
def isNumeralBlank (c : Char) : Bool := isBlank c && !inRanges [(0x1C, 0x1F)] c.toNat

/-- The number that a text denotes. -/
def readInt (s : String) : Except NumeralFault Int :=
  let cs := s.toList.dropWhile isNumeralBlank
  readSigned (cs.reverse.dropWhile isNumeralBlank).reverse

end DeductionBoard.Text
