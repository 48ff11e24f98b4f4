import DeductionBoard.Number.Extended
import DeductionBoard.Number.Rounding

/-! Numbers in double precision, kept as exact binary fractions: the nearest one to a quotient or a
decimal, the rounded operations, the text with one decimal place, the whole part, and the fewest
digits that read back as the number. -/

namespace DeductionBoard.Number

/-- A number in double precision. -/
inductive Binary64 where
  /-- The number `(-1)^negative * mantissa * 2^exponent`. -/
  | finite (negative : Bool) (mantissa : Nat) (exponent : Int)
  | infinite (negative : Bool)
  | undefined
  deriving DecidableEq, Repr

namespace Binary64

def zero : Binary64 := .finite false 0 0

/-- `n / d * 2^(-e)` as a quotient of natural numbers. -/
def scaled (n d : Nat) (e : Int) : Nat × Nat :=
  if 0 ≤ e then (n, d * Nat.pow 2 e.toNat) else (n * Nat.pow 2 (-e).toNat, d)

/-- The binary exponent at which `n / d` is rounded: 53 digits, and none below `2^-1074`. -/
def exponentOf (n d : Nat) : Int :=
  let guess : Int := (n.log2 : Int) - (d.log2 : Int) - 52
  let s := scaled n d guess
  let e := if s.1 < Nat.pow 2 52 * s.2 then guess - 1 else guess
  max e (-1074)

/-- The greatest binary exponent of a finite number. -/
def maxExponent : Int := 971

/-- A finite number, or an infinity where it would be too large. -/
def bounded (negative : Bool) (mantissa : Nat) (exponent : Int) : Binary64 :=
  if maxExponent < exponent then .infinite negative else .finite negative mantissa exponent

/-- The number nearest to `n / d`. -/
def ofQuotient (negative : Bool) (n d : Nat) : Binary64 :=
  if n = 0 then .finite negative 0 0
  else
    let e := exponentOf n d
    let s := scaled n d e
    let m := roundHalfEven s.1 s.2
    if m = Nat.pow 2 53 then bounded negative (Nat.pow 2 52) (e + 1) else bounded negative m e

/-- The number nearest to a rational number. -/
def ofRat (q : Rat) : Binary64 := ofQuotient (q.num < 0) q.num.natAbs q.den

/-- The powers of ten beyond which every decimal of a few digits is zero or infinite. -/
def decimalRange : Int := 400

/-- The number nearest to `m * 10^e`. -/
def ofDecimal (negative : Bool) (m : Nat) (e : Int) : Binary64 :=
  if m = 0 then .finite negative 0 0
  else if decimalRange < e then .infinite negative
  else if e < -(decimalRange + m.log2) then .finite negative 0 0
  else if 0 ≤ e then ofQuotient negative (m * Nat.pow 10 e.toNat) 1
  else ofQuotient negative m (Nat.pow 10 (-e).toNat)

/-- The magnitude of a finite number as a quotient of natural numbers. -/
def quotient (mantissa : Nat) (exponent : Int) : Nat × Nat :=
  if 0 ≤ exponent then (mantissa * Nat.pow 2 exponent.toNat, 1)
  else (mantissa, Nat.pow 2 (-exponent).toNat)

/-- The exact value of a finite number. -/
def rational (negative : Bool) (mantissa : Nat) (exponent : Int) : Rat :=
  let q := quotient mantissa exponent
  mkRat (if negative then -(q.1 : Int) else q.1) q.2

def extended : Binary64 → Extended
  | .finite s m e => .exact (rational s m e)
  | .infinite s => .infinite s
  | .undefined => .undefined

/-- The number nearest to a value. -/
def ofExtended : Extended → Binary64
  | .exact q => ofRat q
  | .infinite s => .infinite s
  | .undefined => .undefined

/-- An operation on finite numbers, rounded; a number that is not finite stays as it is. -/
def rounded (f : Rat → Rat) (x : Binary64) : Binary64 :=
  match x with
  | .finite s m e => ofRat (f (rational s m e))
  | x => x

/-- The whole part of a finite number, towards zero. -/
def truncate? : Binary64 → Option Int
  | .finite s m e =>
    let q := quotient m e
    let n : Int := (q.1 / q.2 : Nat)
    some (if s then -n else n)
  | _ => none

/-- The whole number nearest to a finite number, a half going to the even one. -/
def round? : Binary64 → Option Int
  | .finite s m e =>
    let q := quotient m e
    let n : Int := roundHalfEven q.1 q.2
    some (if s then -n else n)
  | _ => none

def sign (negative : Bool) : String := if negative then "-" else ""

/-- The texts of the numbers that are not finite. -/
def infinityText (negative : Bool) : String := sign negative ++ "inf"

def undefinedText : String := "nan"

/-- One decimal place of the exact binary value, a half going to the even digit. -/
def oneDecimal : Binary64 → String
  | .finite s m e =>
    let q := quotient m e
    let tenths := roundHalfEven (q.1 * 10) q.2
    sign s ++ toString (tenths / 10) ++ "." ++ toString (tenths % 10)
  | .infinite s => infinityText s
  | .undefined => undefinedText

/-- The least `p` with `n / d < 10^p`. -/
def magnitude (n d : Nat) : Int :=
  let digits (k : Nat) : Nat := (toString k).length
  let guess : Int := (digits n : Int) - (digits d : Int)
  let below (p : Int) : Bool :=
    if 0 ≤ p then n < d * Nat.pow 10 p.toNat else n * Nat.pow 10 (-p).toNat < d
  if below guess then guess else guess + 1

/-- The decimals with `k` digits next to a magnitude of `p`, nearest first; of two equally near ones
the even one. -/
def neighbours (n d : Nat) (p : Int) (k : Nat) : List (Nat × Int) :=
  let e := p - k
  let s : Nat × Nat :=
    if 0 ≤ e then (n, d * Nat.pow 10 e.toNat) else (n * Nat.pow 10 (-e).toNat, d)
  let low := s.1 / s.2
  if roundHalfEven s.1 s.2 = low then [(low, e), (low + 1, e)] else [(low + 1, e), (low, e)]

/-- The fewest decimal digits that read back as the number `m * 2^e`, as digits and a power of
ten. -/
def shortest (m : Nat) (e : Int) : Nat × Int :=
  let q := quotient m e
  let p := magnitude q.1 q.2
  let candidates := (List.range 17).flatMap fun k => neighbours q.1 q.2 p (k + 1)
  let readsBack (c : Nat × Int) : Bool := ofDecimal false c.1 c.2 = .finite false m e
  (candidates.find? readsBack).getD (m, 0)

def zeros (n : Nat) : String := String.ofList (List.replicate n '0')

/-- Trailing zeros move into the power of ten. -/
def stripZeros : Nat → Nat × Int → Nat × Int
  | 0, c => c
  | fuel + 1, (m, e) => if m ≠ 0 ∧ m % 10 = 0 then stripZeros fuel (m / 10, e + 1) else (m, e)

/-- The shortest text that reads back as the positive number `m * 2^e`: positional from `10^-4` up to
`10^16`, else with an exponent of at least two digits. -/
def magnitudeText (m : Nat) (e : Int) : String :=
  if m = 0 then "0.0"
  else
    let c := stripZeros 20 (shortest m e)
    let digits := toString c.1
    let len : Int := digits.length
    let point := len + c.2
    if -4 < point ∧ point ≤ 16 then
      if c.2 ≥ 0 then digits ++ zeros c.2.toNat ++ ".0"
      else if 0 < point then
        String.ofList (digits.toList.take point.toNat) ++ "." ++
          String.ofList (digits.toList.drop point.toNat)
      else "0." ++ zeros (-point).toNat ++ digits
    else
      let lead := String.ofList (digits.toList.take 1)
      let rest := String.ofList (digits.toList.drop 1)
      let fraction := if rest = "" then "" else "." ++ rest
      let power := point - 1
      let mark := if power < 0 then "-" else "+"
      let places := toString power.natAbs
      lead ++ fraction ++ "e" ++ mark ++ (if places.length < 2 then "0" ++ places else places)

/-- The shortest text that reads back. -/
def text : Binary64 → String
  | .finite s m e => sign s ++ magnitudeText m e
  | .infinite s => infinityText s
  | .undefined => undefinedText

end Binary64

end DeductionBoard.Number
