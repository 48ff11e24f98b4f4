import DeductionBoard.Data.Value

/-! The text form of values: a reader, and two writers, one on a single line and one with an item
per line. -/

namespace DeductionBoard.Json

open Number Text

/-- The blanks that may stand between tokens. -/
def isGap (c : Char) : Bool := c = ' ' || c = '\n' || c = '\r' || c = '\t'

def skipGaps (s : List Char) : List Char := s.dropWhile isGap

def hexValue (c : Char) : Option Nat :=
  if c.isDigit then some (c.toNat - '0'.toNat)
  else if 'a' ≤ c ∧ c ≤ 'f' then some (c.toNat - 'a'.toNat + 10)
  else if 'A' ≤ c ∧ c ≤ 'F' then some (c.toNat - 'A'.toNat + 10)
  else none

def readHex4 : List Char → Option (Nat × List Char)
  | a :: b :: c :: d :: r => do
    let a ← hexValue a
    let b ← hexValue b
    let c ← hexValue c
    let d ← hexValue d
    some (((a * 16 + b) * 16 + c) * 16 + d, r)
  | _ => none

/-- A character given by one escape, or by two that form a pair. -/
def readUnicode (s : List Char) : Option (Char × List Char) := do
  let (hi, r) ← readHex4 s
  if 0xD800 ≤ hi ∧ hi < 0xDC00 then
    match r with
    | '\\' :: 'u' :: r' =>
      match readHex4 r' with
      | some (lo, more) =>
        if 0xDC00 ≤ lo ∧ lo < 0xE000 then
          some (Char.ofNat (0x10000 + (hi - 0xD800) * 0x400 + (lo - 0xDC00)), more)
        else some (Char.ofNat 0xFFFD, r)
      | none => none
    | _ => some (Char.ofNat 0xFFFD, r)
  else if 0xDC00 ≤ hi ∧ hi < 0xE000 then some (Char.ofNat 0xFFFD, r)
  else some (Char.ofNat hi, r)

def simpleEscape (c : Char) : Option Char :=
  if c = doubleQuote ∨ c = '\\' ∨ c = '/' then some c
  else if c = 'n' then some '\n'
  else if c = 't' then some '\t'
  else if c = 'r' then some '\r'
  else if c = 'b' then some (Char.ofNat 8)
  else if c = 'f' then some (Char.ofNat 12)
  else none

/-- The rest of a text whose opening quote has been read; `fuel` bounds its length. -/
def readText : (fuel : Nat) → List Char → List Char → Option (String × List Char)
  | 0, _, _ => none
  | _ + 1, _, [] => none
  | fuel + 1, acc, '\\' :: 'u' :: r => do
    let (c, r) ← readUnicode r
    readText fuel (c :: acc) r
  | fuel + 1, acc, '\\' :: c :: r => do
    let c ← simpleEscape c
    readText fuel (c :: acc) r
  | fuel + 1, acc, c :: r =>
    if c = doubleQuote then some (String.ofList acc.reverse, r)
    else if c = '\\' ∨ c.toNat < 0x20 then none
    else readText fuel (c :: acc) r

def digits (s : List Char) : List Char × List Char :=
  (s.takeWhile Char.isDigit, s.dropWhile Char.isDigit)

def natOf (ds : List Char) : Nat := ds.foldl (fun n c => 10 * n + (c.toNat - '0'.toNat)) 0

def readExponent : List Char → Option (Option Int × List Char)
  | c :: r =>
    if c = 'e' ∨ c = 'E' then
      let (negative, r) := match r with
        | '-' :: r => (true, r)
        | '+' :: r => (false, r)
        | r => (false, r)
      let (ds, r) := digits r
      if ds.isEmpty then none
      else some (some (if negative then -(natOf ds : Int) else natOf ds), r)
    else some (none, c :: r)
  | [] => some (none, [])

/-- A number: a point or an exponent makes it a decimal. -/
def readNumber (s : List Char) : Option (Value × List Char) := do
  let (negative, s) := match s with
    | '-' :: r => (true, r)
    | r => (false, r)
  let (whole, r) := digits s
  if whole.isEmpty ∨ (whole.length > 1 ∧ whole.head? = some '0') then none
  let (fraction, r) := match r with
    | '.' :: r' => let (f, more) := digits r'; if f.isEmpty then ([], r) else (f, more)
    | _ => ([], r)
  let (exponent, r) ← readExponent r
  let m := natOf (whole ++ fraction)
  match fraction, exponent with
  | [], none => some (.int (if negative then -(m : Int) else m), r)
  | f, e => some (.decimal (Binary64.ofDecimal negative m (e.getD 0 - f.length)), r)

def word (w : String) (v : Value) (s : List Char) : Option (Value × List Char) :=
  if w.toList.isPrefixOf s then some (v, s.drop w.length) else none

/-- The numbers that are written as words. -/
def wordNumbers : List (String × Value) :=
  [("NaN", .decimal .undefined), ("Infinity", .decimal (.infinite false)),
   ("-Infinity", .decimal (.infinite true))]

/-- A number in digits or in a word. -/
def readNumeric (s : List Char) : Option (Value × List Char) :=
  match wordNumbers.findSome? fun w => word w.1 w.2 s with
  | some r => some r
  | none => readNumber s

mutual
/-- One value; `fuel` bounds the number of tokens. -/
def readValue : (fuel : Nat) → List Char → Option (Value × List Char)
  | 0, _ => none
  | fuel + 1, s =>
    match skipGaps s with
    | [] => none
    | c :: r =>
      if c = doubleQuote then do
        let (t, r) ← readText (r.length + 1) [] r
        some (.text t, r)
      else if c = '[' then
        match skipGaps r with
        | ']' :: r => some (.list [], r)
        | r => readItems fuel [] r
      else if c.toNat = 0x7B then
        match skipGaps r with
        | d :: r' => if d.toNat = 0x7D then some (.object [], r') else readFields fuel [] (d :: r')
        | [] => none
      else if c = 'n' then word "null" .null (c :: r)
      else if c = 't' then word "true" (.bool true) (c :: r)
      else if c = 'f' then word "false" (.bool false) (c :: r)
      else readNumeric (c :: r)
def readItems : (fuel : Nat) → List Value → List Char → Option (Value × List Char)
  | 0, _, _ => none
  | fuel + 1, acc, s => do
    let (v, r) ← readValue fuel s
    match skipGaps r with
    | ',' :: r => readItems fuel (v :: acc) r
    | ']' :: r => some (.list (v :: acc).reverse, r)
    | _ => none
def readFields : (fuel : Nat) → List (String × Value) → List Char → Option (Value × List Char)
  | 0, _, _ => none
  | fuel + 1, acc, s =>
    match skipGaps s with
    | c :: r =>
      if c = doubleQuote then do
        let (key, r) ← readText (r.length + 1) [] r
        match skipGaps r with
        | ':' :: r =>
          let (v, r) ← readValue fuel r
          let acc := Value.put key v acc
          match skipGaps r with
          | ',' :: r => readFields fuel acc r
          | d :: r => if d.toNat = 0x7D then some (.object acc, r) else none
          | [] => none
        | _ => none
      else none
    | [] => none
end

/-- The value that a whole text denotes. -/
def parse? (s : String) : Option Value := do
  let cs := s.toList
  let (v, r) ← readValue (2 * cs.length + 2) cs
  if (skipGaps r).isEmpty then some v else none

def escapeChar (c : Char) : List Char :=
  if c = doubleQuote ∨ c = '\\' then ['\\', c]
  else if c = '\n' then ['\\', 'n']
  else if c = '\r' then ['\\', 'r']
  else if c = '\t' then ['\\', 't']
  else if c.toNat = 8 then ['\\', 'b']
  else if c.toNat = 12 then ['\\', 'f']
  else if c.toNat < 0x20 then '\\' :: 'u' :: hexDigits c.toNat 4
  else [c]

/-- A text with its quotes; characters beyond ASCII stand for themselves. -/
def renderText (s : String) : String :=
  String.ofList (doubleQuote :: (s.toList.flatMap escapeChar ++ [doubleQuote]))

/-- A decimal; those that are not finite are words. -/
def renderDecimal (x : Binary64) : String :=
  ((wordNumbers.find? fun w => w.2 = .decimal x).map (·.1)).getD x.text

mutual
/-- A value on one line. -/
def render : Value → String
  | .null => "null"
  | .bool b => if b then "true" else "false"
  | .int n => toString n
  | .decimal x => renderDecimal x
  | .text s => renderText s
  | .list xs => "[" ++ Value.separated ", " (renderItems xs) ++ "]"
  | .object fs => "\x7b" ++ Value.separated ", " (renderFields fs) ++ "\x7d"
def renderItems : List Value → List String
  | [] => []
  | x :: xs => render x :: renderItems xs
def renderFields : List (String × Value) → List String
  | [] => []
  | (k, x) :: xs => (renderText k ++ ": " ++ render x) :: renderFields xs
end

def newline (depth : Nat) : String := "\n" ++ String.ofList (List.replicate (2 * depth) ' ')

/-- Items on lines of their own, one level deeper than their brackets. -/
def block (opening closing : String) (depth : Nat) (items : List String) : String :=
  if items.isEmpty then opening ++ closing
  else opening ++ newline (depth + 1) ++ Value.separated ("," ++ newline (depth + 1)) items ++
    newline depth ++ closing

mutual
/-- A value with one item per line and two spaces of indentation per level. -/
def renderBlock : (depth : Nat) → Value → String
  | depth, .list xs => block "[" "]" depth (blockItems (depth + 1) xs)
  | depth, .object fs => block "\x7b" "\x7d" depth (blockFields (depth + 1) fs)
  | _, .null => "null"
  | _, .bool b => if b then "true" else "false"
  | _, .int n => toString n
  | _, .decimal x => renderDecimal x
  | _, .text s => renderText s
def blockItems : (depth : Nat) → List Value → List String
  | _, [] => []
  | depth, x :: xs => renderBlock depth x :: blockItems depth xs
def blockFields : (depth : Nat) → List (String × Value) → List String
  | _, [] => []
  | depth, (k, x) :: xs => (renderText k ++ ": " ++ renderBlock depth x) :: blockFields depth xs
end

end DeductionBoard.Json
