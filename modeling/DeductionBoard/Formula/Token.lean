import DeductionBoard.Text.Quoted

/-! Tokens of the formula notation. A text is cut into lexemes with blanks between them; an
identifier is as long as it can be. Main definition: `Token.scan`. -/

namespace DeductionBoard

open Text

namespace Token

inductive Kind where
  | arrow
  | and
  | or
  | not
  | all
  | exist
  | identifier
  | opening
  | closing
  | comma
  | dot
  | endOfText
  deriving DecidableEq, Repr

def Kind.name : Kind → String
  | .arrow => "arrow"
  | .and => "and"
  | .or => "or"
  | .not => "not"
  | .all => "forall"
  | .exist => "exists"
  | .identifier => "ident"
  | .opening => "("
  | .closing => ")"
  | .comma => ","
  | .dot => "."
  | .endOfText => "eof"

end Token

/-- A lexeme and the position of its first character. -/
structure Token where
  kind : Token.Kind
  text : String
  position : Nat
  deriving DecidableEq, Repr

namespace Token

def isIdentifierStart (c : Char) : Bool := c.isAlpha || c == '_'

def isIdentifierPart (c : Char) : Bool := c.isAlphanum || c == '_'

/-- The kind of a word: the names of the quantifiers are no identifiers. -/
def wordKind (w : List Char) : Kind :=
  if w = "forall".toList then .all else if w = "exists".toList then .exist else .identifier

/-- The signs and what they mean; no sign begins another. -/
def signs : List (List Char × Kind) :=
  [(['-', '>'], .arrow), (['=', '>'], .arrow), (['→'], .arrow),
   (['&'], .and), (['/', '\\'], .and), (['∧'], .and),
   (['|'], .or), (['\\', '/'], .or), (['∨'], .or),
   (['~'], .not), (['!'], .not), (['¬'], .not), (['∀'], .all), (['∃'], .exist),
   (['('], .opening), ([')'], .closing), ([','], .comma), (['.'], .dot)]

/-- The sign that a text begins with: its kind and its length. -/
def sign? (s : List Char) : Option (Kind × Nat) :=
  (signs.find? fun e => e.1.isPrefixOf s).map fun e => (e.2, e.1.length)

/-- The lexeme that a text begins with: its kind and its length. -/
def lexeme? : List Char → Option (Kind × Nat)
  | [] => none
  | c :: r =>
    if isIdentifierStart c then
      let w := c :: r.takeWhile isIdentifierPart
      some (wordKind w, w.length)
    else sign? (c :: r)

theorem sign?_pos {s : List Char} {k : Kind} {n : Nat} (h : sign? s = some (k, n)) : 0 < n := by
  obtain ⟨e, he, hk⟩ := Option.map_eq_some_iff.mp h
  have hall : ∀ e ∈ signs, 0 < e.1.length := by decide
  have := hall e (List.mem_of_find?_eq_some he)
  simp only [Prod.mk.injEq] at hk
  omega

theorem lexeme?_pos {s : List Char} {k : Kind} {n : Nat} (h : lexeme? s = some (k, n)) : 0 < n := by
  cases s with
  | nil => simp [lexeme?] at h
  | cons c r =>
    by_cases hc : isIdentifierStart c = true
    · simp only [lexeme?, hc, if_true, Option.some.injEq, Prod.mk.injEq, List.length_cons] at h
      omega
    · simp only [lexeme?, hc] at h
      exact sign?_pos h

/-- The tokens of a text that begins at `position`, or the position of a character at which no
lexeme starts. -/
def scanFrom (position : Nat) (s : List Char) : Except Nat (List Token) :=
  match s with
  | [] => .ok [⟨.endOfText, "", position⟩]
  | c :: r =>
    if isBlank c then scanFrom (position + 1) r
    else
      match _h : lexeme? (c :: r) with
      | none => .error position
      | some (k, n) =>
        match scanFrom (position + n) ((c :: r).drop n) with
        | .error e => .error e
        | .ok ts => .ok (⟨k, String.ofList ((c :: r).take n), position⟩ :: ts)
termination_by s.length
decreasing_by
  · simp
  · have := lexeme?_pos _h
    simp only [List.length_drop, List.length_cons]
    omega

/-- The tokens of a text, the last of them at its end; blanks at the end do not count. -/
def scan (s : List Char) : Except Nat (List Token) := scanFrom 0 (trimRight s)

end Token

end DeductionBoard
