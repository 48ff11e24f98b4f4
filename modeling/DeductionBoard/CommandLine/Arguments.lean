import DeductionBoard.Text.Numeral

/-! The arguments of the command line. Options may stand before and after the file, may be shortened
as long as they stay unique, and take a value from the next word or after an equals sign. After a
double dash nothing is an option. -/

namespace DeductionBoard.CommandLine

inductive Flag where
  | help
  | tutorial
  | allTutorials
  | mode
  | backend
  | command
  | timeout
  | verbose
  deriving DecidableEq, Repr

/-- How many words an option takes. -/
inductive Takes where
  | nothing
  | one
  | several
  deriving DecidableEq, Repr

def Flag.takes : Flag → Takes
  | .help | .allTutorials | .verbose => .nothing
  | .command => .several
  | _ => .one

def longFlags : List (String × Flag) :=
  [("--help", .help), ("--tutorial", .tutorial), ("--all-tutorials", .allTutorials),
   ("--mode", .mode), ("--backend", .backend), ("--command", .command), ("--timeout", .timeout),
   ("--verbose", .verbose)]

def shortFlags : List (Char × Flag) := [('h', .help), ('v', .verbose)]

/-- How a word of one-letter flags ends. -/
inductive Ending where
  | complete
  /-- A letter that is no flag; it is refused once all words have been read. -/
  | unknown
  /-- An equals sign or a dash; the word is refused where it is read. -/
  | refused
  deriving DecidableEq, Repr

/-- A word of the command line. -/
inductive Word where
  | operand (s : String)
  | separator
  /-- An option with the value after its equals sign. -/
  | option (f : Flag) (value : Option String)
  /-- Flags of one letter in one word. -/
  | flags (fs : List Flag) (ending : Ending)
  /-- The beginning of several options. -/
  | ambiguous
  /-- What looks like an option that does not exist. -/
  | unknown
  deriving DecidableEq, Repr

/-- The text before the first equals sign and the text after it. -/
def splitEquals (s : List Char) : List Char × Option (List Char) :=
  match s.dropWhile fun c => c != '=' with
  | [] => (s, none)
  | _ :: r => (s.takeWhile fun c => c != '=', some r)

/-- A decimal digit of any script. -/
def isDecimalDigit (c : Char) : Bool := (Text.digit? c).isSome

/-- A minus sign and a number, with or without a whole part before its point. -/
def isNegative : List Char → Bool
  | '-' :: r =>
    let whole := r.takeWhile isDecimalDigit
    match r.dropWhile isDecimalDigit with
    | [] => !whole.isEmpty
    | '.' :: fraction => !fraction.isEmpty && fraction.all isDecimalDigit
    | _ => false
  | _ => false

/-- A negative number, possibly with one line feed after it. -/
def isNegativeNumber (s : List Char) : Bool :=
  isNegative s || (s.getLast? = some '\n' && isNegative s.dropLast)

/-- A word that begins with two dashes. -/
def longWord (s : List Char) : Option Word :=
  let name := String.ofList (splitEquals s).1
  let value := (splitEquals s).2.map String.ofList
  match List.lookup name longFlags with
  | some f => some (.option f value)
  | none =>
    match longFlags.filter fun f => name.isPrefixOf f.1 with
    | [] => none
    | [f] => some (.option f.2 value)
    | _ => some .ambiguous

/-- The flags that follow the first letter of a word, and how the word ends. -/
def shortTail : List Char → List Flag × Ending
  | [] => ([], .complete)
  | c :: r =>
    if c = '=' ∨ c = '-' then ([], .refused)
    else match List.lookup c shortFlags with
      | none => ([], .unknown)
      | some f => (f :: (shortTail r).1, (shortTail r).2)

/-- A word that begins with one dash. -/
def shortWord : List Char → Option Word
  | [] => none
  | c :: r => (List.lookup c shortFlags).map fun f => .flags (f :: (shortTail r).1) (shortTail r).2

/-- A word as far as it can be told without the words around it. -/
def classify (s : String) : Word :=
  match s.toList with
  | ['-', '-'] => .separator
  | '-' :: c :: r =>
    match (if c = '-' then longWord ('-' :: c :: r) else shortWord (c :: r)) with
    | some w => w
    | none =>
      if isNegativeNumber ('-' :: c :: r) ∨ ' ' ∈ c :: r then .operand s else .unknown
  | _ => .operand s

/-- The words of a command line; after a separator all are operands. -/
def wordsOf : List String → List Word
  | [] => []
  | s :: r => match classify s with
    | .separator => .separator :: r.map .operand
    | w => w :: wordsOf r

structure Arguments where
  puzzle : Option String
  tutorial : Option String
  allTutorials : Bool
  mode : String
  backend : String
  command : Option (List String)
  timeout : Option Int
  verbose : Bool
  deriving DecidableEq, Repr

def Arguments.default : Arguments := ⟨none, none, false, "editor", "z3", none, none, false⟩

/-- Why there are no arguments. -/
inductive Stop where
  | help
  | usage
  deriving DecidableEq, Repr

def modes : List String := ["player", "editor", "interactive"]

def backends : List String := ["z3", "process"]

/-- Sets an option that takes no value. -/
def Arguments.raise (a : Arguments) : Flag → Except Stop Arguments
  | .help => .error .help
  | .allTutorials => .ok { a with allTutorials := true }
  | .verbose => .ok { a with verbose := true }
  | _ => .error .usage

/-- Sets an option that takes values. -/
def Arguments.assign (a : Arguments) (f : Flag) (values : List String) : Except Stop Arguments :=
  match f, values with
  | .tutorial, [v] => .ok { a with tutorial := some v }
  | .mode, [v] => if v ∈ modes then .ok { a with mode := v } else .error .usage
  | .backend, [v] => if v ∈ backends then .ok { a with backend := v } else .error .usage
  | .timeout, [v] => match Text.readInt v with
    | .ok n => .ok { a with timeout := some n }
    | .error _ => .error .usage
  | .command, v :: vs => .ok { a with command := some (v :: vs) }
  | _, _ => .error .usage

/-- The operands at the beginning of the words, and the words after them. -/
def operands : List Word → List String × List Word
  | .operand s :: r => (s :: (operands r).1, (operands r).2)
  | ws => ([], ws)

theorem length_operands_le (ws : List Word) : (operands ws).2.length ≤ ws.length := by
  induction ws with
  | nil => exact Nat.le_refl _
  | cons w r ih =>
    cases w with
    | operand s => exact Nat.le_succ_of_le ih
    | _ => exact Nat.le_refl _

/-- What has been read: the arguments, whether the file has been given, and whether there is a word
that nothing takes. -/
structure Reading where
  arguments : Arguments
  fileGiven : Bool
  leftOver : Bool

/-- Reads the words in order. -/
def Reading.read (s : Reading) (ws : List Word) : Except Stop Reading :=
  match ws with
  | [] => .ok s
  | .ambiguous :: _ => .error .usage
  | .unknown :: r => { s with leftOver := true }.read r
  | .flags fs ending :: r =>
    if ending = .refused then .error .usage
    else match fs.foldlM Arguments.raise s.arguments with
      | .error e => .error e
      | .ok a =>
        { s with arguments := a, leftOver := s.leftOver || ending = Ending.unknown }.read r
  | .option f value :: r =>
    match f.takes, value with
    | .nothing, some _ => .error .usage
    | .nothing, none => match s.arguments.raise f with
      | .error e => .error e
      | .ok a => { s with arguments := a }.read r
    | _, some v => match s.arguments.assign f [v] with
      | .error e => .error e
      | .ok a => { s with arguments := a }.read r
    | .one, none => match r with
      | .operand v :: r => match s.arguments.assign f [v] with
        | .error e => .error e
        | .ok a => { s with arguments := a }.read r
      | _ => .error .usage
    | .several, none => match s.arguments.assign f (operands r).1 with
      | .error e => .error e
      | .ok a => { s with arguments := a }.read (operands r).2
  | .operand v :: r =>
    if s.fileGiven then { s with leftOver := true }.read r
    else
      let s : Reading := ⟨{ s.arguments with puzzle := some v }, true, s.leftOver⟩
      match r with
      | .separator :: r => s.read r
      | r => s.read r
  | .separator :: r =>
    if s.fileGiven then { s with leftOver := true }.read r
    else match r with
      | .operand v :: r =>
        Reading.read ⟨{ s.arguments with puzzle := some v }, true, s.leftOver⟩ r
      | r => Reading.read ⟨s.arguments, true, s.leftOver⟩ r
termination_by ws.length
decreasing_by all_goals grind [length_operands_le]

/-- The arguments of a command line. An ambiguous word is refused before any other is read, and what
is left over once all have been read. -/
def Arguments.ofWords (words : List String) : Except Stop Arguments :=
  if .ambiguous ∈ wordsOf words then .error .usage
  else match (Reading.mk Arguments.default false false).read (wordsOf words) with
    | .error e => .error e
    | .ok s => if s.leftOver then .error .usage else .ok s.arguments

end DeductionBoard.CommandLine
