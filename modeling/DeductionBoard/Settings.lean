import DeductionBoard.Data.Value
import DeductionBoard.Query.Entailment

/-! Settings of the solver, the encoder, the rule checker and the construction search, with the
defaults of each calling surface. Every setting keeps the value it was given. Settings that are built
from values are validated; settings that are changed field by field are not, and a value of the wrong
kind shows when it is used. -/

namespace DeductionBoard

/-- Why settings cannot be built. -/
inductive SettingsFault where
  | unknownBackend (shown : String)
  | timeoutNotPositive (field : String)
  | tooFewWorkers
  | searchLimitNotPositive
  | unknownMode (mode : String)
  /-- An unknown field, or a value of the wrong kind. -/
  | illTyped
  deriving DecidableEq, Repr

/-- The wording of a fault; ill-typed values have none. -/
def SettingsFault.message? : SettingsFault → Option String
  | .unknownBackend b => some ("Unknown solver backend '" ++ b ++ "'")
  | .timeoutNotPositive f => some (f ++ " must be positive (timeouts are mandatory)")
  | .tooFewWorkers => some "max_workers must be >= 1"
  | .searchLimitNotPositive => some "Search limits must be positive"
  | .unknownMode m => some ("Unknown mode '" ++ m ++ "'")
  | .illTyped => none

structure SolverSettings where
  backend : Value
  checkTimeout : Value
  hintTimeout : Value
  solvabilityTimeout : Value
  workers : Value
  command : Value
  deriving DecidableEq, Repr

structure EncoderSettings where
  sortName : Value
  skolemize : Value
  exportTheory : Value
  deriving DecidableEq, Repr

structure CheckerSettings where
  /-- Open assumptions have to be premises of the puzzle. -/
  requireDeclared : Value
  deriving DecidableEq, Repr

structure SearchSettings where
  maxDepth : Value
  maxNodes : Value
  deriving DecidableEq, Repr

structure Settings where
  mode : String
  solver : SolverSettings
  encoder : EncoderSettings
  checker : CheckerSettings
  search : SearchSettings
  deriving DecidableEq, Repr

def commandValue (words : List String) : Value := .list (words.map .text)

def SolverSettings.standard : SolverSettings :=
  ⟨.text "z3", .int 5000, .int 1500, .int 10000, .int 2, commandValue ["cvc5", "--lang=smt2"]⟩

/-- The settings that encode as the options say. -/
def EncoderSettings.ofOptions (o : Query.Options) : EncoderSettings :=
  ⟨.text o.sortName, .bool o.skolemize, .bool o.exportTheory⟩

def EncoderSettings.standard : EncoderSettings := .ofOptions Query.Options.standard

def CheckerSettings.standard : CheckerSettings := ⟨.bool true⟩

def SearchSettings.standard : SearchSettings := ⟨.int 6, .int 5000⟩

def Settings.standard : Settings :=
  ⟨"player", SolverSettings.standard, EncoderSettings.standard, CheckerSettings.standard,
    SearchSettings.standard⟩

/-- The options that the settings ask for; the sort has to be a text. -/
def EncoderSettings.options (s : EncoderSettings) : Except Query.Fault Query.Options :=
  match s.sortName with
  | .text n => .ok ⟨n, s.skolemize.holds, s.exportTheory.holds⟩
  | _ => .error .illTyped

/-- The settings of a calling surface: publishing may take long, and an interactive grid has to stay
responsive. -/
def Settings.forMode (mode : String) : Except SettingsFault Settings :=
  let s := Settings.standard
  if mode = "player" then .ok s
  else if mode = "editor" then
    .ok { s with mode := mode, solver := { s.solver with solvabilityTimeout := .int 30000 },
                 search := ⟨.int 8, .int 20000⟩ }
  else if mode = "interactive" then
    .ok { s with mode := mode
                 solver := { s.solver with checkTimeout := .int 3000, hintTimeout := .int 750 }
                 search := { s.search with maxDepth := .int 4 } }
  else .error (.unknownMode mode)

namespace SettingsFields

abbrev Fields := List (String × Value)

/-- The fields of the object under a key. -/
def part (key : String) (fs : Fields) : Fields :=
  match Value.field? key fs with
  | some (.object gs) => gs
  | _ => []

/-- Every field has one of the names. -/
def known (names : List String) (fs : Fields) : Bool := fs.all fun f => f.1 ∈ names

/-- The value under a key, or another one where there is none. -/
def value (key : String) (default : Value) (fs : Fields) : Value := (Value.field? key fs).getD default

/-- Whether a number is at most another one. -/
def atMost (n : Int) (v : Value) : Except SettingsFault Bool :=
  match v.number? with
  | some x => .ok (x.le (.ofInt n))
  | none => .error .illTyped

/-- Whether a number is below another one. -/
def less (v : Value) (n : Int) : Except SettingsFault Bool :=
  match v.number? with
  | some x => .ok (x.lt (.ofInt n))
  | none => .error .illTyped

/-- A time limit that has to be positive. -/
def judgeTimeout (key : String) (v : Value) : Except SettingsFault Unit := do
  if ← atMost 0 v then .error (.timeoutNotPositive key)

/-- A command: the items of a list, the characters of a text or the keys of an object. -/
def words (v : Value) : Except SettingsFault Value :=
  match v.elements? with
  | some xs => .ok (.list xs)
  | none => .error .illTyped

end SettingsFields

open SettingsFields

def SolverSettings.fields (s : SolverSettings) : Fields :=
  [("backend", s.backend), ("check_timeout_ms", s.checkTimeout),
   ("hint_timeout_ms", s.hintTimeout), ("solvability_timeout_ms", s.solvabilityTimeout),
   ("max_workers", s.workers), ("process_command", s.command)]

def EncoderSettings.fields (s : EncoderSettings) : Fields :=
  [("sort_name", s.sortName), ("skolemize_hypotheses", s.skolemize),
   ("export_isabelle", s.exportTheory)]

def CheckerSettings.fields (c : CheckerSettings) : Fields :=
  [("require_declared_premises", c.requireDeclared)]

def SearchSettings.fields (s : SearchSettings) : Fields :=
  [("max_depth", s.maxDepth), ("max_nodes", s.maxNodes)]

def Settings.fields (s : Settings) : Fields :=
  [("mode", .text s.mode), ("solver", .object s.solver.fields),
   ("encoder", .object s.encoder.fields), ("checker", .object s.checker.fields),
   ("search", .object s.search.fields)]

/-- Changes the given fields without judging them. -/
def SolverSettings.update (s : SolverSettings) (fs : Fields) : SolverSettings :=
  ⟨value "backend" s.backend fs, value "check_timeout_ms" s.checkTimeout fs,
    value "hint_timeout_ms" s.hintTimeout fs,
    value "solvability_timeout_ms" s.solvabilityTimeout fs,
    value "max_workers" s.workers fs, value "process_command" s.command fs⟩

def EncoderSettings.update (s : EncoderSettings) (fs : Fields) : EncoderSettings :=
  ⟨value "sort_name" s.sortName fs, value "skolemize_hypotheses" s.skolemize fs,
    value "export_isabelle" s.exportTheory fs⟩

def CheckerSettings.update (c : CheckerSettings) (fs : Fields) : CheckerSettings :=
  ⟨value "require_declared_premises" c.requireDeclared fs⟩

def SearchSettings.update (s : SearchSettings) (fs : Fields) : SearchSettings :=
  ⟨value "max_depth" s.maxDepth fs, value "max_nodes" s.maxNodes fs⟩

/-- The fields have names that are known. -/
def SettingsFields.judgeNames (known given : Fields) : Except SettingsFault Unit :=
  if SettingsFields.known (known.map (·.1)) given then .ok () else .error .illTyped

/-- Solver settings from fields: the backend is judged first, then the timeouts, the workers and the
command. -/
def SolverSettings.ofFields (fs : Fields) : Except SettingsFault SolverSettings := do
  let d := SolverSettings.standard
  judgeNames d.fields fs
  let s := d.update fs
  if s.backend ≠ .text "z3" ∧ s.backend ≠ .text "process" then
    .error (.unknownBackend s.backend.display)
  judgeTimeout "check_timeout_ms" s.checkTimeout
  judgeTimeout "hint_timeout_ms" s.hintTimeout
  judgeTimeout "solvability_timeout_ms" s.solvabilityTimeout
  if ← less s.workers 1 then .error .tooFewWorkers
  return { s with command := ← words s.command }

/-- Encoder settings from fields of any kind. -/
def EncoderSettings.ofFields (fs : Fields) : Except SettingsFault EncoderSettings := do
  judgeNames EncoderSettings.standard.fields fs
  return EncoderSettings.standard.update fs

/-- Checker settings from fields of any kind. -/
def CheckerSettings.ofFields (fs : Fields) : Except SettingsFault CheckerSettings := do
  judgeNames CheckerSettings.standard.fields fs
  return CheckerSettings.standard.update fs

/-- Search settings from fields: the depth is judged before the number of nodes. -/
def SearchSettings.ofFields (fs : Fields) : Except SettingsFault SearchSettings := do
  judgeNames SearchSettings.standard.fields fs
  let s := SearchSettings.standard.update fs
  if ← less s.maxDepth 1 then .error .searchLimitNotPositive
  if ← less s.maxNodes 1 then .error .searchLimitNotPositive
  return s

/-- The settings of the mode in a field, with the fields of every part changed; without a mode they
are the player's. -/
def Settings.ofFields (fs : Fields) : Except SettingsFault Settings := do
  let mode := (Value.field? "mode" fs).getD .null
  let s ← Settings.forMode (if mode.holds then mode.display else Settings.standard.mode)
  return { s with
    solver := s.solver.update (part "solver" fs)
    encoder := s.encoder.update (part "encoder" fs)
    checker := s.checker.update (part "checker" fs)
    search := s.search.update (part "search" fs) }

end DeductionBoard
