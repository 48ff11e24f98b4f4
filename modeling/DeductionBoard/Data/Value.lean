import DeductionBoard.Number.Binary64
import DeductionBoard.Text.Numeral
import DeductionBoard.Text.Quoted

/-! Values of stored levels: what a level file can hold in any of its fields. The fields of an
object keep their order, and a key is held once. -/

namespace DeductionBoard

open Number Text

inductive Value where
  | null
  | bool (b : Bool)
  | int (n : Int)
  /-- A number that was written with a point or an exponent. -/
  | decimal (x : Binary64)
  | text (s : String)
  | list (items : List Value)
  | object (fields : List (String × Value))
  deriving Repr, Inhabited

namespace Value

mutual
/-- Equality of values; it decides `a = b`. -/
def same : Value → Value → Bool
  | .null, .null => true
  | .bool a, .bool b => a == b
  | .int a, .int b => a == b
  | .decimal x, .decimal y => x == y
  | .text a, .text b => a == b
  | .list a, .list b => sameItems a b
  | .object a, .object b => sameFields a b
  | _, _ => false
def sameItems : List Value → List Value → Bool
  | [], [] => true
  | x :: xs, y :: ys => same x y && sameItems xs ys
  | _, _ => false
def sameFields : List (String × Value) → List (String × Value) → Bool
  | [], [] => true
  | (k, x) :: xs, (l, y) :: ys => k == l && same x y && sameFields xs ys
  | _, _ => false
end

mutual
theorem eq_of_same : ∀ a b : Value, same a b = true → a = b
  | .null, b, h => by cases b <;> simp_all [same]
  | .bool a, b, h => by cases b <;> simp_all [same]
  | .int a, b, h => by cases b <;> simp_all [same]
  | .decimal x, b, h => by cases b <;> simp_all [same]
  | .text a, b, h => by cases b <;> simp_all [same]
  | .list a, b, h => by
    cases b with
    | list b => rw [eq_of_sameItems a b (by simpa [same] using h)]
    | _ => simp [same] at h
  | .object a, b, h => by
    cases b with
    | object b => rw [eq_of_sameFields a b (by simpa [same] using h)]
    | _ => simp [same] at h
theorem eq_of_sameItems : ∀ a b : List Value, sameItems a b = true → a = b
  | [], b, h => by cases b <;> simp_all [sameItems]
  | x :: xs, b, h => by
    cases b with
    | nil => simp [sameItems] at h
    | cons y ys =>
      rw [sameItems, Bool.and_eq_true] at h
      rw [eq_of_same x y h.1, eq_of_sameItems xs ys h.2]
theorem eq_of_sameFields : ∀ a b : List (String × Value), sameFields a b = true → a = b
  | [], b, h => by cases b <;> simp_all [sameFields]
  | (k, x) :: xs, b, h => by
    cases b with
    | nil => simp [sameFields] at h
    | cons y ys =>
      obtain ⟨l, y⟩ := y
      rw [sameFields, Bool.and_eq_true, Bool.and_eq_true, beq_iff_eq] at h
      rw [h.1.1, eq_of_same x y h.1.2, eq_of_sameFields xs ys h.2]
end

mutual
theorem same_self : ∀ a : Value, same a a = true
  | .null => rfl
  | .bool _ => by simp [same]
  | .int _ => by simp [same]
  | .decimal _ => by simp [same]
  | .text _ => by simp [same]
  | .list a => by rw [same]; exact sameItems_self a
  | .object a => by rw [same]; exact sameFields_self a
theorem sameItems_self : ∀ a : List Value, sameItems a a = true
  | [] => rfl
  | x :: xs => by rw [sameItems, same_self x, sameItems_self xs]; rfl
theorem sameFields_self : ∀ a : List (String × Value), sameFields a a = true
  | [] => rfl
  | (k, x) :: xs => by
    rw [sameFields, same_self x, sameFields_self xs, beq_self_eq_true]; rfl
end

instance : DecidableEq Value := fun a b =>
  decidable_of_iff (same a b = true) ⟨eq_of_same a b, fun h => h ▸ same_self a⟩

/-- A missing value, a zero and an empty text, list or object do not hold. -/
def holds : Value → Bool
  | .null => false
  | .bool b => b
  | .int n => n != 0
  | .decimal x => x.extended != .exact 0
  | .text s => s != ""
  | .list xs => !xs.isEmpty
  | .object fs => !fs.isEmpty

/-- The value under a key. -/
def field? (key : String) : List (String × Value) → Option Value
  | [] => none
  | (k, v) :: r => if k = key then some v else field? key r

/-- Replaces the value of a key where it stands, or adds the key at the end. -/
def put (key : String) (v : Value) : List (String × Value) → List (String × Value)
  | [] => [(key, v)]
  | (k, w) :: r => if k = key then (k, v) :: r else (k, w) :: put key v r

/-- The kind of a value, as messages call it. -/
def kindName : Value → String
  | .null => "NoneType"
  | .bool _ => "bool"
  | .int _ => "int"
  | .decimal _ => "float"
  | .text _ => "str"
  | .list _ => "list"
  | .object _ => "dict"

def separated (sep : String) (xs : List String) : String := String.intercalate sep xs

mutual
/-- A value inside a message: texts are quoted. -/
def shown : Value → String
  | .null => "None"
  | .bool b => if b then "True" else "False"
  | .int n => toString n
  | .decimal x => x.text
  | .text s => quoted s
  | .list xs => "[" ++ separated ", " (shownItems xs) ++ "]"
  | .object fs => "\x7b" ++ separated ", " (shownFields fs) ++ "\x7d"
def shownItems : List Value → List String
  | [] => []
  | x :: xs => shown x :: shownItems xs
def shownFields : List (String × Value) → List String
  | [] => []
  | (k, x) :: xs => (quoted k ++ ": " ++ shown x) :: shownFields xs
end

/-- A value by itself: a text is its own display. -/
def display : Value → String
  | .text s => s
  | v => v.shown

def text? : Value → Option String
  | .text s => some s
  | _ => none

/-- The fields of an object. -/
def fields? : Value → Option (List (String × Value))
  | .object fs => some fs
  | _ => none

/-- The elements that a walk over the value meets: the items of a list, the characters of a text,
the keys of an object. -/
def elements? : Value → Option (List Value)
  | .list xs => some xs
  | .text s => some (s.toList.map fun c => .text (String.singleton c))
  | .object fs => some (fs.map fun f => .text f.1)
  | _ => none

/-- The number that a value stands for: a truth value counts as 0 or 1, and texts are not read. -/
def number? : Value → Option Extended
  | .bool b => some (.ofInt (if b then 1 else 0))
  | .int n => some (.ofInt n)
  | .decimal x => some x.extended
  | _ => none

mutual
/-- Values alike: numbers of every notation by their size, and everything else part by part, where
the order of the fields of an object does not matter. -/
def alike : Value → Value → Bool
  | .null, .null => true
  | .text a, .text b => a == b
  | .list a, .list b => alikeItems a b
  | .object a, .object b => a.length == b.length && alikeFields a b
  | v, w => match v.number?, w.number? with
    | some x, some y => x.same y
    | _, _ => false
def alikeItems : List Value → List Value → Bool
  | [], [] => true
  | x :: xs, y :: ys => alike x y && alikeItems xs ys
  | _, _ => false
def alikeFields : List (String × Value) → List (String × Value) → Bool
  | [], _ => true
  | (k, x) :: xs, ys =>
    (match field? k ys with
     | some y => alike x y
     | none => false) && alikeFields xs ys
end

/-- Lists and objects cannot be members of a set or keys of a table. -/
def isKey : Value → Bool
  | .list _ | .object _ => false
  | _ => true

/-- Values without those that are alike to an earlier one. -/
def distinct (vs : List Value) : List Value :=
  vs.foldl (fun acc v => if acc.any (alike v) then acc else acc ++ [v]) []

/-- Texts in ascending order, or numbers by their size; other values stand in no order. -/
def below? (v w : Value) : Option Bool :=
  match v, w with
  | .text a, .text b => some (a < b)
  | v, w => match v.number?, w.number? with
    | some x, some y => some (x.lt y)
    | _, _ => none

/-- Why a value is no whole number. -/
inductive IntegerFault where
  | numeral (s : String) (f : NumeralFault)
  | infinite
  | undefined
  | notANumber (kind : String)
  deriving DecidableEq, Repr

/-- A whole number: numbers lose their fraction, a truth value counts as 0 or 1, and a text is read
as a numeral. -/
def toInteger : Value → Except IntegerFault Int
  | .bool b => .ok (if b then 1 else 0)
  | .int n => .ok n
  | .decimal x => match x.truncate?, x with
    | some n, _ => .ok n
    | none, .undefined => .error .undefined
    | none, _ => .error .infinite
  | .text s =>
    match readInt s with
    | .ok n => .ok n
    | .error f => .error (.numeral s f)
  | v => .error (.notANumber v.kindName)

end Value

end DeductionBoard
