import GmlLift.Json.Range
import GmlLift.Table

/-! JSON values, and records read from them.

A record is written as an object, each of its fields at most once and unknown fields ignored, or as
an array of its fields in order. Containers nest at most 127 deep. -/

namespace GmlLift.Json

inductive Value where
  | null
  | bool (b : Bool)
  /-- A whole number of 64 bits, or any other number. -/
  | number (n : Option Int)
  | string (s : String)
  | array (items : List Value)
  /-- Fields by ascending key, each key once. -/
  | object (fields : List (String × Value))

namespace Value

def string? : Value → Option String
  | .string s => some s
  | _ => none

def int? : Value → Option Int
  | .number n => n
  | _ => none

def object? : Value → Option (List (String × Value))
  | .object fields => some fields
  | _ => none

def array? : Value → Option (List Value)
  | .array items => some items
  | _ => none

/-- A field of an object. -/
def field? (v : Value) (key : String) : Option Value := v.object?.bind fun fs => fs.lookup key

end Value

/-- The value of a numeral without point and exponent that fits 64 bits. Minus zero is no whole
number. -/
def Numeral.int? (n : Numeral) : Option Int := do
  if n.fraction.isSome || n.exponent.isSome then none
  let m : Int := Nat.ofDigitChars 10 n.whole 0
  if n.negative then if 0 < m ∧ m ≤ 0x8000000000000000 then some (-m) else none
  else if m < 0x8000000000000000 then some m else none

/-- How deep containers may nest. -/
def depthLimit : Nat := 127

namespace Raw

mutual

/-- The meaning of a value that stands inside `depth` containers. -/
def value? (depth : Nat) : Raw → Option Value
  | .null => some .null
  | .bool b => some (.bool b)
  | .number n => if n.inRange then some (.number n.int?) else none
  | .string t => t.map .string
  | .array xs => if depth < depthLimit then (valueList? (depth + 1) xs).map .array else none
  | .object fs =>
    if depth < depthLimit then (valueFields? (depth + 1) fs).map fun t => .object t.items
    else none
termination_by structural x => x

def valueList? (depth : Nat) : List Raw → Option (List Value)
  | [] => some []
  | x :: rest => do return (← value? depth x) :: (← valueList? depth rest)
termination_by structural x => x

/-- Fields in a table; of fields with one key the last stays. -/
def valueFields? (depth : Nat) : List (Option String × Raw) → Option (Table String Value)
  | [] => some ∅
  | (key, x) :: rest => do
    let key ← key
    let v ← value? depth x
    let later ← valueFields? depth rest
    return later.insertNew key v
termination_by structural x => x

end

/-- A table of values by key. -/
def map? (depth : Nat) (r : Raw) : Option (List (String × Value)) :=
  (value? depth r).bind Value.object?

def bool? : Raw → Option Bool
  | .bool b => some b
  | _ => none

def string? : Raw → Option String
  | .string t => t
  | _ => none

/-- A list of strings. -/
def strings? (depth : Nat) : Raw → Option (List String)
  | .array xs => if depth < depthLimit then xs.mapM string? else none
  | _ => none

/-- The value of a field, which may occur once. -/
def once? (fields : List (String × Raw)) (name : String) : Option (Option Raw) :=
  match fields.filter fun f => f.1 == name with
  | [] => some none
  | [(_, r)] => some (some r)
  | _ => none

/-- The fields of a record, in the order of their names; those that are not given are missing. -/
def record? (depth : Nat) (names : List String) : Raw → Option (List (Option Raw))
  | .object fs => do
    if depth ≥ depthLimit then none
    let fields ← fs.mapM fun (key, r) => key.map (·, r)
    names.mapM (once? fields)
  | .array xs =>
    if depth < depthLimit ∧ xs.length ≤ names.length then
      some (xs.map some ++ List.replicate (names.length - xs.length) none)
    else none
  | _ => none

/-- A field that has a default. -/
def orDefault {α : Type} (default : α) (read : Raw → Option α) : Option Raw → Option α
  | none => some default
  | some r => read r

end Raw

end GmlLift.Json
