import GmlLift.Json.Value
import GmlLift.Naming.Rule
import GmlLift.Text.Quoted

/-! Rule books from JSON.

```json
{ "Types": { "RegisterBasic": true, "Enums": ..., "Constants": ..., "General": ... },
  "GlobalNames": { "Variables": { "state": "State" }, ... },
  "CodeEntryNames": { "gml_Script_foo": { "Variables": { "x": "Bool" } } },
  "NamedArguments": { "gml_Script_foo": ["first", "second"] } }
```

Named rules may refer to each other in any order. A rule that refers to itself, directly or through
others, refers to an unknown rule. -/

namespace GmlLift

open Json (Value Raw)
open Text (quoted)

/-- What is wrong with a description. -/
inductive DescriptionFault where
  | valuesNotObject
  | innerValuesNotObject
  | unnamedValue (key : String)
  | unvaluedName (key : String)
  | noKind
  | missingField (kind field : String)
  | membersNotArray
  | notDescription
deriving DecidableEq

def DescriptionFault.message : DescriptionFault → String
  | valuesNotObject => "expected an object of values"
  | innerValuesNotObject => "\"Values\" must be an object"
  | unnamedValue key => "value " ++ key ++ " needs a name"
  | unvaluedName key => key ++ " needs an integer value"
  | noKind => "object without \"MacroType\""
  | missingField kind field => kind ++ " needs \"" ++ field ++ "\""
  | membersNotArray => "\"Types\" must be an array"
  | notDescription => "expected a string, array or object"

inductive RuleError where
  /-- Not JSON, or not of the right shape. -/
  | json
  | unknownKind (context name : String)
  | unknownReference (context name : String)
  | malformed (context : String) (fault : DescriptionFault)
deriving DecidableEq

def RuleError.message : RuleError → String
  | json => "registry JSON"
  | unknownKind context name => context ++ ": unknown macro type " ++ quoted name
  | unknownReference context name =>
    context ++ ": reference to unregistered type " ++ quoted name
  | malformed context fault => context ++ ": " ++ fault.message

namespace RuleLoad

/-- One value: a number with its name, or a name with its number. -/
def entry (context : String) (key : String) (v : Value) : Except RuleError (Int × String) :=
  match Text.readInt 64 key.toList with
  | some n => match v.string? with
    | some name => .ok (n, name)
    | none => .error (.malformed context (.unnamedValue key))
  | none => match v.int? with
    | some n => .ok (n, key)
    | none => .error (.malformed context (.unvaluedName key))

/-- Named numbers, either the object itself or its field `Values`. -/
def values (context : String) (v : Value) : Except RuleError (Table Int String) := do
  match v.object? with
  | none => throw (.malformed context .valuesNotObject)
  | some fields =>
    let fields ← match fields.lookup "Values" with
      | none => pure fields
      | some inner => match inner.object? with
        | some fields => pure fields
        | none => throw (.malformed context .innerValuesNotObject)
    let entries ← fields.mapM fun (key, x) => entry context key x
    return Table.ofList entries

/-- Rules read so far, and the names whose descriptions are being read. -/
structure State where
  resolved : Table String Rule
  resolving : List String := []

abbrev Load (α : Type) := StateT State (Except RuleError) α

def need {α : Type} (error : RuleError) : Option α → Load α
  | some a => pure a
  | none => throw error

section

-- how a name is looked up, for a description in a context
variable (refer : (context name : String) → Load Rule)

mutual

/-- The rule that a description gives. -/
def description (context : String) : Value → Load Rule
  | .string name => refer context name
  | .array xs => return .arguments (← optional context xs)
  | .object fields => do
    let kind ← need (.malformed context .noKind) ((fields.lookup "MacroType").bind Value.string?)
    let field (name : String) : Load Value :=
      need (.malformed context (.missingField kind name)) (fields.lookup name)
    let text (name : String) : Option String := (fields.lookup name).bind Value.string?
    if kind = "Enum" then
      return .enumeration ((text "Name").getD context) (← values context (← field "Values"))
    else if kind = "Constants" then return .constants (← values context (← field "Values"))
    else if kind = "Union" then
      let _ ← field "Types"
      return .union (← membersIn context fields)
    else if kind = "Intersect" then
      let _ ← field "Types"
      return .intersect (← membersIn context fields)
    else if kind = "ArrayInit" then
      let _ ← field "Type"
      return .items (← elementIn context fields)
    else if kind = "Match" then return .accepts (text "ConditionalType") (text "ConditionalValue")
    else if kind = "MatchNot" then
      return .refuses (text "ConditionalType") (text "ConditionalValue")
    else throw (.unknownKind context kind)
  | .null | .bool _ | .number _ => throw (.malformed context .notDescription)
termination_by structural x => x

/-- Rules of a list in which `null` stands for none. -/
def optional (context : String) : List Value → Load (List (Option Rule))
  | [] => return []
  | .null :: rest => return none :: (← optional context rest)
  | x :: rest => do
    let rule ← description context x
    return some rule :: (← optional context rest)
termination_by structural x => x

def members (context : String) : List Value → Load (List Rule)
  | [] => return []
  | x :: rest => do
    let rule ← description context x
    return rule :: (← members context rest)
termination_by structural x => x

/-- The rules in the field `Types`. -/
def membersIn (context : String) : List (String × Value) → Load (List Rule)
  | [] => throw (.malformed context .membersNotArray)
  | (key, x) :: rest =>
    if key = "Types" then match x with
      | .array xs => members context xs
      | _ => throw (.malformed context .membersNotArray)
    else membersIn context rest
termination_by structural x => x

/-- The rule in the field `Type`. -/
def elementIn (context : String) : List (String × Value) → Load Rule
  | [] => throw (.malformed context .notDescription)
  | (key, x) :: rest => if key = "Type" then description context x else elementIn context rest
termination_by structural x => x

end

end

/-- The rule of a name: one read before, or the one that its description gives. Each name is
entered once on the way down, so the number of descriptions bounds the depth. -/
def named (raw : Table String Value) : (fuel : Nat) → (context name : String) → Load Rule
  | fuel, context, name => do
    let s ← get
    match s.resolved.get? name with
    | some rule => return rule
    | none =>
      let unknown : RuleError := .unknownReference context name
      let v ← need unknown (raw.get? name)
      if s.resolving.contains name then throw unknown
      match fuel with
      | 0 => throw unknown
      | fuel + 1 =>
        set { s with resolving := name :: s.resolving }
        let rule ← description (named raw fuel) name v
        modify fun s =>
          { resolved := s.resolved.insert name rule, resolving := s.resolving.erase name }
        return rule

/-- Look a name up with enough fuel. -/
def refer (raw : Table String Value) : (context name : String) → Load Rule :=
  named raw (raw.size + 1)

/-- Read the descriptions of the given names in order. -/
def readAll (raw : Table String Value) : List String → Load Unit
  | [] => return ()
  | name :: rest => do
    let _ ← refer raw name name
    readAll raw rest

/-- The rules of a list of named descriptions. -/
def table (raw : Table String Value) : List (String × Value) → Load (Table String Rule)
  | [] => return ∅
  | (name, v) :: rest => do
    let rule ← description (refer raw) name v
    return (← table raw rest).insertNew name rule

/-- A section of names with their descriptions. -/
structure NamesSection where
  vars : List (String × Value) := []
  arguments : List (String × Value) := []
  returns : List (String × Value) := []

def nameRules (raw : Table String Value) (s : NamesSection) : Load NameRules :=
  return ⟨← table raw s.vars, ← table raw s.arguments, ← table raw s.returns⟩

/-- The sections of names, each for one entry. -/
def entryRules (raw : Table String Value) : List (String × NamesSection) →
    Load (Table String NameRules)
  | [] => return ∅
  | (entry, s) :: rest => do
    let rules ← nameRules raw s
    return (← entryRules raw rest).insertNew entry rules

/-- The whole document. -/
structure Document where
  registerBasic : Bool
  enums : List (String × Value)
  constants : List (String × Value)
  /-- Descriptions by name; of several with one name the last counts. -/
  descriptions : Table String Value
  everywhere : NamesSection
  entries : Table String NamesSection
  argumentNames : Table String (List String)

def namesSection? (depth : Nat) (r : Raw) : Option NamesSection := do
  match ← r.record? depth ["Variables", "FunctionArguments", "FunctionReturn"] with
  | [v, a, f] =>
    let read := Raw.orDefault [] (Raw.map? (depth + 1))
    return ⟨← read v, ← read a, ← read f⟩
  | _ => none

/-- A table whose values are read one by one; of values with one key the last stays. -/
def tableOf? {α : Type} (depth : Nat) (read : Raw → Option α) : Raw → Option (Table String α)
  | .object fs => do
    if depth ≥ Json.depthLimit then none
    let entries ← fs.mapM fun (key, r) => do return (← key, ← read r)
    return Table.ofList entries
  | _ => none

structure TypesSection where
  registerBasic : Bool := false
  enums : List (String × Value) := []
  constants : List (String × Value) := []
  descriptions : Table String Value := ∅

def typesSection? (depth : Nat) (r : Raw) : Option TypesSection := do
  match ← r.record? depth
      ["RegisterBasic", "Enums", "Constants", "General", "Other", "Custom"] with
  | [b, e, c, g, o, u] =>
    let read := Raw.orDefault [] (Raw.map? (depth + 1))
    let basic ← Raw.orDefault false Raw.bool? b
    let (enums, constants) := (← read e, ← read c)
    let (general, other, custom) := (← read g, ← read o, ← read u)
    return ⟨basic, enums, constants, Table.ofList (general ++ other ++ custom)⟩
  | _ => none

def document? (s : String) : Option Document := do
  let r ← Raw.parse s
  match ← r.record? 0 ["Types", "GlobalNames", "CodeEntryNames", "NamedArguments"] with
  | [t, g, c, a] =>
    let types ← Raw.orDefault {} (typesSection? 1) t
    let everywhere ← Raw.orDefault {} (namesSection? 1) g
    let entries ← Raw.orDefault ∅ (tableOf? 1 (namesSection? 2)) c
    let argumentNames ← Raw.orDefault ∅ (tableOf? 1 (Raw.strings? 2)) a
    return { types with everywhere, entries, argumentNames }
  | _ => none

/-- The enums and constants, which refer to nothing, on top of the basic rules. -/
def plainRules (d : Document) : Except RuleError (Table String Rule) := do
  let start := (if d.registerBasic then RuleBook.basic else {}).types
  let enums ← d.enums.mapM fun (name, v) => do
    let shown := ((v.field? "Name").bind Value.string?).getD name
    return (name, Rule.enumeration shown (← values name v))
  let constants ← d.constants.mapM fun (name, v) => do
    return (name, Rule.constants (← values name v))
  return (enums ++ constants).foldl (fun t (name, rule) => t.insert name rule) start

/-- Read a document, visiting the named descriptions in the given order. -/
def bookIn (d : Document) (order : List String) : Except RuleError RuleBook := do
  let known ← plainRules d
  let load : Load RuleBook := do
    readAll d.descriptions order
    let everywhere ← nameRules d.descriptions d.everywhere
    let entries ← entryRules d.descriptions d.entries.items
    return { types := (← get).resolved, everywhere, entries, argumentNames := d.argumentNames }
  (load.run { resolved := known }).map Prod.fst

end RuleLoad

/-- The rule book that a JSON text describes. -/
def RuleBook.ofJson (s : String) : Except RuleError RuleBook :=
  match RuleLoad.document? s with
  | some d => RuleLoad.bookIn d d.descriptions.keys
  | none => .error .json

end GmlLift
