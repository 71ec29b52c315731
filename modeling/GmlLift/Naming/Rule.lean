import GmlLift.Instr.AssetKind
import GmlLift.Table

/-! Rules that give numbers their names.

A rule says how the number in some place reads: as a value of an enum, a constant, an asset and so
on. A rule book attaches rules to variables, to function arguments and to function results, for all
code and for single entries. -/

namespace GmlLift

inductive Rule where
  | enumeration (name : String) (values : Table Int String)
  | constants (values : Table Int String)
  | asset (kind : AssetKind)
  /-- Zero and one as `false` and `true`. -/
  | boolean
  /-- Scope words for negative numbers, objects for the others. -/
  | instanceId
  | color
  /-- The first member that applies. -/
  | union (members : List Rule)
  /-- Every member must apply; the result is that of the last one that is not a test. -/
  | intersect (members : List Rule)
  /-- A test of what the expression is and of its name or value. -/
  | accepts (type value : Option String)
  | refuses (type value : Option String)
  /-- The rule for every item of an array. -/
  | items (element : Rule)
  /-- Rules for the arguments of a call by position; some may have none. -/
  | arguments (rules : List (Option Rule))

/-- Tests let an expression through unchanged or not at all. -/
def Rule.isTest : Rule → Bool
  | .accepts .. | .refuses .. => true
  | _ => false

/-- The rules attached to names, for all code or for one entry. -/
structure NameRules where
  vars : Table String Rule := ∅
  arguments : Table String Rule := ∅
  returns : Table String Rule := ∅

structure RuleBook where
  /-- Rules by their own names. -/
  types : Table String Rule := ∅
  everywhere : NameRules := {}
  entries : Table String NameRules := ∅
  /-- Names for the arguments of entries. -/
  argumentNames : Table String (List String) := ∅

namespace RuleBook

/-- The rule of a name; a rule for the entry wins over one for all code. -/
def lookup (book : RuleBook) (select : NameRules → Table String Rule) (entry name : String) :
    Option Rule :=
  ((book.entries.get? entry).bind fun n => (select n).get? name)
    <|> (select book.everywhere).get? name

def variableRule? (book : RuleBook) (entry name : String) : Option Rule :=
  book.lookup NameRules.vars entry name

def argumentsRule? (book : RuleBook) (entry function : String) : Option Rule :=
  book.lookup NameRules.arguments entry function

def returnRule? (book : RuleBook) (entry function : String) : Option Rule :=
  book.lookup NameRules.returns entry function

def argumentNames? (book : RuleBook) (entry : String) : Option (List String) :=
  book.argumentNames.get? entry

/-- The rules that need no description: booleans, instances, colors and every kind of asset. -/
def basicTypes : List (String × Rule) :=
  [("Bool", .boolean), ("Id.Instance", .instanceId), ("Color", .color)]
    ++ AssetKind.all.map fun k => ("Asset." ++ k.name, .asset k)

def withBasicTypes (book : RuleBook) : RuleBook :=
  { book with types := basicTypes.foldl (fun t (name, rule) => t.insert name rule) book.types }

/-- The book with nothing but the basic rules. -/
def basic : RuleBook := withBasicTypes {}

end RuleBook

end GmlLift
