import GmlLift.EnumTable
import GmlLift.Frame.Variable
import GmlLift.Naming.Resolve
import GmlLift.Settings

/-! Names in place of numbers and entries.

What a name means depends on the function around it. Enum values that come into the code are
recorded, so that they can be declared. -/

namespace GmlLift

namespace Clean

/-- The function that is being cleaned. -/
structure Surrounding where
  entry : String
  /-- The name that rules for results go by. -/
  function : String
  /-- Names for the arguments. -/
  arguments : List String

/-- What cleaning looks at and never changes. -/
structure Context where
  game : Game
  settings : Settings
  inside : Surrounding

namespace Context

/-- The context of a function's body. -/
def enter (game : Game) (settings : Settings) (entry : String) (name : Option String) : Context :=
  { game, settings
    inside :=
      { entry
        function := name.getD (functionName entry)
        arguments := (game.rules.argumentNames? entry).getD [] } }

end Context

/-- Cleaning records enum values on the way. -/
abbrev Cleaner (α : Type) := StateM EnumTable α

/-- The name of an argument that is written by its number. -/
def argumentName? (ctx : Context) (name : String) (holder : Holder) : Option String :=
  match holder with
  | .scope .arg | .scope .own | .scope .builtin =>
    (argumentIndex? name).bind fun i => ctx.inside.arguments[i]?
  | _ => none

/-- A built-in global needs no `global` before it, and an object goes by its name. -/
def nameHolder (game : Game) (name : String) : Holder → Holder
  | .scope .global => if game.isBuiltinVariable name then .scope .builtin else .scope .global
  | .object id none => .object id (game.assetName? .object id.toInt)
  | h => h

def nameVar (ctx : Context) : Var → Var
  | ⟨name, holder, indices, legacy2d⟩ => match argumentName? ctx name holder with
    | some n => ⟨n, .scope .arg, indices, legacy2d⟩
    | none => ⟨name, nameHolder ctx.game name holder, indices, legacy2d⟩

def nameFunction (game : Game) (function : String) : String :=
  if game.isBuiltinFunction function then function
  else (game.globals.nameOf? function).getD (functionName function)

def nameAsset (game : Game) (kind : AssetKind) (id : Int32) : ExprKind :=
  match game.assetName? kind id.toInt with
  | some name => .symbol (.asset name)
  | none => .asset kind id

/-- Names in one place of an expression whose parts have theirs. -/
def nameKind (ctx : Context) : ExprKind → ExprKind
  | .var v => .var (nameVar ctx v)
  | .step v side increment => .step (nameVar ctx v) side increment
  | .functionRef f => .functionRef (nameFunction ctx.game f)
  | .call f args => .call (nameFunction ctx.game f) args
  | .asset kind id => nameAsset ctx.game kind id
  | k => k

/-- A number that a `with` loop is over: a scope word below zero, an object from zero up. -/
def nameTarget (game : Game) (target : Expr) : Expr := match target.intValue? with
  | none => target
  | some v =>
    if v < 0 then
      match if -0x8000 ≤ v then Scope.ofCode? (Int16.ofInt v) else none with
      | some s => target.withKind (.scope s)
      | none => target
    else match game.assetName? .object v with
      | some name => target.withKind (.symbol (.asset name))
      | none => target

/-- The rule for the value of an expression. -/
def ruleOf? (ctx : Context) (e : Expr) : Option Rule := match e.kind with
  | .var v => ctx.game.rules.variableRule? ctx.inside.entry v.name
  | .call f _ => ctx.game.rules.returnRule? ctx.inside.entry f
  | _ => none

/-- Record an enum value. -/
def recordEnum (t : EnumTable) (e : Expr) : EnumTable := match e.kind with
  | .symbol (.enumValue enumName valueName value) => t.record enumName valueName value
  | _ => t

/-- Apply a rule, if there is one, and record the enum values that it brings in. -/
def applyRule (ctx : Context) (rule : Option Rule) (e : Expr) : Cleaner Expr := fun enums =>
  match rule.bind fun r => r.resolve ctx.game e with
  | none => (e, enums)
  | some resolved =>
    if resolved.equal e then (e, enums)
    else if ctx.settings.declareEnums then (resolved, resolved.walk.foldl recordEnum enums)
    else (resolved, enums)

/-- Apply rules in one place of an expression whose parts are done: those for the arguments of a
call, and the rule of one side of a comparison on the other side. -/
def applyRules (ctx : Context) (e : Expr) : Cleaner Expr :=
  if !ctx.settings.resolveNames then return e
  else match e with
    | ⟨.call f args, d, t⟩ =>
      applyRule ctx (ctx.game.rules.argumentsRule? ctx.inside.entry f) ⟨.call f args, d, t⟩
    | ⟨.compare k l r, d, t⟩ => do
      if (ruleOf? ctx l).isSome then return ⟨.compare k l (← applyRule ctx (ruleOf? ctx l) r), d, t⟩
      else return ⟨.compare k (← applyRule ctx (ruleOf? ctx r) l) r, d, t⟩
    | e => return e

/-- A rule, unless naming is off. -/
def enabled (ctx : Context) (rule : Option Rule) : Option Rule :=
  if ctx.settings.resolveNames then rule else none

end Clean

end GmlLift
