import GmlLift.Game
import GmlLift.Tree.Basic

/-! Applying naming rules to expressions. -/

namespace GmlLift

namespace Rule

/-- The named colors. -/
def colors : List (Int × String) :=
  [(0, "c_black"), (128, "c_maroon"), (255, "c_red"), (32768, "c_green"), (32896, "c_olive"),
   (65280, "c_lime"), (65535, "c_yellow"), (4210752, "c_dkgray"), (4235519, "c_orange"),
   (8388608, "c_navy"), (8388736, "c_purple"), (8421376, "c_teal"), (8421504, "c_gray"),
   (12632256, "c_ltgray"), (16711680, "c_blue"), (16711935, "c_fuchsia"), (16776960, "c_aqua"),
   (16777215, "c_white")]

/-- What a test looks at: the sort of expression, and its name or value. -/
def subject? (e : Expr) : Option (String × String) := match e.kind with
  | .var v => some ("Variable", v.name)
  | .call function _ => some ("Function", function)
  | .string s => some ("String", s)
  | _ => e.intValue?.map fun v => ("Integer", toString v)

def passes (e : Expr) (type value : Option String) : Bool := match subject? e with
  | none => false
  | some (t, v) => type.all (· == t) && value.all (· == v)

/-- The scopes that a number may name. -/
def scopeWord? (v : Int) : Option String :=
  if -0x8000 ≤ v then match Scope.ofCode? (Int16.ofInt v) with
    | some .own => some Scope.own.keyword
    | some .other => some Scope.other.keyword
    | some .all => some Scope.all.keyword
    | some .noone => some Scope.noone.keyword
    | some .global => some Scope.global.keyword
    | _ => none
  else none

/-- The name of a number under a rule that names numbers. -/
def symbolOf? (game : Game) (value : Int) : Rule → Option Symbol
  | .enumeration name values => (values.get? value).map fun v => .enumValue name v value
  | .constants values => (values.get? value).map .constant
  | .asset kind =>
    if game.assetReferences then none else (game.assetName? kind value).map .asset
  | .boolean =>
    if value = 0 then some (.constant "false")
    else if value = 1 then some (.constant "true")
    else none
  | .instanceId =>
    if 0 ≤ value then
      if game.assetReferences then none else (game.assetName? .object value).map .asset
    else (scopeWord? value).map .constant
  | .color => (colors.lookup value).map .constant
  | .union _ | .intersect _ | .accepts .. | .refuses .. | .items _ | .arguments _ => none

/-- A number as the symbol that the rule gives it. -/
def resolveLiteral? (game : Game) (rule : Rule) (e : Expr) : Option Expr := do
  let symbol ← symbolOf? game (← e.intValue?) rule
  return .ofKind (.symbol symbol) e.stackType

/-- Replace each item for which there is a replacement, if there is any at all. -/
def replaceSome? (resolve : Expr → Option Expr) (xs : List Expr) : Option (List Expr) :=
  if xs.any fun x => (resolve x).isSome then some (xs.map fun x => (resolve x).getD x) else none

mutual

/-- The expression that a rule makes of an expression, or nothing where it does not apply. -/
def resolve (game : Game) : Rule → Expr → Option Expr
  | .union members, e => resolveFirst game members e
  | .intersect members, e => resolveEach game members e none
  | .accepts type value, e => if passes e type value then some e else none
  | .refuses type value, e => if passes e type value then none else some e
  | .items element, e => match e.kind with
    | .array xs =>
      (replaceSome? (resolve game element) xs).map fun xs => .ofKind (.array xs) e.stackType
    | _ => none
  | .arguments rules, e => match e.kind with
    | .call function args =>
      let (changed, args) := resolveArgs game rules args
      if changed then some (.ofKind (.call function args) e.stackType) else none
    | _ => none
  | .enumeration name values, e => resolveLiteral? game (.enumeration name values) e
  | .constants values, e => resolveLiteral? game (.constants values) e
  | .asset kind, e => resolveLiteral? game (.asset kind) e
  | .boolean, e => resolveLiteral? game .boolean e
  | .instanceId, e => resolveLiteral? game .instanceId e
  | .color, e => resolveLiteral? game .color e
termination_by structural x => x

/-- The result of the first member that applies. -/
def resolveFirst (game : Game) : List Rule → Expr → Option Expr
  | [], _ => none
  | m :: rest, e => match resolve game m e with
    | some r => some r
    | none => resolveFirst game rest e
termination_by structural x => x

/-- The result of the last member that is not a test, if all apply. -/
def resolveEach (game : Game) : List Rule → Expr → Option Expr → Option Expr
  | [], _, result => result
  | m :: rest, e, result => match resolve game m e with
    | some r => resolveEach game rest e (if m.isTest then result else some r)
    | none => none
termination_by structural x => x

/-- Arguments by position, and whether any rule applied. -/
def resolveArgs (game : Game) : List (Option Rule) → List Expr → Bool × List Expr
  | some m :: rest, e :: args =>
    let (changed, args) := resolveArgs game rest args
    match resolve game m e with
    | some r => (true, r :: args)
    | none => (changed, e :: args)
  | none :: rest, e :: args =>
    let (changed, args) := resolveArgs game rest args
    (changed, e :: args)
  | _, args => (false, args)
termination_by structural x => x

end

end Rule

end GmlLift
