import GmlLift.Clean.ForLoop
import GmlLift.Clean.Locals
import GmlLift.Clean.Naming

/-! Cleaning a tree into what a person would have written: named arguments, symbols for numbers,
`for` loops, declarations of locals, and function names instead of entry names. -/

namespace GmlLift

namespace Clean

/-- The loops of a block, where they are wanted. -/
def loopsOf (ctx : Context) (body : List Stmt) : List Stmt :=
  if ctx.settings.forLoops then toForLoops body else body

/-- Names for as many arguments as have one. -/
def nameArguments : (names arguments : List String) → List String
  | n :: names, _ :: arguments => n :: nameArguments names arguments
  | _, arguments => arguments

mutual

/-- Clean an expression, its parts first. -/
def expr (ctx : Context) : Expr → Cleaner Expr
  | ⟨k, d, t⟩ => do applyRules ctx ⟨nameKind ctx (← kind ctx k), d, t⟩
termination_by structural x => x

/-- Clean the parts of an expression. -/
def kind (ctx : Context) : ExprKind → Cleaner ExprKind
  | .var v => return .var (← parts ctx v)
  | .step v s i => return .step (← parts ctx v) s i
  | .binary o l r => return .binary o (← expr ctx l) (← expr ctx r)
  | .compare k l r => return .compare k (← expr ctx l) (← expr ctx r)
  | .nullish l r => return .nullish (← expr ctx l) (← expr ctx r)
  | .unary o e => return .unary o (← expr ctx e)
  | .throw e => return .throw (← expr ctx e)
  | .call g args => return .call g (← exprs ctx args)
  | .array items => return .array (← exprs ctx items)
  | .logic o cs => return .logic o (← exprs ctx cs)
  | .callValue g h args => return .callValue (← expr ctx g) (← expr ctx h) (← exprs ctx args)
  | .new c args => return .new (← expr ctx c) (← exprs ctx args)
  | .struct fs => return .struct (← fields ctx fs)
  | .ternary c t e => return .ternary (← expr ctx c) (← expr ctx t) (← expr ctx e)
  | .function d => return .function (← function ctx d)
  | .int16 v r => return .int16 v r
  | .int32 v => return .int32 v
  | .int64 v => return .int64 v
  | .double v => return .double v
  | .string s => return .string s
  | .bool b => return .bool b
  | .functionRef n => return .functionRef n
  | .scope s => return .scope s
  | .asset k i => return .asset k i
  | .symbol s => return .symbol s
termination_by structural x => x

def exprs (ctx : Context) : List Expr → Cleaner (List Expr)
  | [] => return []
  | e :: rest => return (← expr ctx e) :: (← exprs ctx rest)
termination_by structural x => x

def fields (ctx : Context) : List (String × Expr) → Cleaner (List (String × Expr))
  | [] => return []
  | (n, e) :: rest => return (n, ← expr ctx e) :: (← fields ctx rest)
termination_by structural x => x

def holder (ctx : Context) : Holder → Cleaner Holder
  | .expr e => return .expr (← expr ctx e)
  | .scope s => return .scope s
  | .object i n => return .object i n
termination_by structural x => x

/-- Clean the instance and the indices of a variable. -/
def parts (ctx : Context) : Var → Cleaner Var
  | ⟨n, h, indices, l⟩ => return ⟨n, ← holder ctx h, ← exprs ctx indices, l⟩
termination_by structural x => x

/-- Clean a function inside the context of its own entry. -/
def function (ctx : Context) : FunctionDecl → Cleaner FunctionDecl
  | ⟨entry, name, arguments, isConstructor, body⟩ => do
    let inner := Context.enter ctx.game ctx.settings entry name
    let body ← stmts inner body
    return ⟨entry, name, nameArguments inner.inside.arguments arguments, isConstructor,
      declareLocals (loopsOf ctx body)⟩
termination_by structural x => x

def stmt (ctx : Context) : Stmt → Cleaner Stmt
  | .assign t v k d => do
    let t := nameVar ctx (← parts ctx t)
    let v ← expr ctx v
    let rule := ctx.game.rules.variableRule? ctx.inside.entry t.name
    return .assign t (← applyRule ctx (enabled ctx rule) v) k d
  | .expr e => return .expr (← expr ctx e)
  | .throws e => return .throws (← expr ctx e)
  | .returns e => do
    let e ← expr ctx e
    let rule := ctx.game.rules.returnRule? ctx.inside.entry ctx.inside.function
    return .returns (← applyRule ctx (enabled ctx rule) e)
  | .function d => return .function (← function ctx d)
  | .cond c t e => return .cond (← expr ctx c) (loopsOf ctx (← stmts ctx t)) (← optionBlock ctx e)
  | .whileLoop none b s => return .whileLoop none (loopsOf ctx (← stmts ctx b)) s
  | .whileLoop (some c) b s =>
    return .whileLoop (some (← expr ctx c)) (loopsOf ctx (← stmts ctx b)) s
  | .forLoop none c s b =>
    return .forLoop none (← expr ctx c) (← stmt ctx s) (loopsOf ctx (← stmts ctx b))
  | .forLoop (some i) c s b =>
    return .forLoop (some (← stmt ctx i)) (← expr ctx c) (← stmt ctx s)
      (loopsOf ctx (← stmts ctx b))
  | .doUntil b c => return .doUntil (loopsOf ctx (← stmts ctx b)) (← expr ctx c)
  | .repeatLoop c b => return .repeatLoop (← expr ctx c) (loopsOf ctx (← stmts ctx b))
  | .withLoop t b =>
    return .withLoop (nameTarget ctx.game (← expr ctx t)) (loopsOf ctx (← stmts ctx b))
  | .switch v cs => do
    let v ← expr ctx v
    return .switch v (← cases ctx (enabled ctx (ruleOf? ctx v)) cs)
  | .tryCatch b h f =>
    return .tryCatch (loopsOf ctx (← stmts ctx b)) (← handler ctx h) (← optionBlock ctx f)
  | .staticInit b => return .staticInit (loopsOf ctx (← stmts ctx b))
  | .breakJump => return .breakJump
  | .continueJump => return .continueJump
  | .exit => return .exit
termination_by structural x => x

/-- Clean each statement. -/
def stmts (ctx : Context) : List Stmt → Cleaner (List Stmt)
  | [] => return []
  | s :: rest => return (← stmt ctx s) :: (← stmts ctx rest)
termination_by structural x => x

def optionBlock (ctx : Context) : Option (List Stmt) → Cleaner (Option (List Stmt))
  | none => return none
  | some b => return some (loopsOf ctx (← stmts ctx b))
termination_by structural x => x

def handler (ctx : Context) : Option Handler → Cleaner (Option Handler)
  | none => return none
  | some ⟨n, b⟩ => return some ⟨n, loopsOf ctx (← stmts ctx b)⟩
termination_by structural x => x

/-- Clean the cases of a switch; the rule is that of its value. -/
def cases (ctx : Context) (rule : Option Rule) : List SwitchCase → Cleaner (List SwitchCase)
  | [] => return []
  | ⟨ls, b⟩ :: rest => do
    let ls ← labels ctx rule ls
    return ⟨ls, loopsOf ctx (← stmts ctx b)⟩ :: (← cases ctx rule rest)
termination_by structural x => x

def labels (ctx : Context) (rule : Option Rule) : List (Option Expr) → Cleaner (List (Option Expr))
  | [] => return []
  | none :: rest => return none :: (← labels ctx rule rest)
  | some e :: rest => do
    let e ← applyRule ctx rule (← expr ctx e)
    return some e :: (← labels ctx rule rest)
termination_by structural x => x

end

/-- Leave out an `exit` at the very end. -/
def dropExit (body : List Stmt) : List Stmt := match body.getLast? with
  | some .exit => body.dropLast
  | _ => body

end Clean

open Clean in
/-- Clean the body of a root entry. Gives the enum values that came into it. -/
def cleanEntry (game : Game) (settings : Settings) (entry : String) (body : List Stmt) :
    List Stmt × EnumTable :=
  let ctx := Context.enter game settings entry none
  let (body, enums) := (stmts ctx body).run {}
  let body := declareLocals (loopsOf ctx body)
  (if settings.dropTrailingExit then dropExit body else body, enums)

end GmlLift
