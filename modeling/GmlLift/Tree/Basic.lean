import GmlLift.Flow.Node
import GmlLift.Instr.AssetKind

/-! Expressions and statements.

An expression carries two facts about the stack value it stood for: whether a `dup` copied it and
the value's type on the stack. Function bodies are statements inside expressions, so the types are
defined together. -/

namespace GmlLift

open Decimal (Binary64)

inductive BinaryOp where
  | add | sub | mul | div
  /-- Whole-number division, `div`. -/
  | rem
  /-- The remainder, `%`. -/
  | mod
  | and | or | xor | shl | shr
deriving DecidableEq, Repr

def BinaryOp.ofOpcode? : Opcode → Option BinaryOp
  | .add => some .add | .sub => some .sub | .mul => some .mul | .div => some .div
  | .rem => some .rem | .mod => some .mod | .and => some .and | .or => some .or
  | .xor => some .xor | .shl => some .shl | .shr => some .shr
  | _ => none

inductive UnaryOp where
  | negate
  /-- `!`, of a boolean. -/
  | not
  /-- `~`, of a whole number. -/
  | complement
deriving DecidableEq, Repr

/-- Which side of a variable `++` or `--` stands on. -/
inductive Side where
  | before | after
deriving DecidableEq, Repr

inductive AssignKind where
  | normal
  /-- `x op= value` -/
  | compound (op : BinaryOp)
  /-- `++x`, `x--` and the like. -/
  | step (side : Side) (increment : Bool)
deriving DecidableEq, Repr

/-- A name that stands in place of a number. -/
inductive Symbol where
  | enumValue (enumName valueName : String) (value : Int)
  | constant (name : String)
  | asset (name : String)
deriving DecidableEq

mutual

inductive Expr where
  | mk (kind : ExprKind) (duplicated : Bool) (stackType : DataType)

inductive ExprKind where
  /-- `regular` tells `push.e` from `pushi.e`; steps by one use the former. -/
  | int16 (value : Int16) (regular : Bool)
  | int32 (value : Int32)
  | int64 (value : Int64)
  | double (value : Binary64)
  | string (s : String)
  | bool (b : Bool)
  | var (v : Var)
  | binary (op : BinaryOp) (left right : Expr)
  | compare (kind : Comparison) (left right : Expr)
  | unary (op : UnaryOp) (operand : Expr)
  | call (function : String) (args : List Expr)
  /-- A call of a function value. -/
  | callValue (function holder : Expr) (args : List Expr)
  | new (maker : Expr) (args : List Expr)
  | array (items : List Expr)
  | struct (fields : List (String × Expr))
  /-- A script function or another entry, by name. -/
  | functionRef (name : String)
  | function (decl : FunctionDecl)
  | ternary (condition onTrue onFalse : Expr)
  | logic (op : Logic) (conditions : List Expr)
  | nullish (left right : Expr)
  | step (target : Var) (side : Side) (increment : Bool)
  | scope (s : Scope)
  | asset (kind : AssetKind) (id : Int32)
  | throw (value : Expr)
  | symbol (s : Symbol)

/-- Where a variable lives. -/
inductive Holder where
  | scope (s : Scope)
  /-- An object; the name is filled in when it is known. -/
  | object (id : Int16) (name : Option String)
  | expr (e : Expr)

inductive Var where
  /-- `legacy2d` marks indexing of the form `a[i, j]`. -/
  | mk (name : String) (holder : Holder) (indices : List Expr) (legacy2d : Bool)

inductive FunctionDecl where
  /-- The name is set once the function is bound to one. -/
  | mk (entry : String) (name : Option String) (arguments : List String) (isConstructor : Bool)
    (body : List Stmt)

inductive SwitchCase where
  /-- A label without an expression is the default. -/
  | mk (labels : List (Option Expr)) (body : List Stmt)

inductive Handler where
  /-- The variable holds the caught value. -/
  | mk (name : Option String) (body : List Stmt)

inductive Stmt where
  /-- `declare` marks the first assignment of a local. -/
  | assign (target : Var) (value : Expr) (kind : AssignKind) (declare : Bool)
  | expr (e : Expr)
  | function (decl : FunctionDecl)
  | cond (condition : Expr) (thenBody : List Stmt) (elseBody : Option (List Stmt))
  /-- `continuesToStep`: some `continue` runs the last statement of the body first. -/
  | whileLoop (condition : Option Expr) (body : List Stmt) (continuesToStep : Bool)
  | forLoop (init : Option Stmt) (condition : Expr) (step : Stmt) (body : List Stmt)
  | doUntil (body : List Stmt) (condition : Expr)
  | repeatLoop (count : Expr) (body : List Stmt)
  | withLoop (target : Expr) (body : List Stmt)
  | switch (value : Expr) (cases : List SwitchCase)
  | tryCatch (body : List Stmt) (handler : Option Handler) (cleanup : Option (List Stmt))
  /-- An initializer of static variables. -/
  | staticInit (body : List Stmt)
  | breakJump
  | continueJump
  | returns (value : Expr)
  | exit
  | throws (value : Expr)

end

instance : Inhabited ExprKind := ⟨.bool false⟩
instance : Inhabited Expr := ⟨.mk default false .bool⟩

namespace Var

def name : Var → String
  | ⟨n, _, _, _⟩ => n

def holder : Var → Holder
  | ⟨_, h, _, _⟩ => h

def indices : Var → List Expr
  | ⟨_, _, i, _⟩ => i

def legacy2d : Var → Bool
  | ⟨_, _, _, l⟩ => l

/-- A variable of a scope, without indices. -/
def ofScope (name : String) (s : Scope) : Var := ⟨name, .scope s, [], false⟩

/-- Access one dimension further in. -/
def pushIndex : Var → Expr → Var
  | ⟨n, h, i, l⟩, e => ⟨n, h, i ++ [e], l⟩

/-- A local accessed as a whole. -/
def isLocal : Var → Bool
  | ⟨_, .scope .locals, [], _⟩ => true
  | _ => false

end Var

namespace FunctionDecl

def entry : FunctionDecl → String
  | ⟨e, _, _, _, _⟩ => e

def name : FunctionDecl → Option String
  | ⟨_, n, _, _, _⟩ => n

def arguments : FunctionDecl → List String
  | ⟨_, _, a, _, _⟩ => a

def isConstructor : FunctionDecl → Bool
  | ⟨_, _, _, c, _⟩ => c

def body : FunctionDecl → List Stmt
  | ⟨_, _, _, _, b⟩ => b

def withName : FunctionDecl → String → FunctionDecl
  | ⟨e, _, a, c, b⟩, n => ⟨e, some n, a, c, b⟩

end FunctionDecl

namespace SwitchCase

def labels : SwitchCase → List (Option Expr)
  | ⟨l, _⟩ => l

def body : SwitchCase → List Stmt
  | ⟨_, b⟩ => b

end SwitchCase

namespace Handler

def name : Handler → Option String
  | ⟨n, _⟩ => n

def body : Handler → List Stmt
  | ⟨_, b⟩ => b

end Handler

namespace Expr

def kind : Expr → ExprKind
  | ⟨k, _, _⟩ => k

def duplicated : Expr → Bool
  | ⟨_, d, _⟩ => d

def stackType : Expr → DataType
  | ⟨_, _, t⟩ => t

/-- A value that no `dup` copied. -/
def ofKind (k : ExprKind) (t : DataType) : Expr := ⟨k, false, t⟩

def ofVar (v : Var) : Expr := ofKind (.var v) .var

def withKind : Expr → ExprKind → Expr
  | ⟨_, d, t⟩, k => ⟨k, d, t⟩

def withDuplicated : Expr → Bool → Expr
  | ⟨k, _, t⟩, d => ⟨k, d, t⟩

def withStackType : Expr → DataType → Expr
  | ⟨k, d, _⟩, t => ⟨k, d, t⟩

/-- The value of a whole-number literal. -/
def intValue? (e : Expr) : Option Int := match e.kind with
  | .int16 v _ => some v.toInt
  | .int32 v => some v.toInt
  | .int64 v => some v.toInt
  | _ => none

def var? (e : Expr) : Option Var := match e.kind with
  | .var v => some v
  | _ => none

/-- A one pushed by `push.e`. -/
def isRegularOne (e : Expr) : Bool := match e.kind with
  | .int16 v regular => v == 1 && regular
  | _ => false

/-- Whether the expression does something when it stands as a statement. -/
def isStatement (e : Expr) : Bool := match e.kind with
  | .call .. | .callValue .. | .new .. | .step .. | .function _ => true
  | _ => false

end Expr

/-- Whether a `dup` copied the instance or an index. -/
def Var.hasDuplicatedParts (v : Var) : Bool :=
  v.indices.any Expr.duplicated || match v.holder with
    | .expr e => e.duplicated
    | _ => false

end GmlLift
