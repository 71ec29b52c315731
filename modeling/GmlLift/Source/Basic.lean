import GmlLift.EntryName
import GmlLift.Source.Layout
import GmlLift.Source.Literal
import GmlLift.Source.Operator

/-! Source text of expressions and statements.

The depth is that of the line an expression starts on; only the bodies of functions written inside
an expression depend on it. -/

namespace GmlLift

namespace Source

def parenthesized (parentheses : Bool) (text : String) : String :=
  if parentheses then "(" ++ text ++ ")" else text

def commaList (items : List String) : String := ", ".intercalate items

/-- A function's header; one inside an expression has no name. -/
def functionHeader (name : Option String) (decl : FunctionDecl) : String :=
  "function" ++ (match name with | some n => " " ++ n | none => "")
    ++ "(" ++ commaList decl.arguments ++ ")" ++ (if decl.isConstructor then " constructor" else "")

/-- The name that a function statement declares. -/
def declaredName (decl : FunctionDecl) : String := decl.name.getD (functionName decl.entry)

/-- A function inside an expression, around its body. -/
def functionLiteral (s : Settings) (depth : Nat) (header body : String) : String :=
  header ++ (if s.braceOnSameLine then " \x7b\n" else "\n" ++ indentation s depth ++ "\x7b\n")
    ++ body ++ indentation s depth ++ "\x7d"

/-- What stands before a plain assignment. -/
def assignKeyword (inStatic declare : Bool) : String :=
  if inStatic then "static " else if declare then "var " else ""

/-- A step written before or after its target. -/
def stepped (target : String) (side : Side) (increment : Bool) : String := match side with
  | .before => stepText increment ++ target
  | .after => target ++ stepText increment

/-- An assignment of a value's text to a target's text. -/
def assignment (keyword target value : String) : AssignKind → String
  | .normal => keyword ++ target ++ " = " ++ value
  | .compound op => target ++ " " ++ op.text false ++ "= " ++ value
  | .step side increment => stepped target side increment

/-- What stands before a variable's name, for scopes that are written. -/
def scopeQualifier : Scope → String
  | .own | .builtin | .locals | .arg | .static | .stackTop => ""
  | .other => "other." | .all => "all." | .noone => "noone." | .global => "global."

end Source

open Source

mutual

def Expr.source (s : Settings) (depth : Nat) : Expr → String
  | ⟨k, _, _⟩ => k.source s depth
termination_by structural x => x

def ExprKind.source (s : Settings) (depth : Nat) : ExprKind → String
  | .int16 v _ => toString v.toInt
  | .int32 v => toString v.toInt
  | .int64 v => toString v.toInt
  | .double v => doubleLiteral v
  | .string t => stringLiteral t
  | .bool b => if b then "true" else "false"
  | .var v => v.source s depth
  | .binary op l r =>
    let p := op.precedence (bothBoolean l r)
    parenthesized (l.precedence < p) (l.source s depth) ++ " " ++ op.text (bothBoolean l r) ++ " "
      ++ parenthesized (r.precedence < p + 1) (r.source s depth)
  | .compare k l r =>
    parenthesized (l.precedence < k.precedence) (l.source s depth) ++ " " ++ k.text ++ " "
      ++ parenthesized (r.precedence < k.precedence + 1) (r.source s depth)
  | .unary op e =>
    op.text ++ parenthesized (e.precedence < Precedence.primary) (e.source s depth)
  | .call f args => functionName f ++ "(" ++ commaList (Expr.sourceList s depth 0 args) ++ ")"
  | .callValue f _ args =>
    parenthesized (f.precedence < Precedence.primary) (f.source s depth)
      ++ "(" ++ commaList (Expr.sourceList s depth 0 args) ++ ")"
  | .new c args =>
    "new " ++ parenthesized (c.precedence < Precedence.primary) (c.source s depth)
      ++ "(" ++ commaList (Expr.sourceList s depth 0 args) ++ ")"
  | .array items => "[" ++ commaList (Expr.sourceList s depth 0 items) ++ "]"
  | .struct fields =>
    if fields.isEmpty then "\x7b\x7d"
    else "\x7b " ++ commaList (Expr.sourceFields s depth fields) ++ " \x7d"
  | .functionRef n => functionName n
  | .function d => d.literal s depth
  | .ternary c t f =>
    parenthesized (c.precedence < Precedence.ternary + 1) (c.source s depth) ++ " ? "
      ++ parenthesized (t.precedence < Precedence.ternary) (t.source s depth) ++ " : "
      ++ parenthesized (f.precedence < Precedence.ternary) (f.source s depth)
  | .logic op cs =>
    (" " ++ op.text ++ " ").intercalate (Expr.sourceList s depth (op.precedence + 1) cs)
  | .nullish l r =>
    parenthesized (l.precedence < Precedence.nullish + 1) (l.source s depth) ++ " ?? "
      ++ parenthesized (r.precedence < Precedence.nullish) (r.source s depth)
  | .step v side increment => stepped (v.source s depth) side increment
  | .scope w => w.keyword
  | .asset _ id => toString id.toInt
  | .throw e => "throw " ++ e.source s depth
  | .symbol (.enumValue e v _) => e ++ "." ++ v
  | .symbol (.constant n) => n
  | .symbol (.asset n) => n
termination_by structural x => x

/-- Each expression of a list in a place that asks for a precedence. -/
def Expr.sourceList (s : Settings) (depth least : Nat) : List Expr → List String
  | [] => []
  | e :: rest =>
    parenthesized (e.precedence < least) (e.source s depth) :: Expr.sourceList s depth least rest
termination_by structural x => x

def Expr.sourceFields (s : Settings) (depth : Nat) : List (String × Expr) → List String
  | [] => []
  | (n, e) :: rest => (n ++ ": " ++ e.source s depth) :: Expr.sourceFields s depth rest
termination_by structural x => x

/-- What stands before a variable's name. -/
def Holder.source (s : Settings) (depth : Nat) : Holder → String
  | .scope w => scopeQualifier w
  | .object id name => name.getD (toString id.toInt) ++ "."
  | .expr e => parenthesized (e.precedence < Precedence.primary) (e.source s depth) ++ "."
termination_by structural x => x

def Var.source (s : Settings) (depth : Nat) : Var → String
  | ⟨n, h, indices, legacy2d⟩ =>
    let parts := Expr.sourceList s depth 0 indices
    h.source s depth ++ n ++
      if legacy2d then "[" ++ commaList parts ++ "]"
      else String.join (parts.map fun i => "[" ++ i ++ "]")
termination_by structural x => x

/-- A function inside an expression. Its body is never part of a static initializer. -/
def FunctionDecl.literal (s : Settings) (depth : Nat) : FunctionDecl → String
  | ⟨e, n, a, c, b⟩ =>
    functionLiteral s depth (functionHeader none ⟨e, n, a, c, b⟩)
      (Stmt.sourceList s (depth + 1) false b)
termination_by structural x => x

/-- A simple statement without indentation and terminator. -/
def Stmt.inline (s : Settings) (depth : Nat) (inStatic : Bool) : Stmt → String
  | .assign t v k d =>
    assignment (assignKeyword inStatic d) (t.source s depth) (v.source s depth) k
  | .expr e => e.source s depth
  | _ => ""
termination_by structural x => x

def Stmt.source (s : Settings) (depth : Nat) (inStatic : Bool) : Stmt → String
  | .assign t v k d =>
    line s depth (assignment (assignKeyword inStatic d) (t.source s depth) (v.source s depth) k
      ++ terminator s)
  | .expr e => line s depth (e.source s depth ++ terminator s)
  | .function ⟨e, n, a, c, b⟩ =>
    block s depth (functionHeader (some (declaredName ⟨e, n, a, c, b⟩)) ⟨e, n, a, c, b⟩)
      (Stmt.sourceList s (depth + 1) inStatic b)
  | .cond c t e =>
    openBlock s depth ("if (" ++ c.source s depth ++ ")")
      ++ Stmt.sourceList s (depth + 1) inStatic t ++ Stmt.sourceElse s depth inStatic e
      ++ closeBlock s depth ""
  | .whileLoop none b _ =>
    block s depth "while (true)" (Stmt.sourceList s (depth + 1) inStatic b)
  | .whileLoop (some c) b _ =>
    block s depth ("while (" ++ c.source s depth ++ ")") (Stmt.sourceList s (depth + 1) inStatic b)
  | .forLoop none c t b =>
    block s depth ("for (; " ++ c.source s depth ++ "; " ++ t.inline s depth inStatic ++ ")")
      (Stmt.sourceList s (depth + 1) inStatic b)
  | .forLoop (some i) c t b =>
    block s depth ("for (" ++ i.inline s depth inStatic ++ "; " ++ c.source s depth ++ "; "
      ++ t.inline s depth inStatic ++ ")") (Stmt.sourceList s (depth + 1) inStatic b)
  | .doUntil b c =>
    openBlock s depth "do" ++ Stmt.sourceList s (depth + 1) inStatic b
      ++ closeBlock s depth (" until (" ++ c.source s (depth + 1) ++ ")" ++ terminator s)
  | .repeatLoop c b =>
    block s depth ("repeat (" ++ c.source s depth ++ ")") (Stmt.sourceList s (depth + 1) inStatic b)
  | .withLoop t b =>
    block s depth ("with (" ++ t.source s depth ++ ")") (Stmt.sourceList s (depth + 1) inStatic b)
  | .switch v cs =>
    block s depth ("switch (" ++ v.source s depth ++ ")")
      (SwitchCase.sourceList s depth inStatic cs)
  | .tryCatch b h f =>
    openBlock s depth "try" ++ Stmt.sourceList s (depth + 1) inStatic b
      ++ Handler.source s depth inStatic h ++ Stmt.sourceFinally s depth inStatic f
      ++ closeBlock s depth ""
  | .staticInit b => Stmt.sourceList s depth true b
  | .breakJump => line s depth ("break" ++ terminator s)
  | .continueJump => line s depth ("continue" ++ terminator s)
  | .exit => line s depth ("exit" ++ terminator s)
  | .returns e => line s depth ("return " ++ e.source s depth ++ terminator s)
  | .throws e => line s depth ("throw " ++ e.source s depth ++ terminator s)
termination_by structural x => x

def Stmt.sourceList (s : Settings) (depth : Nat) (inStatic : Bool) : List Stmt → String
  | [] => ""
  | t :: rest => t.source s depth inStatic ++ Stmt.sourceList s depth inStatic rest
termination_by structural x => x

/-- The clauses after the first branch. A branch that is one conditional joins the chain. -/
def Stmt.sourceElse (s : Settings) (depth : Nat) (inStatic : Bool) : Option (List Stmt) → String
  | none => ""
  | some [.cond c t e] =>
    reopenBlock s depth ("else if (" ++ c.source s (depth + 1) ++ ")")
      ++ Stmt.sourceList s (depth + 1) inStatic t ++ Stmt.sourceElse s depth inStatic e
  | some body => reopenBlock s depth "else" ++ Stmt.sourceList s (depth + 1) inStatic body
termination_by structural x => x

def Stmt.sourceFinally (s : Settings) (depth : Nat) (inStatic : Bool) : Option (List Stmt) → String
  | none => ""
  | some body => reopenBlock s depth "finally" ++ Stmt.sourceList s (depth + 1) inStatic body
termination_by structural x => x

def Handler.source (s : Settings) (depth : Nat) (inStatic : Bool) : Option Handler → String
  | none => ""
  | some ⟨none, body⟩ => reopenBlock s depth "catch" ++ Stmt.sourceList s (depth + 1) inStatic body
  | some ⟨some n, body⟩ =>
    reopenBlock s depth ("catch (" ++ n ++ ")") ++ Stmt.sourceList s (depth + 1) inStatic body
termination_by structural x => x

/-- The cases of a switch at this depth: labels one level in, bodies two. -/
def SwitchCase.sourceList (s : Settings) (depth : Nat) (inStatic : Bool) :
    List SwitchCase → String
  | [] => ""
  | ⟨labels, body⟩ :: rest =>
    Expr.sourceLabels s (depth + 1) labels ++ Stmt.sourceList s (depth + 2) inStatic body
      ++ SwitchCase.sourceList s depth inStatic rest
termination_by structural x => x

def Expr.sourceLabels (s : Settings) (depth : Nat) : List (Option Expr) → String
  | [] => ""
  | none :: rest => line s depth "default:" ++ Expr.sourceLabels s depth rest
  | some e :: rest =>
    line s depth ("case " ++ e.source s depth ++ ":") ++ Expr.sourceLabels s depth rest
termination_by structural x => x

end

end GmlLift
