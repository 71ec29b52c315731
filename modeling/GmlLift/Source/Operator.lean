import GmlLift.Tree.Basic

/-! Operators in source text and how tightly they bind.

An operand that binds less tightly than its place asks for stands in parentheses. -/

namespace GmlLift

def Comparison.text : Comparison → String
  | .less => "<" | .lessEqual => "<=" | .equal => "==" | .notEqual => "!="
  | .greaterEqual => ">=" | .greater => ">"

/-- The word for an operator. Of two booleans, the bitwise operators are the logical ones. -/
def BinaryOp.text (op : BinaryOp) (boolean : Bool) : String := match op with
  | .and => if boolean then "&&" else "&"
  | .or => if boolean then "||" else "|"
  | .xor => if boolean then "^^" else "^"
  | .add => "+" | .sub => "-" | .mul => "*" | .div => "/" | .rem => "div" | .mod => "%"
  | .shl => "<<" | .shr => ">>"

def UnaryOp.text : UnaryOp → String
  | .negate => "-" | .not => "!" | .complement => "~"

def Logic.text : Logic → String
  | .and => "&&" | .or => "||"

def stepText (increment : Bool) : String := if increment then "++" else "--"

namespace Precedence

def ternary : Nat := 1

def nullish : Nat := 2

/-- Literals, names, calls and all else that needs no parentheses. -/
def primary : Nat := 15

def unary : Nat := 14

end Precedence

def Logic.precedence : Logic → Nat
  | .or => 3 | .and => 5

def BinaryOp.precedence (op : BinaryOp) (boolean : Bool) : Nat := match op with
  | .or => if boolean then 3 else 8
  | .xor => if boolean then 4 else 9
  | .and => if boolean then 5 else 10
  | .shl | .shr => 11
  | .add | .sub => 12
  | .mul | .div | .rem | .mod => 13

def Comparison.precedence : Comparison → Nat
  | .equal | .notEqual => 6
  | .less | .lessEqual | .greaterEqual | .greater => 7

/-- Whether both operands are booleans on the stack. -/
def bothBoolean (left right : Expr) : Bool :=
  left.stackType == .bool && right.stackType == .bool

/-- How tightly an expression binds. Negative literals bind like the sign in front of them. -/
def ExprKind.precedence : ExprKind → Nat
  | .ternary .. | .throw _ => Precedence.ternary
  | .nullish .. => Precedence.nullish
  | .logic op _ => op.precedence
  | .binary op l r => op.precedence (bothBoolean l r)
  | .compare k _ _ => k.precedence
  | .unary .. | .step _ .before _ => Precedence.unary
  | .int16 v _ => if v < 0 then Precedence.unary else Precedence.primary
  | .int32 v => if v < 0 then Precedence.unary else Precedence.primary
  | .int64 v => if v < 0 then Precedence.unary else Precedence.primary
  | .double v => if v.isNegative then Precedence.unary else Precedence.primary
  | _ => Precedence.primary

def Expr.precedence (e : Expr) : Nat := e.kind.precedence

end GmlLift
