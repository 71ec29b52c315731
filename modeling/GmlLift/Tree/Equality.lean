import GmlLift.Tree.Basic

/-! Equality of trees.

`equal` compares everything, the stack facts of expressions included; doubles compare as numbers.
`sameAs` asks whether two expressions read the same: it ignores the stack facts along variables,
operators and calls, and the names filled in for objects. -/

namespace GmlLift

mutual

def Expr.equal : Expr → Expr → Bool
  | ⟨k, d, t⟩, ⟨k', d', t'⟩ => k.equal k' && d == d' && t == t'
termination_by structural x => x

def ExprKind.equal : ExprKind → ExprKind → Bool
  | .int16 v r, .int16 v' r' => v == v' && r == r'
  | .int32 v, .int32 v' => v == v'
  | .int64 v, .int64 v' => v == v'
  | .double v, .double v' => v.equal v'
  | .string s, .string s' => s == s'
  | .bool b, .bool b' => b == b'
  | .var v, .var v' => v.equal v'
  | .binary o l r, .binary o' l' r' => o == o' && l.equal l' && r.equal r'
  | .compare k l r, .compare k' l' r' => k == k' && l.equal l' && r.equal r'
  | .unary o e, .unary o' e' => o == o' && e.equal e'
  | .call f a, .call f' a' => f == f' && Expr.equalList a a'
  | .callValue f h a, .callValue f' h' a' => f.equal f' && h.equal h' && Expr.equalList a a'
  | .new c a, .new c' a' => c.equal c' && Expr.equalList a a'
  | .array a, .array a' => Expr.equalList a a'
  | .struct f, .struct f' => Expr.equalFields f f'
  | .functionRef n, .functionRef n' => n == n'
  | .function d, .function d' => d.equal d'
  | .ternary c t f, .ternary c' t' f' => c.equal c' && t.equal t' && f.equal f'
  | .logic o cs, .logic o' cs' => o == o' && Expr.equalList cs cs'
  | .nullish l r, .nullish l' r' => l.equal l' && r.equal r'
  | .step v s i, .step v' s' i' => v.equal v' && s == s' && i == i'
  | .scope s, .scope s' => s == s'
  | .asset k i, .asset k' i' => k == k' && i == i'
  | .throw e, .throw e' => e.equal e'
  | .symbol s, .symbol s' => s == s'
  | _, _ => false
termination_by structural x => x

def Expr.equalList : List Expr → List Expr → Bool
  | [], [] => true
  | e :: r, e' :: r' => e.equal e' && Expr.equalList r r'
  | _, _ => false
termination_by structural x => x

def Expr.equalFields : List (String × Expr) → List (String × Expr) → Bool
  | [], [] => true
  | (n, e) :: r, (n', e') :: r' => n == n' && e.equal e' && Expr.equalFields r r'
  | _, _ => false
termination_by structural x => x

def Expr.equalLabels : List (Option Expr) → List (Option Expr) → Bool
  | [], [] => true
  | none :: r, none :: r' => Expr.equalLabels r r'
  | some e :: r, some e' :: r' => e.equal e' && Expr.equalLabels r r'
  | _, _ => false
termination_by structural x => x

def Holder.equal : Holder → Holder → Bool
  | .scope s, .scope s' => s == s'
  | .object i n, .object i' n' => i == i' && n == n'
  | .expr e, .expr e' => e.equal e'
  | _, _ => false
termination_by structural x => x

def Var.equal : Var → Var → Bool
  | ⟨n, h, i, l⟩, ⟨n', h', i', l'⟩ => n == n' && h.equal h' && Expr.equalList i i' && l == l'
termination_by structural x => x

def FunctionDecl.equal : FunctionDecl → FunctionDecl → Bool
  | ⟨e, n, a, c, b⟩, ⟨e', n', a', c', b'⟩ =>
    e == e' && n == n' && a == a' && c == c' && Stmt.equalList b b'
termination_by structural x => x

def SwitchCase.equal : SwitchCase → SwitchCase → Bool
  | ⟨l, b⟩, ⟨l', b'⟩ => Expr.equalLabels l l' && Stmt.equalList b b'
termination_by structural x => x

def SwitchCase.equalList : List SwitchCase → List SwitchCase → Bool
  | [], [] => true
  | c :: r, c' :: r' => c.equal c' && SwitchCase.equalList r r'
  | _, _ => false
termination_by structural x => x

def Handler.equal : Handler → Handler → Bool
  | ⟨n, b⟩, ⟨n', b'⟩ => n == n' && Stmt.equalList b b'
termination_by structural x => x

def Stmt.equal : Stmt → Stmt → Bool
  | .assign t v k d, .assign t' v' k' d' => t.equal t' && v.equal v' && k == k' && d == d'
  | .expr e, .expr e' => e.equal e'
  | .function d, .function d' => d.equal d'
  | .cond c t none, .cond c' t' none => c.equal c' && Stmt.equalList t t'
  | .cond c t (some e), .cond c' t' (some e') =>
    c.equal c' && Stmt.equalList t t' && Stmt.equalList e e'
  | .whileLoop none b s, .whileLoop none b' s' => Stmt.equalList b b' && s == s'
  | .whileLoop (some c) b s, .whileLoop (some c') b' s' =>
    c.equal c' && Stmt.equalList b b' && s == s'
  | .forLoop none c s b, .forLoop none c' s' b' => c.equal c' && s.equal s' && Stmt.equalList b b'
  | .forLoop (some i) c s b, .forLoop (some i') c' s' b' =>
    i.equal i' && c.equal c' && s.equal s' && Stmt.equalList b b'
  | .doUntil b c, .doUntil b' c' => Stmt.equalList b b' && c.equal c'
  | .repeatLoop c b, .repeatLoop c' b' => c.equal c' && Stmt.equalList b b'
  | .withLoop t b, .withLoop t' b' => t.equal t' && Stmt.equalList b b'
  | .switch v c, .switch v' c' => v.equal v' && SwitchCase.equalList c c'
  | .tryCatch b h f, .tryCatch b' h' f' =>
    Stmt.equalList b b' && Handler.equalOption h h' && Stmt.equalOption f f'
  | .staticInit b, .staticInit b' => Stmt.equalList b b'
  | .breakJump, .breakJump => true
  | .continueJump, .continueJump => true
  | .returns e, .returns e' => e.equal e'
  | .exit, .exit => true
  | .throws e, .throws e' => e.equal e'
  | _, _ => false
termination_by structural x => x

def Stmt.equalList : List Stmt → List Stmt → Bool
  | [], [] => true
  | s :: r, s' :: r' => s.equal s' && Stmt.equalList r r'
  | _, _ => false
termination_by structural x => x

def Stmt.equalOption : Option (List Stmt) → Option (List Stmt) → Bool
  | none, none => true
  | some b, some b' => Stmt.equalList b b'
  | _, _ => false
termination_by structural x => x

def Handler.equalOption : Option Handler → Option Handler → Bool
  | none, none => true
  | some h, some h' => h.equal h'
  | _, _ => false
termination_by structural x => x

end

mutual

/-- Whether two expressions read the same. -/
def Expr.sameAs : Expr → Expr → Bool
  | ⟨.int16 v _, _, _⟩, ⟨.int16 v' _, _, _⟩ => v == v'
  | ⟨.var v, _, _⟩, ⟨.var v', _, _⟩ => v.sameAs v'
  | ⟨.binary o l r, _, _⟩, ⟨.binary o' l' r', _, _⟩ => o == o' && l.sameAs l' && r.sameAs r'
  | ⟨.compare k l r, _, _⟩, ⟨.compare k' l' r', _, _⟩ => k == k' && l.sameAs l' && r.sameAs r'
  | ⟨.unary o e, _, _⟩, ⟨.unary o' e', _, _⟩ => o == o' && e.sameAs e'
  | ⟨.call f a, _, _⟩, ⟨.call f' a', _, _⟩ => f == f' && Expr.sameAsList a a'
  | ⟨k, _, _⟩, ⟨k', _, _⟩ => k.equal k'
termination_by structural x => x

def Expr.sameAsList : List Expr → List Expr → Bool
  | [], [] => true
  | e :: r, e' :: r' => e.sameAs e' && Expr.sameAsList r r'
  | _, _ => false
termination_by structural x => x

/-- Whether two variables live in the same place. -/
def Holder.sameAs : Holder → Holder → Bool
  | .expr e, .expr e' => e.sameAs e'
  | .object i _, .object i' _ => i == i'
  | .scope s, .scope s' => s == s'
  | _, _ => false
termination_by structural x => x

/-- Whether two variables are the same storage location. -/
def Var.sameAs : Var → Var → Bool
  | ⟨n, h, i, l⟩, ⟨n', h', i', l'⟩ =>
    n == n' && l == l' && Expr.sameAsList i i' && h.sameAs h'
termination_by structural x => x

end

end GmlLift
