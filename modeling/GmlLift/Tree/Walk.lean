import GmlLift.Tree.Equality

/-! Going through the parts of an expression.

`walk` lists an expression and all expressions below it, each before its parts. `mapUpM` visits each
after its parts and may replace it. Neither enters the bodies of functions. -/

namespace GmlLift

mutual

/-- The expression and every expression below it, outermost first. -/
def Expr.walk : Expr → List Expr
  | ⟨k, d, t⟩ => ⟨k, d, t⟩ :: k.walk
termination_by structural x => x

/-- The expressions below one of this kind. -/
def ExprKind.walk : ExprKind → List Expr
  | .var v | .step v _ _ => v.walk
  | .binary _ l r | .compare _ l r | .nullish l r => l.walk ++ r.walk
  | .unary _ e | .throw e => e.walk
  | .call _ args | .array args | .logic _ args => Expr.walkList args
  | .callValue f h args => f.walk ++ h.walk ++ Expr.walkList args
  | .new c args => c.walk ++ Expr.walkList args
  | .struct fields => Expr.walkFields fields
  | .ternary c t f => c.walk ++ t.walk ++ f.walk
  | .int16 .. | .int32 _ | .int64 _ | .double _ | .string _ | .bool _ | .functionRef _
  | .function _ | .scope _ | .asset .. | .symbol _ => []
termination_by structural x => x

def Expr.walkList : List Expr → List Expr
  | [] => []
  | e :: rest => e.walk ++ Expr.walkList rest
termination_by structural x => x

def Expr.walkFields : List (String × Expr) → List Expr
  | [] => []
  | (_, e) :: rest => e.walk ++ Expr.walkFields rest
termination_by structural x => x

def Holder.walk : Holder → List Expr
  | .expr e => e.walk
  | .scope _ | .object .. => []
termination_by structural x => x

/-- The expressions of a variable: the instance first, then the indices. -/
def Var.walk : Var → List Expr
  | ⟨_, h, indices, _⟩ => h.walk ++ Expr.walkList indices
termination_by structural x => x

end

/-- Whether the expression reads the variable anywhere. -/
def Expr.mentions (e : Expr) (v : Var) : Bool :=
  e.walk.any fun x => x.var?.any fun w => w.sameAs v

section

variable {m : Type → Type} [Monad m] (f : Expr → m Expr)

mutual

/-- Replace every expression below this one and then this one, innermost first. -/
def Expr.mapUpM : Expr → m Expr
  | ⟨k, d, t⟩ => do f ⟨← k.mapUpM, d, t⟩
termination_by structural x => x

def ExprKind.mapUpM : ExprKind → m ExprKind
  | .var v => return .var (← v.mapUpM)
  | .step v s i => return .step (← v.mapUpM) s i
  | .binary o l r => return .binary o (← l.mapUpM) (← r.mapUpM)
  | .compare k l r => return .compare k (← l.mapUpM) (← r.mapUpM)
  | .nullish l r => return .nullish (← l.mapUpM) (← r.mapUpM)
  | .unary o e => return .unary o (← e.mapUpM)
  | .throw e => return .throw (← e.mapUpM)
  | .call g args => return .call g (← Expr.mapUpListM args)
  | .array items => return .array (← Expr.mapUpListM items)
  | .logic o cs => return .logic o (← Expr.mapUpListM cs)
  | .callValue g h args => return .callValue (← g.mapUpM) (← h.mapUpM) (← Expr.mapUpListM args)
  | .new c args => return .new (← c.mapUpM) (← Expr.mapUpListM args)
  | .struct fields => return .struct (← Expr.mapUpFieldsM fields)
  | .ternary c t e => return .ternary (← c.mapUpM) (← t.mapUpM) (← e.mapUpM)
  | .int16 v r => return .int16 v r
  | .int32 v => return .int32 v
  | .int64 v => return .int64 v
  | .double v => return .double v
  | .string s => return .string s
  | .bool b => return .bool b
  | .functionRef n => return .functionRef n
  | .function d => return .function d
  | .scope s => return .scope s
  | .asset k i => return .asset k i
  | .symbol s => return .symbol s
termination_by structural x => x

def Expr.mapUpListM : List Expr → m (List Expr)
  | [] => return []
  | e :: rest => return (← e.mapUpM) :: (← Expr.mapUpListM rest)
termination_by structural x => x

def Expr.mapUpFieldsM : List (String × Expr) → m (List (String × Expr))
  | [] => return []
  | (n, e) :: rest => return (n, ← e.mapUpM) :: (← Expr.mapUpFieldsM rest)
termination_by structural x => x

def Holder.mapUpM : Holder → m Holder
  | .expr e => return .expr (← e.mapUpM)
  | .scope s => return .scope s
  | .object i n => return .object i n
termination_by structural x => x

def Var.mapUpM : Var → m Var
  | ⟨n, h, indices, l⟩ => return ⟨n, ← h.mapUpM, ← Expr.mapUpListM indices, l⟩
termination_by structural x => x

end

end

/-- Replace every expression from the innermost out. -/
def Expr.mapUp (f : Expr → Expr) (e : Expr) : Expr := Id.run (e.mapUpM fun x => pure (f x))

end GmlLift
