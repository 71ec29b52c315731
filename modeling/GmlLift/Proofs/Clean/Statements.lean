import GmlLift.Proofs.Clean.EnumValues

/-! # Statements in a tree

What the statements of a tree are one by one, those in the bodies of functions included. A function
`pick` says what a statement is itself, from the context in which it is cleaned and from whether it
stands in a block; the init and the step of a `for` loop do not. -/
namespace GmlLift

open Clean (Context)

section

variable {α : Type} (pick : Context → Bool → Stmt → List α)

mutual

def Expr.sift (ctx : Context) : Expr → List α
  | ⟨k, _, _⟩ => k.sift ctx
termination_by structural x => x

def ExprKind.sift (ctx : Context) : ExprKind → List α
  | .var v | .step v _ _ => v.sift ctx
  | .binary _ l r | .compare _ l r | .nullish l r => l.sift ctx ++ r.sift ctx
  | .unary _ e | .throw e => e.sift ctx
  | .call _ args | .array args | .logic _ args => Expr.siftList ctx args
  | .callValue f h args => f.sift ctx ++ h.sift ctx ++ Expr.siftList ctx args
  | .new c args => c.sift ctx ++ Expr.siftList ctx args
  | .struct fields => Expr.siftFields ctx fields
  | .ternary c t f => c.sift ctx ++ t.sift ctx ++ f.sift ctx
  | .function d => d.sift ctx
  | .int16 .. | .int32 _ | .int64 _ | .double _ | .string _ | .bool _ | .functionRef _ | .scope _
  | .asset .. | .symbol _ => []
termination_by structural x => x

def Expr.siftList (ctx : Context) : List Expr → List α
  | [] => []
  | e :: rest => e.sift ctx ++ Expr.siftList ctx rest
termination_by structural x => x

def Expr.siftFields (ctx : Context) : List (String × Expr) → List α
  | [] => []
  | (_, e) :: rest => e.sift ctx ++ Expr.siftFields ctx rest
termination_by structural x => x

def Holder.sift (ctx : Context) : Holder → List α
  | .expr e => e.sift ctx
  | .scope _ | .object .. => []
termination_by structural x => x

def Var.sift (ctx : Context) : Var → List α
  | ⟨_, h, indices, _⟩ => h.sift ctx ++ Expr.siftList ctx indices
termination_by structural x => x

/-- The body of a function is cleaned in the context of its own entry. -/
def FunctionDecl.sift (ctx : Context) : FunctionDecl → List α
  | ⟨entry, name, _, _, body⟩ =>
    Stmt.siftBlock (Context.enter ctx.game ctx.settings entry name) body
termination_by structural x => x

/-- What is in the parts of a statement. The step of a `for` loop comes after the body. -/
def Stmt.sift (ctx : Context) : Stmt → List α
  | .assign t v _ _ => t.sift ctx ++ v.sift ctx
  | .expr e | .returns e | .throws e => e.sift ctx
  | .function d => d.sift ctx
  | .cond c t e => c.sift ctx ++ Stmt.siftBlock ctx t ++ Stmt.siftOption ctx e
  | .whileLoop none b _ => Stmt.siftBlock ctx b
  | .whileLoop (some c) b _ => c.sift ctx ++ Stmt.siftBlock ctx b
  | .forLoop none c s b =>
    c.sift ctx ++ Stmt.siftBlock ctx b ++ (pick ctx false s ++ s.sift ctx)
  | .forLoop (some i) c s b =>
    pick ctx false i ++ i.sift ctx ++ c.sift ctx ++ Stmt.siftBlock ctx b ++
      (pick ctx false s ++ s.sift ctx)
  | .doUntil b c => Stmt.siftBlock ctx b ++ c.sift ctx
  | .repeatLoop c b => c.sift ctx ++ Stmt.siftBlock ctx b
  | .withLoop t b => t.sift ctx ++ Stmt.siftBlock ctx b
  | .switch v cs => v.sift ctx ++ SwitchCase.siftList ctx cs
  | .tryCatch b h f => Stmt.siftBlock ctx b ++ Handler.sift ctx h ++ Stmt.siftOption ctx f
  | .staticInit b => Stmt.siftBlock ctx b
  | .breakJump | .continueJump | .exit => []
termination_by structural x => x

/-- What the statements of a block are and what is in their parts. -/
def Stmt.siftBlock (ctx : Context) : List Stmt → List α
  | [] => []
  | s :: rest => pick ctx true s ++ s.sift ctx ++ Stmt.siftBlock ctx rest
termination_by structural x => x

def Stmt.siftOption (ctx : Context) : Option (List Stmt) → List α
  | none => []
  | some b => Stmt.siftBlock ctx b
termination_by structural x => x

def Handler.sift (ctx : Context) : Option Handler → List α
  | none => []
  | some ⟨_, b⟩ => Stmt.siftBlock ctx b
termination_by structural x => x

def SwitchCase.siftList (ctx : Context) : List SwitchCase → List α
  | [] => []
  | ⟨ls, b⟩ :: rest =>
    Expr.siftLabels ctx ls ++ Stmt.siftBlock ctx b ++ SwitchCase.siftList ctx rest
termination_by structural x => x

def Expr.siftLabels (ctx : Context) : List (Option Expr) → List α
  | [] => []
  | none :: rest => Expr.siftLabels ctx rest
  | some e :: rest => e.sift ctx ++ Expr.siftLabels ctx rest
termination_by structural x => x

end

attribute [simp] Expr.siftList Expr.siftFields Stmt.siftBlock Stmt.siftOption Handler.sift
  SwitchCase.siftList Expr.siftLabels

theorem Expr.sift_eq (ctx : Context) (e : Expr) : e.sift pick ctx = e.kind.sift pick ctx := by
  cases e
  rw [Expr.sift, Expr.kind]

theorem Expr.sift_withKind (ctx : Context) (e : Expr) (k : ExprKind) :
    (e.withKind k).sift pick ctx = k.sift pick ctx := by
  cases e
  rw [Expr.withKind, Expr.sift]

theorem Expr.sift_of_intValue? (ctx : Context) {e : Expr} {n : Int} (h : e.intValue? = some n) :
    e.sift pick ctx = [] := by
  rw [Expr.sift_eq]
  unfold Expr.intValue? at h
  split at h <;> first | (rename_i hk; rw [hk]; rfl) | cases h

theorem Stmt.siftBlock_append (ctx : Context) (b b' : List Stmt) :
    Stmt.siftBlock pick ctx (b ++ b') =
      Stmt.siftBlock pick ctx b ++ Stmt.siftBlock pick ctx b' := by
  induction b with
  | nil => rfl
  | cons s rest ih => simp [ih]

/-! ## Declaring locals -/

/-- Declaring a statement does not change what it is. -/
def IgnoresDeclare : Prop :=
  ∀ ctx inBlock s l, pick ctx inBlock (Stmt.declare s l).1 = pick ctx inBlock s

section

variable {pick}

mutual

theorem Stmt.sift_declare (hpick : IgnoresDeclare pick) (ctx : Context) (s : Stmt)
    (l : List String) :
    (s.declare l).1.sift pick ctx = s.sift pick ctx := by
  cases s with
  | assign t v k d =>
    rw [Stmt.declare]
    dsimp only
    split <;> rfl
  | cond c t e =>
    have ht := Stmt.sift_declareList hpick ctx t l
    cases e with
    | none => exact congrArg (c.sift pick ctx ++ · ++ []) ht
    | some e =>
      have he := Stmt.sift_declareList hpick ctx e (Stmt.declareList t l).2
      exact congrArg₂ (c.sift pick ctx ++ · ++ ·) ht he
  | whileLoop c b s =>
    have hb := Stmt.sift_declareList hpick ctx b l
    cases c with
    | none => exact hb
    | some c => exact congrArg (c.sift pick ctx ++ ·) hb
  | forLoop i c s b =>
    cases i with
    | none =>
      exact congrArg (c.sift pick ctx ++ · ++ (pick ctx false s ++ s.sift pick ctx))
        (Stmt.sift_declareList hpick ctx b l)
    | some i =>
      have hi : pick ctx false (i.declare l).1 ++ (i.declare l).1.sift pick ctx =
          pick ctx false i ++ i.sift pick ctx := by
        rw [hpick, Stmt.sift_declare hpick ctx i l]
      have hb := Stmt.sift_declareList hpick ctx b (i.declare l).2
      exact congrArg₂ (· ++ c.sift pick ctx ++ · ++ (pick ctx false s ++ s.sift pick ctx)) hi hb
  | doUntil b c => exact congrArg (· ++ c.sift pick ctx) (Stmt.sift_declareList hpick ctx b l)
  | repeatLoop c b => exact congrArg (c.sift pick ctx ++ ·) (Stmt.sift_declareList hpick ctx b l)
  | withLoop t b => exact congrArg (t.sift pick ctx ++ ·) (Stmt.sift_declareList hpick ctx b l)
  | switch v cs =>
    exact congrArg (v.sift pick ctx ++ ·) (SwitchCase.sift_declareList hpick ctx cs l)
  | tryCatch b h f =>
    have hb := Stmt.sift_declareList hpick ctx b l
    have hh := Handler.sift_declare hpick ctx h (Stmt.declareList b l).2
    have hf := Stmt.sift_declareOption hpick ctx f (Handler.declare h (Stmt.declareList b l).2).2
    exact congrArg₂ (· ++ ·) (congrArg₂ (· ++ ·) hb hh) hf
  | staticInit b => exact Stmt.sift_declareList hpick ctx b l
  | _ => rfl
termination_by structural s

theorem Stmt.sift_declareList (hpick : IgnoresDeclare pick) (ctx : Context) (b : List Stmt)
    (l : List String) :
    Stmt.siftBlock pick ctx (Stmt.declareList b l).1 = Stmt.siftBlock pick ctx b := by
  cases b with
  | nil => rfl
  | cons s rest =>
    have hs := Stmt.sift_declare hpick ctx s l
    have hrest := Stmt.sift_declareList hpick ctx rest (s.declare l).2
    exact congrArg₂ (· ++ ·) (congrArg₂ (· ++ ·) (hpick ctx true s l) hs) hrest
termination_by structural b

theorem Stmt.sift_declareOption (hpick : IgnoresDeclare pick) (ctx : Context)
    (b : Option (List Stmt)) (l : List String) :
    Stmt.siftOption pick ctx (Stmt.declareOption b l).1 = Stmt.siftOption pick ctx b := by
  cases b with
  | none => rfl
  | some b => exact Stmt.sift_declareList hpick ctx b l
termination_by structural b

theorem Handler.sift_declare (hpick : IgnoresDeclare pick) (ctx : Context) (h : Option Handler)
    (l : List String) :
    Handler.sift pick ctx (Handler.declare h l).1 = Handler.sift pick ctx h := by
  cases h with
  | none => rfl
  | some h =>
    obtain ⟨n, b⟩ := h
    exact Stmt.sift_declareList hpick ctx b l
termination_by structural h

theorem SwitchCase.sift_declareList (hpick : IgnoresDeclare pick) (ctx : Context)
    (cs : List SwitchCase) (l : List String) :
    SwitchCase.siftList pick ctx (SwitchCase.declareList cs l).1 =
      SwitchCase.siftList pick ctx cs := by
  cases cs with
  | nil => rfl
  | cons c rest =>
    obtain ⟨ls, b⟩ := c
    have hb := Stmt.sift_declareList hpick ctx b l
    have hrest := SwitchCase.sift_declareList hpick ctx rest (Stmt.declareList b l).2
    exact congrArg₂ (Expr.siftLabels pick ctx ls ++ · ++ ·) hb hrest
termination_by structural cs

end

theorem sift_declareLocals (hpick : IgnoresDeclare pick) (ctx : Context) (b : List Stmt) :
    Stmt.siftBlock pick ctx (declareLocals b) = Stmt.siftBlock pick ctx b :=
  Stmt.sift_declareList hpick ctx b []

end

end

end GmlLift
