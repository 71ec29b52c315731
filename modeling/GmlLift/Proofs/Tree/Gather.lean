import Mathlib.Logic.Basic
import GmlLift.Clean.ForLoop
import GmlLift.Clean.Locals

/-! # What stands in a tree

Everything of one sort in expressions and statements, the bodies of functions included. A function
`pick` says what an expression of some kind is itself; what its parts are comes after it. -/
namespace GmlLift

section

variable {α : Type} (pick : ExprKind → List α)

mutual

def Expr.gather : Expr → List α
  | ⟨k, _, _⟩ => pick k ++ k.gather
termination_by structural x => x

/-- What is in the parts of an expression of this kind. -/
def ExprKind.gather : ExprKind → List α
  | .var v | .step v _ _ => v.gather
  | .binary _ l r | .compare _ l r | .nullish l r => l.gather ++ r.gather
  | .unary _ e | .throw e => e.gather
  | .call _ args | .array args | .logic _ args => Expr.gatherIn args
  | .callValue f h args => f.gather ++ h.gather ++ Expr.gatherIn args
  | .new c args => c.gather ++ Expr.gatherIn args
  | .struct fields => Expr.gatherInFields fields
  | .ternary c t f => c.gather ++ t.gather ++ f.gather
  | .function d => d.gather
  | .int16 .. | .int32 _ | .int64 _ | .double _ | .string _ | .bool _ | .functionRef _ | .scope _
  | .asset .. | .symbol _ => []
termination_by structural x => x

def Expr.gatherIn : List Expr → List α
  | [] => []
  | e :: rest => e.gather ++ Expr.gatherIn rest
termination_by structural x => x

def Expr.gatherInFields : List (String × Expr) → List α
  | [] => []
  | (_, e) :: rest => e.gather ++ Expr.gatherInFields rest
termination_by structural x => x

def Holder.gather : Holder → List α
  | .expr e => e.gather
  | .scope _ | .object .. => []
termination_by structural x => x

def Var.gather : Var → List α
  | ⟨_, h, indices, _⟩ => h.gather ++ Expr.gatherIn indices
termination_by structural x => x

/-- What is in the body of a function. -/
def FunctionDecl.gather : FunctionDecl → List α
  | ⟨_, _, _, _, body⟩ => Stmt.gatherIn body
termination_by structural x => x

/-- What is in a statement. The step of a `for` loop comes after the body, as it runs. -/
def Stmt.gather : Stmt → List α
  | .assign t v _ _ => t.gather ++ v.gather
  | .expr e | .returns e | .throws e => e.gather
  | .function d => pick (.function d) ++ d.gather
  | .cond c t e => c.gather ++ Stmt.gatherIn t ++ Stmt.gatherInOption e
  | .whileLoop none b _ => Stmt.gatherIn b
  | .whileLoop (some c) b _ => c.gather ++ Stmt.gatherIn b
  | .forLoop none c s b => c.gather ++ Stmt.gatherIn b ++ s.gather
  | .forLoop (some i) c s b => i.gather ++ c.gather ++ Stmt.gatherIn b ++ s.gather
  | .doUntil b c => Stmt.gatherIn b ++ c.gather
  | .repeatLoop c b => c.gather ++ Stmt.gatherIn b
  | .withLoop t b => t.gather ++ Stmt.gatherIn b
  | .switch v cs => v.gather ++ SwitchCase.gatherIn cs
  | .tryCatch b h f => Stmt.gatherIn b ++ Handler.gather h ++ Stmt.gatherInOption f
  | .staticInit b => Stmt.gatherIn b
  | .breakJump | .continueJump | .exit => []
termination_by structural x => x

def Stmt.gatherIn : List Stmt → List α
  | [] => []
  | s :: rest => s.gather ++ Stmt.gatherIn rest
termination_by structural x => x

def Stmt.gatherInOption : Option (List Stmt) → List α
  | none => []
  | some b => Stmt.gatherIn b
termination_by structural x => x

def Handler.gather : Option Handler → List α
  | none => []
  | some ⟨_, b⟩ => Stmt.gatherIn b
termination_by structural x => x

def SwitchCase.gatherIn : List SwitchCase → List α
  | [] => []
  | ⟨ls, b⟩ :: rest => Expr.gatherInLabels ls ++ Stmt.gatherIn b ++ SwitchCase.gatherIn rest
termination_by structural x => x

def Expr.gatherInLabels : List (Option Expr) → List α
  | [] => []
  | none :: rest => Expr.gatherInLabels rest
  | some e :: rest => e.gather ++ Expr.gatherInLabels rest
termination_by structural x => x

end

/-- What an expression of this kind is and what is in its parts. -/
abbrev ExprKind.gatherAll (k : ExprKind) : List α := pick k ++ k.gather pick

attribute [simp] Expr.gatherIn Expr.gatherInFields Stmt.gatherIn Stmt.gatherInOption Handler.gather
  SwitchCase.gatherIn Expr.gatherInLabels

theorem Expr.gather_eq (e : Expr) : e.gather pick = e.kind.gatherAll pick := by
  cases e
  rw [Expr.gather, Expr.kind]

theorem Expr.gather_withKind (e : Expr) (k : ExprKind) :
    (e.withKind k).gather pick = k.gatherAll pick := by
  cases e
  rw [Expr.withKind, Expr.gather]

theorem Stmt.gatherIn_append (b b' : List Stmt) :
    Stmt.gatherIn pick (b ++ b') = Stmt.gatherIn pick b ++ Stmt.gatherIn pick b' := by
  induction b with
  | nil => rfl
  | cons s rest ih => simp [ih]

/-! ## What `walk` reaches -/

/-- What is in an expression outside the bodies of functions. -/
def Expr.gatherOpen (e : Expr) : List α := e.walk.flatMap fun x => pick x.kind

theorem append_subset_append {a b c d : List α} (h : a ⊆ c) (h' : b ⊆ d) : a ++ b ⊆ c ++ d :=
  List.append_subset.mpr
    ⟨List.subset_append_of_subset_left d h, List.subset_append_of_subset_right c h'⟩

mutual

theorem Expr.gatherOpen_subset (e : Expr) : e.gatherOpen pick ⊆ e.gather pick := by
  obtain ⟨k, d, t⟩ := e
  rw [Expr.gatherOpen, Expr.walk, List.flatMap_cons, Expr.gather]
  exact append_subset_append (List.Subset.refl _) k.gatherOpen_subset
termination_by structural e

theorem ExprKind.gatherOpen_subset (k : ExprKind) :
    k.walk.flatMap (fun x => pick x.kind) ⊆ k.gather pick := by
  cases k with
  | var v | step v s i => exact v.gatherOpen_subset
  | binary o l r | compare o l r | nullish l r =>
    rw [ExprKind.walk, ExprKind.gather, List.flatMap_append]
    exact append_subset_append l.gatherOpen_subset r.gatherOpen_subset
  | unary o e | throw e => exact e.gatherOpen_subset
  | call f args | array args | logic o args => exact Expr.gatherOpenIn_subset args
  | callValue f h args =>
    rw [ExprKind.walk, ExprKind.gather, List.flatMap_append, List.flatMap_append]
    exact append_subset_append
      (append_subset_append f.gatherOpen_subset h.gatherOpen_subset)
      (Expr.gatherOpenIn_subset args)
  | new c args =>
    rw [ExprKind.walk, ExprKind.gather, List.flatMap_append]
    exact append_subset_append c.gatherOpen_subset (Expr.gatherOpenIn_subset args)
  | struct fs => exact Expr.gatherOpenInFields_subset fs
  | ternary c t f =>
    rw [ExprKind.walk, ExprKind.gather, List.flatMap_append, List.flatMap_append]
    exact append_subset_append
      (append_subset_append c.gatherOpen_subset t.gatherOpen_subset) f.gatherOpen_subset
  | _ => exact List.nil_subset _
termination_by structural k

theorem Expr.gatherOpenIn_subset (es : List Expr) :
    (Expr.walkList es).flatMap (fun x => pick x.kind) ⊆ Expr.gatherIn pick es := by
  cases es with
  | nil => exact List.nil_subset _
  | cons e rest =>
    rw [Expr.walkList, Expr.gatherIn, List.flatMap_append]
    exact append_subset_append e.gatherOpen_subset (Expr.gatherOpenIn_subset rest)
termination_by structural es

theorem Expr.gatherOpenInFields_subset (fs : List (String × Expr)) :
    (Expr.walkFields fs).flatMap (fun x => pick x.kind) ⊆ Expr.gatherInFields pick fs := by
  cases fs with
  | nil => exact List.nil_subset _
  | cons f rest =>
    obtain ⟨n, e⟩ := f
    rw [Expr.walkFields, Expr.gatherInFields, List.flatMap_append]
    exact append_subset_append e.gatherOpen_subset (Expr.gatherOpenInFields_subset rest)
termination_by structural fs

theorem Holder.gatherOpen_subset (h : Holder) :
    h.walk.flatMap (fun x => pick x.kind) ⊆ h.gather pick := by
  cases h with
  | expr e => exact e.gatherOpen_subset
  | scope s => exact List.nil_subset _
  | object i n => exact List.nil_subset _
termination_by structural h

theorem Var.gatherOpen_subset (v : Var) :
    v.walk.flatMap (fun x => pick x.kind) ⊆ v.gather pick := by
  obtain ⟨n, h, indices, l⟩ := v
  rw [Var.walk, Var.gather, List.flatMap_append]
  exact append_subset_append h.gatherOpen_subset (Expr.gatherOpenIn_subset indices)
termination_by structural v

end

/-! ## Rearranging statements -/

mutual

theorem Stmt.gather_declare (s : Stmt) (l : List String) :
    (s.declare l).1.gather pick = s.gather pick := by
  cases s with
  | assign t v k d =>
    rw [Stmt.declare]
    dsimp only
    split <;> rfl
  | cond c t e =>
    have ht := Stmt.gather_declareList t l
    cases e with
    | none => exact congrArg (c.gather pick ++ · ++ []) ht
    | some e =>
      have he := Stmt.gather_declareList e (Stmt.declareList t l).2
      exact congrArg₂ (c.gather pick ++ · ++ ·) ht he
  | whileLoop c b s =>
    have hb := Stmt.gather_declareList b l
    cases c with
    | none => exact hb
    | some c => exact congrArg (c.gather pick ++ ·) hb
  | forLoop i c s b =>
    cases i with
    | none => exact congrArg (c.gather pick ++ · ++ s.gather pick) (Stmt.gather_declareList b l)
    | some i =>
      have hi := Stmt.gather_declare i l
      have hb := Stmt.gather_declareList b (i.declare l).2
      exact congrArg₂ (· ++ c.gather pick ++ · ++ s.gather pick) hi hb
  | doUntil b c => exact congrArg (· ++ c.gather pick) (Stmt.gather_declareList b l)
  | repeatLoop c b => exact congrArg (c.gather pick ++ ·) (Stmt.gather_declareList b l)
  | withLoop t b => exact congrArg (t.gather pick ++ ·) (Stmt.gather_declareList b l)
  | switch v cs => exact congrArg (v.gather pick ++ ·) (SwitchCase.gather_declareList cs l)
  | tryCatch b h f =>
    have hb := Stmt.gather_declareList b l
    have hh := Handler.gather_declare h (Stmt.declareList b l).2
    have hf := Stmt.gather_declareOption f (Handler.declare h (Stmt.declareList b l).2).2
    exact congrArg₂ (· ++ ·) (congrArg₂ (· ++ ·) hb hh) hf
  | staticInit b => exact Stmt.gather_declareList b l
  | _ => rfl
termination_by structural s

theorem Stmt.gather_declareList (b : List Stmt) (l : List String) :
    Stmt.gatherIn pick (Stmt.declareList b l).1 = Stmt.gatherIn pick b := by
  cases b with
  | nil => rfl
  | cons s rest =>
    have hs := Stmt.gather_declare s l
    have hrest := Stmt.gather_declareList rest (s.declare l).2
    exact congrArg₂ (· ++ ·) hs hrest
termination_by structural b

theorem Stmt.gather_declareOption (b : Option (List Stmt)) (l : List String) :
    Stmt.gatherInOption pick (Stmt.declareOption b l).1 = Stmt.gatherInOption pick b := by
  cases b with
  | none => rfl
  | some b => exact Stmt.gather_declareList b l
termination_by structural b

theorem Handler.gather_declare (h : Option Handler) (l : List String) :
    Handler.gather pick (Handler.declare h l).1 = Handler.gather pick h := by
  cases h with
  | none => rfl
  | some h =>
    obtain ⟨n, b⟩ := h
    exact Stmt.gather_declareList b l
termination_by structural h

theorem SwitchCase.gather_declareList (cs : List SwitchCase) (l : List String) :
    SwitchCase.gatherIn pick (SwitchCase.declareList cs l).1 = SwitchCase.gatherIn pick cs := by
  cases cs with
  | nil => rfl
  | cons c rest =>
    obtain ⟨ls, b⟩ := c
    have hb := Stmt.gather_declareList b l
    have hrest := SwitchCase.gather_declareList rest (Stmt.declareList b l).2
    exact congrArg₂ (Expr.gatherInLabels pick ls ++ · ++ ·) hb hrest
termination_by structural cs

end

@[simp] theorem gather_declareLocals (b : List Stmt) :
    Stmt.gatherIn pick (declareLocals b) = Stmt.gatherIn pick b :=
  Stmt.gather_declareList pick b []

theorem gather_of_splitStep? {body rest : List Stmt} {step : Stmt}
    (h : splitStep? body = some (rest, step)) :
    Stmt.gatherIn pick body = Stmt.gatherIn pick rest ++ step.gather pick := by
  obtain ⟨last, hlast, heq⟩ := Option.map_eq_some_iff.mp h
  obtain ⟨init, rfl⟩ := List.getLast?_eq_some_iff.mp hlast
  cases heq
  rw [Stmt.gatherIn_append, List.dropLast_concat]
  simp

/-- A `for` loop has the parts of the `while` loop and of the assignment before it, in order. -/
theorem gather_joinLoop (before : Option Stmt) (s : Stmt) :
    Stmt.gatherIn pick (joinLoop before s).1.toList ++ (joinLoop before s).2.gather pick =
      Stmt.gatherIn pick before.toList ++ s.gather pick := by
  unfold joinLoop
  split
  · rename_i condition body continuesToStep
    split
    · rfl
    · rename_i rest step hsplit
      have hbody := gather_of_splitStep? pick hsplit
      split
      · rfl
      · dsimp only
        split
        · rfl
        · split
          · split
            · cases before with
              | none => simp [Stmt.gather, hbody]
              | some i => simp [Stmt.gather, hbody]
            · simp [Stmt.gather, hbody]
          · rfl
  · rfl

theorem gather_forLoopsAfter (before : Option Stmt) (b : List Stmt) :
    Stmt.gatherIn pick (forLoopsAfter before b) =
      Stmt.gatherIn pick before.toList ++ Stmt.gatherIn pick b := by
  induction b generalizing before with
  | nil => rw [forLoopsAfter, Stmt.gatherIn, List.append_nil]
  | cons s rest ih =>
    rw [forLoopsAfter, Stmt.gatherIn, ← List.append_assoc, ← gather_joinLoop]
    simp [Stmt.gatherIn_append, ih]

theorem gather_toForLoops (b : List Stmt) :
    Stmt.gatherIn pick (toForLoops b) = Stmt.gatherIn pick b :=
  gather_forLoopsAfter pick none b

end

end GmlLift
