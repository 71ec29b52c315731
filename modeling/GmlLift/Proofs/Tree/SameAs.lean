import GmlLift.Tree.Equality
import Mathlib.Logic.Basic
import Mathlib.Logic.Function.Basic

/-! # What counts as the same expression

Expressions carry marks that the program text does not show. `Expr.cleared` takes them all out, so
that two expressions read the same if they are equal once cleared. `sameAs` sees through variables,
operators and calls by name; below any other form it compares the marks too. -/
namespace GmlLift

/-! ## Marks -/

/-- What the simulation and the cleaning leave on an expression besides what it says. -/
inductive Mark where
  /-- Whether a `dup` copied the value. -/
  | copied (duplicated : Bool)
  /-- The type of the value on the stack. -/
  | stack (type : DataType)
  /-- Whether `push.e` pushed a number. -/
  | pushed (regular : Bool)
  /-- The name filled in for an object. -/
  | object (name : Option String)
deriving DecidableEq

mutual

/-- The marks of an expression and of everything in it. -/
def Expr.marks : Expr → List Mark
  | ⟨k, d, t⟩ => k.marks ++ [.copied d] ++ [.stack t]
termination_by structural x => x

def ExprKind.marks : ExprKind → List Mark
  | .int16 _ r => [.pushed r]
  | .var v | .step v _ _ => v.marks
  | .binary _ l r | .compare _ l r | .nullish l r => l.marks ++ r.marks
  | .unary _ e | .throw e => e.marks
  | .call _ args | .array args | .logic _ args => Expr.marksIn args
  | .callValue f h args => f.marks ++ h.marks ++ Expr.marksIn args
  | .new c args => c.marks ++ Expr.marksIn args
  | .struct fields => Expr.marksInFields fields
  | .ternary c t f => c.marks ++ t.marks ++ f.marks
  | .function d => d.marks
  | .int32 _ | .int64 _ | .double _ | .string _ | .bool _ | .functionRef _ | .scope _ | .asset ..
  | .symbol _ => []
termination_by structural x => x

def Expr.marksIn : List Expr → List Mark
  | [] => []
  | e :: rest => e.marks ++ Expr.marksIn rest
termination_by structural x => x

def Expr.marksInFields : List (String × Expr) → List Mark
  | [] => []
  | (_, e) :: rest => e.marks ++ Expr.marksInFields rest
termination_by structural x => x

def Expr.marksInLabels : List (Option Expr) → List Mark
  | [] => []
  | none :: rest => Expr.marksInLabels rest
  | some e :: rest => e.marks ++ Expr.marksInLabels rest
termination_by structural x => x

def Holder.marks : Holder → List Mark
  | .scope _ => []
  | .object _ n => [.object n]
  | .expr e => e.marks
termination_by structural x => x

def Var.marks : Var → List Mark
  | ⟨_, h, indices, _⟩ => h.marks ++ Expr.marksIn indices
termination_by structural x => x

def FunctionDecl.marks : FunctionDecl → List Mark
  | ⟨_, _, _, _, body⟩ => Stmt.marksIn body
termination_by structural x => x

def Stmt.marks : Stmt → List Mark
  | .assign t v _ _ => t.marks ++ v.marks
  | .expr e | .returns e | .throws e => e.marks
  | .function d => d.marks
  | .cond c t none => c.marks ++ Stmt.marksIn t
  | .cond c t (some e) => c.marks ++ Stmt.marksIn t ++ Stmt.marksIn e
  | .whileLoop none b _ => Stmt.marksIn b
  | .whileLoop (some c) b _ => c.marks ++ Stmt.marksIn b
  | .forLoop none c s b => c.marks ++ s.marks ++ Stmt.marksIn b
  | .forLoop (some i) c s b => i.marks ++ c.marks ++ s.marks ++ Stmt.marksIn b
  | .doUntil b c => Stmt.marksIn b ++ c.marks
  | .repeatLoop c b => c.marks ++ Stmt.marksIn b
  | .withLoop t b => t.marks ++ Stmt.marksIn b
  | .switch v cs => v.marks ++ SwitchCase.marksIn cs
  | .tryCatch b h f => Stmt.marksIn b ++ Handler.marksIn h ++ Stmt.marksInOption f
  | .staticInit b => Stmt.marksIn b
  | .breakJump | .continueJump | .exit => []
termination_by structural x => x

def Stmt.marksIn : List Stmt → List Mark
  | [] => []
  | s :: rest => s.marks ++ Stmt.marksIn rest
termination_by structural x => x

def Stmt.marksInOption : Option (List Stmt) → List Mark
  | none => []
  | some b => Stmt.marksIn b
termination_by structural x => x

def Handler.marks : Handler → List Mark
  | ⟨_, b⟩ => Stmt.marksIn b
termination_by structural x => x

def Handler.marksIn : Option Handler → List Mark
  | none => []
  | some h => h.marks
termination_by structural x => x

def SwitchCase.marks : SwitchCase → List Mark
  | ⟨ls, b⟩ => Expr.marksInLabels ls ++ Stmt.marksIn b
termination_by structural x => x

def SwitchCase.marksIn : List SwitchCase → List Mark
  | [] => []
  | c :: rest => c.marks ++ SwitchCase.marksIn rest
termination_by structural x => x

end

mutual

/-- The expression without any marks, in all its parts, the bodies of functions included. -/
def Expr.cleared : Expr → Expr
  | ⟨k, _, _⟩ => ⟨k.cleared, false, .var⟩
termination_by structural x => x

def ExprKind.cleared : ExprKind → ExprKind
  | .int16 v _ => .int16 v false
  | .var v => .var v.cleared
  | .step v s i => .step v.cleared s i
  | .binary o l r => .binary o l.cleared r.cleared
  | .compare o l r => .compare o l.cleared r.cleared
  | .nullish l r => .nullish l.cleared r.cleared
  | .unary o e => .unary o e.cleared
  | .throw e => .throw e.cleared
  | .call f args => .call f (Expr.clearedIn args)
  | .array items => .array (Expr.clearedIn items)
  | .logic o cs => .logic o (Expr.clearedIn cs)
  | .callValue f h args => .callValue f.cleared h.cleared (Expr.clearedIn args)
  | .new c args => .new c.cleared (Expr.clearedIn args)
  | .struct fields => .struct (Expr.clearedInFields fields)
  | .ternary c t f => .ternary c.cleared t.cleared f.cleared
  | .function d => .function d.cleared
  | .int32 v => .int32 v
  | .int64 v => .int64 v
  | .double v => .double v
  | .string s => .string s
  | .bool b => .bool b
  | .functionRef n => .functionRef n
  | .scope s => .scope s
  | .asset k i => .asset k i
  | .symbol s => .symbol s
termination_by structural x => x

def Expr.clearedIn : List Expr → List Expr
  | [] => []
  | e :: rest => e.cleared :: Expr.clearedIn rest
termination_by structural x => x

def Expr.clearedInFields : List (String × Expr) → List (String × Expr)
  | [] => []
  | (n, e) :: rest => (n, e.cleared) :: Expr.clearedInFields rest
termination_by structural x => x

def Expr.clearedOption : Option Expr → Option Expr
  | none => none
  | some e => some e.cleared
termination_by structural x => x

def Expr.clearedInLabels : List (Option Expr) → List (Option Expr)
  | [] => []
  | e :: rest => Expr.clearedOption e :: Expr.clearedInLabels rest
termination_by structural x => x

def Holder.cleared : Holder → Holder
  | .scope s => .scope s
  | .object i _ => .object i none
  | .expr e => .expr e.cleared
termination_by structural x => x

def Var.cleared : Var → Var
  | ⟨n, h, indices, l⟩ => ⟨n, h.cleared, Expr.clearedIn indices, l⟩
termination_by structural x => x

def FunctionDecl.cleared : FunctionDecl → FunctionDecl
  | ⟨e, n, a, c, body⟩ => ⟨e, n, a, c, Stmt.clearedIn body⟩
termination_by structural x => x

def Stmt.cleared : Stmt → Stmt
  | .assign t v k d => .assign t.cleared v.cleared k d
  | .expr e => .expr e.cleared
  | .function d => .function d.cleared
  | .cond c t e => .cond c.cleared (Stmt.clearedIn t) (Stmt.clearedInOption e)
  | .whileLoop c b s => .whileLoop (Expr.clearedOption c) (Stmt.clearedIn b) s
  | .forLoop i c s b =>
    .forLoop (Stmt.clearedOption i) c.cleared s.cleared (Stmt.clearedIn b)
  | .doUntil b c => .doUntil (Stmt.clearedIn b) c.cleared
  | .repeatLoop c b => .repeatLoop c.cleared (Stmt.clearedIn b)
  | .withLoop t b => .withLoop t.cleared (Stmt.clearedIn b)
  | .switch v cs => .switch v.cleared (SwitchCase.clearedIn cs)
  | .tryCatch b h f =>
    .tryCatch (Stmt.clearedIn b) (Handler.clearedIn h) (Stmt.clearedInOption f)
  | .staticInit b => .staticInit (Stmt.clearedIn b)
  | .breakJump => .breakJump
  | .continueJump => .continueJump
  | .returns e => .returns e.cleared
  | .exit => .exit
  | .throws e => .throws e.cleared
termination_by structural x => x

def Stmt.clearedIn : List Stmt → List Stmt
  | [] => []
  | s :: rest => s.cleared :: Stmt.clearedIn rest
termination_by structural x => x

def Stmt.clearedOption : Option Stmt → Option Stmt
  | none => none
  | some s => some s.cleared
termination_by structural x => x

def Stmt.clearedInOption : Option (List Stmt) → Option (List Stmt)
  | none => none
  | some b => some (Stmt.clearedIn b)
termination_by structural x => x

def Handler.cleared : Handler → Handler
  | ⟨n, b⟩ => ⟨n, Stmt.clearedIn b⟩
termination_by structural x => x

def Handler.clearedIn : Option Handler → Option Handler
  | none => none
  | some h => some h.cleared
termination_by structural x => x

def SwitchCase.cleared : SwitchCase → SwitchCase
  | ⟨ls, b⟩ => ⟨Expr.clearedInLabels ls, Stmt.clearedIn b⟩
termination_by structural x => x

def SwitchCase.clearedIn : List SwitchCase → List SwitchCase
  | [] => []
  | c :: rest => c.cleared :: SwitchCase.clearedIn rest
termination_by structural x => x

end

mutual

/-- The marks below forms other than variables, operators and calls by name. -/
def Expr.sealedMarks : Expr → List Mark
  | ⟨k, _, _⟩ => k.sealedMarks
termination_by structural x => x

def ExprKind.sealedMarks : ExprKind → List Mark
  | .int16 .. => []
  | .var v => v.sealedMarks
  | .binary _ l r | .compare _ l r => l.sealedMarks ++ r.sealedMarks
  | .unary _ e => e.sealedMarks
  | .call _ args => Expr.sealedMarksIn args
  | k => k.marks
termination_by structural x => x

def Expr.sealedMarksIn : List Expr → List Mark
  | [] => []
  | e :: rest => e.sealedMarks ++ Expr.sealedMarksIn rest
termination_by structural x => x

def Holder.sealedMarks : Holder → List Mark
  | .expr e => e.sealedMarks
  | .scope _ | .object .. => []
termination_by structural x => x

def Var.sealedMarks : Var → List Mark
  | ⟨_, h, indices, _⟩ => h.sealedMarks ++ Expr.sealedMarksIn indices
termination_by structural x => x

end

/-! ## Comparing with and without marks -/

/-- A test compares what another one does, and marks besides. There are equally many marks on both
sides if the other test holds, so that the marks of parts can be told apart in those of the
whole. -/
structure Splits (equal same : Bool) (m m' : List Mark) : Prop where
  length : same = true → m.length = m'.length
  iff : equal = true ↔ same = true ∧ m = m'

namespace Splits

variable {e s e' s' : Bool} {m m' n n' : List Mark}

theorem plain (b : Bool) : Splits b b [] [] := ⟨fun _ => rfl, by simp⟩

theorem differ : Splits false false m m' := ⟨nofun, by simp⟩

theorem mark {α : Type} [BEq α] [LawfulBEq α] {f : α → Mark} (hf : Function.Injective f)
    (x y c : α) : Splits (x == y) (c == c) [f x] [f y] :=
  ⟨fun _ => rfl, by simp [hf.eq_iff]⟩

theorem and (h : Splits e s m m') (h' : Splits e' s' n n') :
    Splits (e && e') (s && s') (m ++ n) (m' ++ n') where
  length hs := by
    obtain ⟨h₁, h₂⟩ := Bool.and_eq_true_iff.mp hs
    rw [List.length_append, List.length_append, h.length h₁, h'.length h₂]
  iff := by
    rw [Bool.and_eq_true_iff, Bool.and_eq_true_iff, h.iff, h'.iff]
    constructor
    · rintro ⟨⟨h₁, rfl⟩, h₂, rfl⟩
      exact ⟨⟨h₁, h₂⟩, rfl⟩
    · rintro ⟨⟨h₁, h₂⟩, hm⟩
      obtain ⟨hm₁, hm₂⟩ := List.append_inj hm (h.length h₁)
      exact ⟨⟨h₁, hm₁⟩, h₂, hm₂⟩

theorem before (b : Bool) (h : Splits e s m m') : Splits (b && e) (b && s) m m' :=
  (plain b).and h

theorem after (h : Splits e s m m') (b : Bool) : Splits (e && b) (s && b) m m' := by
  simpa using h.and (plain b)

/-- A test that holds anyway compares nothing. -/
theorem settled (h : Splits e s m m') {b : Bool} (hb : b = true) : Splits e (s && b) m m' := by
  rwa [hb, Bool.and_true]

end Splits

mutual

theorem Expr.equal_splits (e e' : Expr) :
    Splits (e.equal e') (e.cleared.equal e'.cleared) e.marks e'.marks := by
  obtain ⟨k, d, t⟩ := e
  obtain ⟨k', d', t'⟩ := e'
  exact ((k.equal_splits k').and (.mark (fun _ _ => Mark.copied.inj) d d' false)).and
    (.mark (fun _ _ => Mark.stack.inj) t t' .var)
termination_by structural e

theorem ExprKind.equal_splits (k k' : ExprKind) :
    Splits (k.equal k') (k.cleared.equal k'.cleared) k.marks k'.marks := by
  cases k with
  | int16 v r => cases k' with
    | int16 v' r' => exact .before _ (.mark (fun _ _ => Mark.pushed.inj) r r' false)
    | _ => exact .differ
  | int32 v => cases k' with
    | int32 v' => exact .plain _
    | _ => exact .differ
  | int64 v => cases k' with
    | int64 v' => exact .plain _
    | _ => exact .differ
  | double v => cases k' with
    | double v' => exact .plain _
    | _ => exact .differ
  | string s => cases k' with
    | string s' => exact .plain _
    | _ => exact .differ
  | bool b => cases k' with
    | bool b' => exact .plain _
    | _ => exact .differ
  | var v => cases k' with
    | var v' => exact v.equal_splits v'
    | _ => exact .differ
  | binary o l r => cases k' with
    | binary o' l' r' => exact ((l.equal_splits l').before _).and (r.equal_splits r')
    | _ => exact .differ
  | compare o l r => cases k' with
    | compare o' l' r' => exact ((l.equal_splits l').before _).and (r.equal_splits r')
    | _ => exact .differ
  | unary o e => cases k' with
    | unary o' e' => exact (e.equal_splits e').before _
    | _ => exact .differ
  | call f a => cases k' with
    | call f' a' => exact (Expr.equalList_splits a a').before _
    | _ => exact .differ
  | callValue f h a => cases k' with
    | callValue f' h' a' =>
      exact ((f.equal_splits f').and (h.equal_splits h')).and (Expr.equalList_splits a a')
    | _ => exact .differ
  | new c a => cases k' with
    | new c' a' => exact (c.equal_splits c').and (Expr.equalList_splits a a')
    | _ => exact .differ
  | array a => cases k' with
    | array a' => exact Expr.equalList_splits a a'
    | _ => exact .differ
  | struct f => cases k' with
    | struct f' => exact Expr.equalFields_splits f f'
    | _ => exact .differ
  | functionRef n => cases k' with
    | functionRef n' => exact .plain _
    | _ => exact .differ
  | function d => cases k' with
    | function d' => exact d.equal_splits d'
    | _ => exact .differ
  | ternary c t f => cases k' with
    | ternary c' t' f' =>
      exact ((c.equal_splits c').and (t.equal_splits t')).and (f.equal_splits f')
    | _ => exact .differ
  | logic o cs => cases k' with
    | logic o' cs' => exact (Expr.equalList_splits cs cs').before _
    | _ => exact .differ
  | nullish l r => cases k' with
    | nullish l' r' => exact (l.equal_splits l').and (r.equal_splits r')
    | _ => exact .differ
  | step v s i => cases k' with
    | step v' s' i' => exact ((v.equal_splits v').after _).after _
    | _ => exact .differ
  | scope s => cases k' with
    | scope s' => exact .plain _
    | _ => exact .differ
  | asset k i => cases k' with
    | asset k' i' => exact .plain _
    | _ => exact .differ
  | throw e => cases k' with
    | throw e' => exact e.equal_splits e'
    | _ => exact .differ
  | symbol s => cases k' with
    | symbol s' => exact .plain _
    | _ => exact .differ
termination_by structural k

theorem Expr.equalList_splits (es es' : List Expr) :
    Splits (Expr.equalList es es') (Expr.equalList (Expr.clearedIn es) (Expr.clearedIn es'))
      (Expr.marksIn es) (Expr.marksIn es') := by
  cases es with
  | nil => cases es' with
    | nil => exact .plain true
    | cons e' rest' => exact .differ
  | cons e rest => cases es' with
    | nil => exact .differ
    | cons e' rest' => exact (e.equal_splits e').and (Expr.equalList_splits rest rest')
termination_by structural es

theorem Expr.equalFields_splits (fs fs' : List (String × Expr)) :
    Splits (Expr.equalFields fs fs')
      (Expr.equalFields (Expr.clearedInFields fs) (Expr.clearedInFields fs'))
      (Expr.marksInFields fs) (Expr.marksInFields fs') := by
  cases fs with
  | nil => cases fs' with
    | nil => exact .plain true
    | cons f' rest' => exact .differ
  | cons f rest => cases fs' with
    | nil => exact .differ
    | cons f' rest' =>
      obtain ⟨n, e⟩ := f
      obtain ⟨n', e'⟩ := f'
      exact ((e.equal_splits e').before _).and (Expr.equalFields_splits rest rest')
termination_by structural fs

theorem Expr.equalLabels_splits (ls ls' : List (Option Expr)) :
    Splits (Expr.equalLabels ls ls')
      (Expr.equalLabels (Expr.clearedInLabels ls) (Expr.clearedInLabels ls'))
      (Expr.marksInLabels ls) (Expr.marksInLabels ls') := by
  match ls, ls' with
  | [], [] => exact .plain true
  | [], none :: _ | [], some _ :: _ | none :: _, [] | some _ :: _, [] | none :: _, some _ :: _
  | some _ :: _, none :: _ => exact .differ
  | none :: rest, none :: rest' => exact Expr.equalLabels_splits rest rest'
  | some e :: rest, some e' :: rest' =>
    exact (e.equal_splits e').and (Expr.equalLabels_splits rest rest')
termination_by structural ls

theorem Holder.equal_splits (h h' : Holder) :
    Splits (h.equal h') (h.cleared.equal h'.cleared) h.marks h'.marks := by
  cases h with
  | scope s => cases h' with
    | scope s' => exact .plain _
    | _ => exact .differ
  | object i n => cases h' with
    | object i' n' => exact .before _ (.mark (fun _ _ => Mark.object.inj) n n' none)
    | _ => exact .differ
  | expr e => cases h' with
    | expr e' => exact e.equal_splits e'
    | _ => exact .differ
termination_by structural h

theorem Var.equal_splits (v v' : Var) :
    Splits (v.equal v') (v.cleared.equal v'.cleared) v.marks v'.marks := by
  obtain ⟨n, h, i, l⟩ := v
  obtain ⟨n', h', i', l'⟩ := v'
  exact (((h.equal_splits h').before _).and (Expr.equalList_splits i i')).after _
termination_by structural v

theorem FunctionDecl.equal_splits (d d' : FunctionDecl) :
    Splits (d.equal d') (d.cleared.equal d'.cleared) d.marks d'.marks := by
  obtain ⟨e, n, a, c, b⟩ := d
  obtain ⟨e', n', a', c', b'⟩ := d'
  exact (Stmt.equalList_splits b b').before _
termination_by structural d

theorem Stmt.equal_splits (s s' : Stmt) :
    Splits (s.equal s') (s.cleared.equal s'.cleared) s.marks s'.marks := by
  cases s with
  | assign t v k d => cases s' with
    | assign t' v' k' d' => exact (((t.equal_splits t').and (v.equal_splits v')).after _).after _
    | _ => exact .differ
  | expr e => cases s' with
    | expr e' => exact e.equal_splits e'
    | _ => exact .differ
  | function d => cases s' with
    | function d' => exact d.equal_splits d'
    | _ => exact .differ
  | cond c t e => cases s' with
    | cond c' t' e' =>
      have h := (c.equal_splits c').and (Stmt.equalList_splits t t')
      match e, e' with
      | none, none => exact h
      | some e, some e' => exact h.and (Stmt.equalList_splits e e')
      | none, some e' | some e, none => exact .differ
    | _ => cases e <;> exact .differ
  | whileLoop c b n => cases s' with
    | whileLoop c' b' n' =>
      have h := Stmt.equalList_splits b b'
      match c, c' with
      | none, none => exact h.after _
      | some c, some c' => exact ((c.equal_splits c').and h).after _
      | none, some c' | some c, none => exact .differ
    | _ => cases c <;> exact .differ
  | forLoop i c s b => cases s' with
    | forLoop i' c' s' b' =>
      have hb := Stmt.equalList_splits b b'
      match i, i' with
      | none, none => exact ((c.equal_splits c').and (s.equal_splits s')).and hb
      | some i, some i' =>
        exact (((i.equal_splits i').and (c.equal_splits c')).and (s.equal_splits s')).and hb
      | none, some i' | some i, none => exact .differ
    | _ => cases i <;> exact .differ
  | doUntil b c => cases s' with
    | doUntil b' c' => exact (Stmt.equalList_splits b b').and (c.equal_splits c')
    | _ => exact .differ
  | repeatLoop c b => cases s' with
    | repeatLoop c' b' => exact (c.equal_splits c').and (Stmt.equalList_splits b b')
    | _ => exact .differ
  | withLoop t b => cases s' with
    | withLoop t' b' => exact (t.equal_splits t').and (Stmt.equalList_splits b b')
    | _ => exact .differ
  | switch v cs => cases s' with
    | switch v' cs' => exact (v.equal_splits v').and (SwitchCase.equalList_splits cs cs')
    | _ => exact .differ
  | tryCatch b h f => cases s' with
    | tryCatch b' h' f' =>
      have hb := Stmt.equalList_splits b b'
      exact (hb.and (Handler.equalOption_splits h h')).and (Stmt.equalOption_splits f f')
    | _ => exact .differ
  | staticInit b => cases s' with
    | staticInit b' => exact Stmt.equalList_splits b b'
    | _ => exact .differ
  | breakJump => cases s' with
    | breakJump => exact .plain true
    | _ => exact .differ
  | continueJump => cases s' with
    | continueJump => exact .plain true
    | _ => exact .differ
  | returns e => cases s' with
    | returns e' => exact e.equal_splits e'
    | _ => exact .differ
  | exit => cases s' with
    | exit => exact .plain true
    | _ => exact .differ
  | throws e => cases s' with
    | throws e' => exact e.equal_splits e'
    | _ => exact .differ
termination_by structural s

theorem Stmt.equalList_splits (b b' : List Stmt) :
    Splits (Stmt.equalList b b') (Stmt.equalList (Stmt.clearedIn b) (Stmt.clearedIn b'))
      (Stmt.marksIn b) (Stmt.marksIn b') := by
  cases b with
  | nil => cases b' with
    | nil => exact .plain true
    | cons s' rest' => exact .differ
  | cons s rest => cases b' with
    | nil => exact .differ
    | cons s' rest' => exact (s.equal_splits s').and (Stmt.equalList_splits rest rest')
termination_by structural b

theorem Stmt.equalOption_splits (b b' : Option (List Stmt)) :
    Splits (Stmt.equalOption b b')
      (Stmt.equalOption (Stmt.clearedInOption b) (Stmt.clearedInOption b'))
      (Stmt.marksInOption b) (Stmt.marksInOption b') := by
  cases b with
  | none => cases b' with
    | none => exact .plain true
    | some b' => exact .differ
  | some b => cases b' with
    | none => exact .differ
    | some b' => exact Stmt.equalList_splits b b'
termination_by structural b

theorem Handler.equal_splits (h h' : Handler) :
    Splits (h.equal h') (h.cleared.equal h'.cleared) h.marks h'.marks := by
  obtain ⟨n, b⟩ := h
  obtain ⟨n', b'⟩ := h'
  exact (Stmt.equalList_splits b b').before _
termination_by structural h

theorem Handler.equalOption_splits (h h' : Option Handler) :
    Splits (Handler.equalOption h h')
      (Handler.equalOption (Handler.clearedIn h) (Handler.clearedIn h'))
      (Handler.marksIn h) (Handler.marksIn h') := by
  cases h with
  | none => cases h' with
    | none => exact .plain true
    | some h' => exact .differ
  | some h => cases h' with
    | none => exact .differ
    | some h' => exact h.equal_splits h'
termination_by structural h

theorem SwitchCase.equal_splits (c c' : SwitchCase) :
    Splits (c.equal c') (c.cleared.equal c'.cleared) c.marks c'.marks := by
  obtain ⟨l, b⟩ := c
  obtain ⟨l', b'⟩ := c'
  exact (Expr.equalLabels_splits l l').and (Stmt.equalList_splits b b')
termination_by structural c

theorem SwitchCase.equalList_splits (cs cs' : List SwitchCase) :
    Splits (SwitchCase.equalList cs cs')
      (SwitchCase.equalList (SwitchCase.clearedIn cs) (SwitchCase.clearedIn cs'))
      (SwitchCase.marksIn cs) (SwitchCase.marksIn cs') := by
  cases cs with
  | nil => cases cs' with
    | nil => exact .plain true
    | cons c' rest' => exact .differ
  | cons c rest => cases cs' with
    | nil => exact .differ
    | cons c' rest' => exact (c.equal_splits c').and (SwitchCase.equalList_splits rest rest')
termination_by structural cs

end

mutual

theorem Expr.sameAs_splits (e e' : Expr) :
    Splits (e.sameAs e') (e.cleared.equal e'.cleared) e.sealedMarks e'.sealedMarks := by
  obtain ⟨k, d, t⟩ := e
  obtain ⟨k', d', t'⟩ := e'
  -- whether the expressions themselves are marked alike is not compared on either side
  refine .settled (.settled ?_ rfl) rfl
  cases k with
  | int16 v r => cases k' with
    | int16 v' r' => exact (Splits.plain _).settled rfl
    | _ => exact .differ
  | var v => cases k' with
    | var v' => exact v.sameAs_splits v'
    | _ => exact .differ
  | binary o l r => cases k' with
    | binary o' l' r' => exact ((l.sameAs_splits l').before _).and (r.sameAs_splits r')
    | _ => exact .differ
  | compare o l r => cases k' with
    | compare o' l' r' => exact ((l.sameAs_splits l').before _).and (r.sameAs_splits r')
    | _ => exact .differ
  | unary o e => cases k' with
    | unary o' e' => exact (e.sameAs_splits e').before _
    | _ => exact .differ
  | call f a => cases k' with
    | call f' a' => exact (Expr.sameAsList_splits a a').before _
    | _ => exact .differ
  | _ => cases k' with
    | int16 v' r' | var v' | binary o' l' r' | compare o' l' r' | unary o' e' | call f' a' =>
      exact .differ
    | _ => exact ExprKind.equal_splits _ _
termination_by structural e

theorem Expr.sameAsList_splits (es es' : List Expr) :
    Splits (Expr.sameAsList es es') (Expr.equalList (Expr.clearedIn es) (Expr.clearedIn es'))
      (Expr.sealedMarksIn es) (Expr.sealedMarksIn es') := by
  cases es with
  | nil => cases es' with
    | nil => exact .plain true
    | cons e' rest' => exact .differ
  | cons e rest => cases es' with
    | nil => exact .differ
    | cons e' rest' => exact (e.sameAs_splits e').and (Expr.sameAsList_splits rest rest')
termination_by structural es

theorem Holder.sameAs_splits (h h' : Holder) :
    Splits (h.sameAs h') (h.cleared.equal h'.cleared) h.sealedMarks h'.sealedMarks := by
  cases h with
  | scope s => cases h' with
    | scope s' => exact .plain _
    | _ => exact .differ
  | object i n => cases h' with
    | object i' n' => exact (Splits.plain _).settled rfl
    | _ => exact .differ
  | expr e => cases h' with
    | expr e' => exact e.sameAs_splits e'
    | _ => exact .differ
termination_by structural h

theorem Var.sameAs_splits (v v' : Var) :
    Splits (v.sameAs v') (v.cleared.equal v'.cleared) v.sealedMarks v'.sealedMarks := by
  obtain ⟨n, h, i, l⟩ := v
  obtain ⟨n', h', i', l'⟩ := v'
  have hplace := (h.sameAs_splits h').before (n == n')
  have hparts := (hplace.and (Expr.sameAsList_splits i i')).after (l == l')
  have horder : (⟨n, h, i, l⟩ : Var).sameAs ⟨n', h', i', l'⟩ =
      (n == n' && h.sameAs h' && Expr.sameAsList i i' && l == l') := by
    rw [Var.sameAs]
    ac_rfl
  exact horder ▸ hparts
termination_by structural v

end

/-- Two expressions count as the same exactly if they are equal once their marks are cleared, and
have the same marks below the forms that `sameAs` does not see through. -/
theorem Expr.sameAs_iff_cleared (a b : Expr) :
    a.sameAs b = true ↔ a.cleared.equal b.cleared = true ∧ a.sealedMarks = b.sealedMarks :=
  (a.sameAs_splits b).iff

/-- An array of a one that `push.e` or `pushi.e` has pushed. -/
def arrayOfOne (regular : Bool) : Expr :=
  .ofKind (.array [.ofKind (.int16 1 regular) .var]) .var

/-- How a number was pushed still matters in an array. -/
theorem not_sameAs_arrayOfOne :
    ¬ ((arrayOfOne true).sameAs (arrayOfOne false) = true ↔
      (arrayOfOne true).cleared.equal (arrayOfOne false).cleared = true) := by
  decide

end GmlLift
