import GmlLift.Source.Basic

/-! # Writing line by line

Source text as a pen writes it: it keeps the text so far, the depth of nesting and whether it is
inside a static initializer, goes one level in at each opening brace and one level out at each
closing brace. It cannot leave the outermost level. A function inside an expression is written
by a pen of its own. What a pen writes is the text of the statements, and it ends where it
began. -/
namespace GmlLift

open Source

structure Pen where
  out : String
  depth : Nat
  inStatic : Bool
deriving DecidableEq

namespace Pen

variable (s : Settings)

/-- One line at the depth of the pen. -/
def line (text : String) (p : Pen) : Pen := { p with out := p.out ++ Source.line s p.depth text }

def goIn (p : Pen) : Pen := { p with depth := p.depth + 1 }

def goOut (p : Pen) : Option Pen := match p.depth with
  | 0 => none
  | depth + 1 => some { p with depth := depth }

def openBlock (header : String) (p : Pen) : Pen :=
  if s.braceOnSameLine then (p.line s (header ++ " \x7b")).goIn
  else ((p.line s header).line s "\x7b").goIn

def closeBlock (trailer : String) (p : Pen) : Option Pen :=
  p.goOut.map (line s ("\x7d" ++ trailer))

/-- From one block of a statement to the next. -/
def reopenBlock (header : String) (p : Pen) : Option Pen :=
  p.goOut.map fun p =>
    if s.braceOnSameLine then (p.line s ("\x7d " ++ header ++ " \x7b")).goIn
    else (((p.line s "\x7d").line s header).line s "\x7b").goIn

/-- The pen after some more text, where it was. -/
def wrote (text : String) (p : Pen) : Pen := { p with out := p.out ++ text }

section

variable (p : Pen) (text text' header trailer : String)

@[simp] theorem wrote_depth : (p.wrote text).depth = p.depth := rfl

@[simp] theorem wrote_inStatic : (p.wrote text).inStatic = p.inStatic := rfl

@[simp] theorem goIn_depth : p.goIn.depth = p.depth + 1 := rfl

@[simp] theorem goIn_inStatic : p.goIn.inStatic = p.inStatic := rfl

@[simp] theorem goIn_wrote : p.goIn.wrote text = (p.wrote text).goIn := rfl

@[simp] theorem goOut_goIn : p.goIn.goOut = some p := rfl

@[simp] theorem wrote_wrote : (p.wrote text).wrote text' = p.wrote (text ++ text') := by
  simp [wrote, String.append_assoc]

@[simp] theorem wrote_empty : p.wrote "" = p := by simp [wrote]

theorem line_eq : p.line s text = p.wrote (Source.line s p.depth text) := rfl

theorem openBlock_eq :
    p.openBlock s header = (p.wrote (Source.openBlock s p.depth header)).goIn := by
  unfold openBlock Source.openBlock
  split <;> simp [line_eq]

/-- A block that is open can be closed. -/
@[simp] theorem closeBlock_goIn :
    p.goIn.closeBlock s trailer = some (p.wrote (Source.closeBlock s p.depth trailer)) := rfl

@[simp] theorem reopenBlock_goIn :
    p.goIn.reopenBlock s header = some (p.wrote (Source.reopenBlock s p.depth header)).goIn := by
  rw [reopenBlock, goOut_goIn, Option.map_some, Source.reopenBlock]
  split <;> simp [line_eq]

end

end Pen

section

variable (s : Settings)

/-- The labels of one case. -/
def Expr.writeLabels : List (Option Expr) → Pen → Pen
  | [], p => p
  | none :: rest, p => Expr.writeLabels rest (p.line s "default:")
  | some e :: rest, p =>
    Expr.writeLabels rest (p.line s ("case " ++ e.source s p.depth ++ ":"))

mutual

def Stmt.write : Stmt → Pen → Option Pen
  | .assign t v k d, p =>
    some (p.line s (Stmt.inline s p.depth p.inStatic (.assign t v k d) ++ terminator s))
  | .expr e, p => some (p.line s (Stmt.inline s p.depth p.inStatic (.expr e) ++ terminator s))
  | .function ⟨e, n, a, c, b⟩, p => do
    let header := functionHeader (some (declaredName ⟨e, n, a, c, b⟩)) ⟨e, n, a, c, b⟩
    let p ← Stmt.writeAll b (p.openBlock s header)
    p.closeBlock s ""
  | .cond c t e, p => do
    let p ← Stmt.writeAll t (p.openBlock s ("if (" ++ c.source s p.depth ++ ")"))
    let p ← Stmt.writeElse e p
    p.closeBlock s ""
  | .whileLoop none b _, p => do
    let p ← Stmt.writeAll b (p.openBlock s "while (true)")
    p.closeBlock s ""
  | .whileLoop (some c) b _, p => do
    let p ← Stmt.writeAll b (p.openBlock s ("while (" ++ c.source s p.depth ++ ")"))
    p.closeBlock s ""
  | .forLoop none c t b, p => do
    let header := "for (; " ++ c.source s p.depth ++ "; " ++ t.inline s p.depth p.inStatic ++ ")"
    let p ← Stmt.writeAll b (p.openBlock s header)
    p.closeBlock s ""
  | .forLoop (some i) c t b, p => do
    let header := "for (" ++ i.inline s p.depth p.inStatic ++ "; " ++ c.source s p.depth ++ "; "
      ++ t.inline s p.depth p.inStatic ++ ")"
    let p ← Stmt.writeAll b (p.openBlock s header)
    p.closeBlock s ""
  | .doUntil b c, p => do
    let p ← Stmt.writeAll b (p.openBlock s "do")
    p.closeBlock s (" until (" ++ c.source s p.depth ++ ")" ++ terminator s)
  | .repeatLoop c b, p => do
    let p ← Stmt.writeAll b (p.openBlock s ("repeat (" ++ c.source s p.depth ++ ")"))
    p.closeBlock s ""
  | .withLoop t b, p => do
    let p ← Stmt.writeAll b (p.openBlock s ("with (" ++ t.source s p.depth ++ ")"))
    p.closeBlock s ""
  | .switch v cs, p => do
    let p ← SwitchCase.writeAll cs (p.openBlock s ("switch (" ++ v.source s p.depth ++ ")"))
    p.closeBlock s ""
  | .tryCatch b h f, p => do
    let p ← Stmt.writeAll b (p.openBlock s "try")
    let p ← Handler.write h p
    let p ← Stmt.writeFinally f p
    p.closeBlock s ""
  | .staticInit b, p => do
    let q ← Stmt.writeAll b { p with inStatic := true }
    return { q with inStatic := p.inStatic }
  | .breakJump, p => some (p.line s ("break" ++ terminator s))
  | .continueJump, p => some (p.line s ("continue" ++ terminator s))
  | .exit, p => some (p.line s ("exit" ++ terminator s))
  | .returns e, p => some (p.line s ("return " ++ e.source s p.depth ++ terminator s))
  | .throws e, p => some (p.line s ("throw " ++ e.source s p.depth ++ terminator s))
termination_by structural x => x

def Stmt.writeAll : List Stmt → Pen → Option Pen
  | [], p => some p
  | t :: rest, p => do Stmt.writeAll rest (← t.write p)
termination_by structural x => x

/-- The clauses after the first branch, from inside the block before them. -/
def Stmt.writeElse : Option (List Stmt) → Pen → Option Pen
  | none, p => some p
  | some [.cond c t e], p => do
    let p ← p.reopenBlock s ("else if (" ++ c.source s p.depth ++ ")")
    let p ← Stmt.writeAll t p
    Stmt.writeElse e p
  | some body, p => do Stmt.writeAll body (← p.reopenBlock s "else")
termination_by structural x => x

def Stmt.writeFinally : Option (List Stmt) → Pen → Option Pen
  | none, p => some p
  | some body, p => do Stmt.writeAll body (← p.reopenBlock s "finally")
termination_by structural x => x

def Handler.write : Option Handler → Pen → Option Pen
  | none, p => some p
  | some ⟨none, body⟩, p => do Stmt.writeAll body (← p.reopenBlock s "catch")
  | some ⟨some n, body⟩, p => do Stmt.writeAll body (← p.reopenBlock s ("catch (" ++ n ++ ")"))
termination_by structural x => x

/-- The cases of a switch. The bodies are one level in from the labels. -/
def SwitchCase.writeAll : List SwitchCase → Pen → Option Pen
  | [], p => some p
  | ⟨labels, body⟩ :: rest, p => do
    let p ← Stmt.writeAll body (Expr.writeLabels s labels p).goIn
    SwitchCase.writeAll rest (← p.goOut)
termination_by structural x => x

end

/-! ## What is written -/

@[simp] theorem Expr.writeLabels_eq (ls : List (Option Expr)) (p : Pen) :
    Expr.writeLabels s ls p = p.wrote (Expr.sourceLabels s p.depth ls) := by
  induction ls generalizing p with
  | nil => simp [Expr.writeLabels, Expr.sourceLabels]
  | cons l rest ih =>
    cases l with
    | none => simp [Expr.writeLabels, Expr.sourceLabels, ih, Pen.line_eq]
    | some e => simp [Expr.writeLabels, Expr.sourceLabels, ih, Pen.line_eq]

mutual

/-- A statement is written in full, and the pen is then as deep as before. -/
theorem Stmt.write_eq (t : Stmt) (p : Pen) :
    t.write s p = some (p.wrote (t.source s p.depth p.inStatic)) := by
  cases t with
  | assign t v k d => rfl
  | expr e => rfl
  | function d =>
    obtain ⟨e, n, a, c, b⟩ := d
    simp [Stmt.write, Stmt.source, block, Pen.openBlock_eq, Stmt.writeAll_eq b]
  | cond c t e =>
    simp [Stmt.write, Stmt.source, Pen.openBlock_eq, Stmt.writeAll_eq t, Stmt.writeElse_eq e]
  | whileLoop c b =>
    cases c <;> simp [Stmt.write, Stmt.source, block, Pen.openBlock_eq, Stmt.writeAll_eq b]
  | forLoop i c t b =>
    cases i <;> simp [Stmt.write, Stmt.source, block, Pen.openBlock_eq, Stmt.writeAll_eq b]
  | doUntil b c | repeatLoop c b | withLoop c b =>
    simp [Stmt.write, Stmt.source, block, Pen.openBlock_eq, Stmt.writeAll_eq b]
  | switch v cs =>
    simp [Stmt.write, Stmt.source, block, Pen.openBlock_eq, SwitchCase.writeAll_eq cs]
  | tryCatch b h f =>
    simp [Stmt.write, Stmt.source, Pen.openBlock_eq, Stmt.writeAll_eq b, Handler.write_eq h,
      Stmt.writeFinally_eq f]
  | staticInit b =>
    simp [Stmt.write, Stmt.source, Stmt.writeAll_eq b, Pen.wrote]
  | breakJump => rfl
  | continueJump => rfl
  | returns e => rfl
  | exit => rfl
  | throws e => rfl
termination_by structural t

theorem Stmt.writeAll_eq (body : List Stmt) (p : Pen) :
    Stmt.writeAll s body p = some (p.wrote (Stmt.sourceList s p.depth p.inStatic body)) := by
  cases body with
  | nil => simp [Stmt.writeAll, Stmt.sourceList]
  | cons t rest => simp [Stmt.writeAll, Stmt.sourceList, t.write_eq, Stmt.writeAll_eq rest]
termination_by structural body

/-- The chain of clauses starts and ends inside a block. -/
theorem Stmt.writeElse_eq (e : Option (List Stmt)) (p : Pen) :
    Stmt.writeElse s e p.goIn =
      some (p.wrote (Stmt.sourceElse s p.depth p.inStatic e)).goIn := by
  cases e with
  | none => simp [Stmt.writeElse, Stmt.sourceElse]
  | some body =>
    have hbody := Stmt.writeAll_eq body
    cases body with
    | nil => simp [Stmt.writeElse, Stmt.sourceElse, hbody]
    | cons t rest =>
      cases rest with
      | cons => simp [Stmt.writeElse, Stmt.sourceElse, hbody]
      | nil =>
        cases t with
        | cond c t e =>
          simp [Stmt.writeElse, Stmt.sourceElse, Stmt.writeAll_eq t, Stmt.writeElse_eq e]
        | _ => simp [Stmt.writeElse, Stmt.sourceElse, hbody]
termination_by structural e

theorem Stmt.writeFinally_eq (f : Option (List Stmt)) (p : Pen) :
    Stmt.writeFinally s f p.goIn =
      some (p.wrote (Stmt.sourceFinally s p.depth p.inStatic f)).goIn := by
  cases f with
  | none => simp [Stmt.writeFinally, Stmt.sourceFinally]
  | some body => simp [Stmt.writeFinally, Stmt.sourceFinally, Stmt.writeAll_eq body]
termination_by structural f

theorem Handler.write_eq (h : Option Handler) (p : Pen) :
    Handler.write s h p.goIn = some (p.wrote (Handler.source s p.depth p.inStatic h)).goIn := by
  cases h with
  | none => simp [Handler.write, Handler.source]
  | some h =>
    obtain ⟨n, body⟩ := h
    cases n <;> simp [Handler.write, Handler.source, Stmt.writeAll_eq body]
termination_by structural h

theorem SwitchCase.writeAll_eq (cs : List SwitchCase) (p : Pen) :
    SwitchCase.writeAll s cs p.goIn =
      some (p.wrote (SwitchCase.sourceList s p.depth p.inStatic cs)).goIn := by
  cases cs with
  | nil => simp [SwitchCase.writeAll, SwitchCase.sourceList]
  | cons c rest =>
    obtain ⟨ls, b⟩ := c
    simp [SwitchCase.writeAll, SwitchCase.sourceList, Stmt.writeAll_eq b,
      SwitchCase.writeAll_eq rest, String.append_assoc]
termination_by structural cs

end

end

end GmlLift
