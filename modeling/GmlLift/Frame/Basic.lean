import GmlLift.Frame.Error
import GmlLift.Instr.Text
import GmlLift.Table
import GmlLift.Tree.Basic

/-! The symbolic state of one function while its instructions are read. -/

namespace GmlLift

structure Frame where
  entry : String
  argumentCount : Nat := 0
  /-- The operand stack, its top first. -/
  stack : List Expr := []
  /-- Embedded functions that are built and not pushed yet. -/
  functions : Table String FunctionDecl := ∅
  /-- What was stored into the return temporary and not read back yet. -/
  returnValue : Option Expr := none

/-- A step on a frame that may fail. What a failing step has taken off the stack stays off. -/
abbrev Step (α : Type) := EStateM BuildError Frame α

namespace Step

def underflow {α : Type} (i : Instr) : Step α := throw (.underflow i.address i.text)

def unexpected {α : Type} (i : Instr) : Step α := throw (.unexpected i.address i.text)

/-- Take the top value. -/
def pop (i : Instr) : Step Expr := do
  let f ← get
  match f.stack with
  | [] => underflow i
  | e :: rest =>
    set { f with stack := rest }
    return e

/-- Take a number of values, the top one first. -/
def popMany (i : Instr) : Nat → Step (List Expr)
  | 0 => return []
  | n + 1 => do
    let e ← pop i
    return e :: (← popMany i n)

def push (e : Expr) : Step Unit := modify fun f => { f with stack := e :: f.stack }

end Step

namespace Frame

/-- How many values from the top make up a number of bytes on the machine's stack. -/
def spanning (bytes : Nat) : List Expr → Option Nat
  | [] => if bytes = 0 then some 0 else none
  | e :: rest =>
    if bytes = 0 then some 0
    else (spanning (bytes - e.stackType.stackSize) rest).map (· + 1)

end Frame

end GmlLift
