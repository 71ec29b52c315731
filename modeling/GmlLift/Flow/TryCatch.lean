import GmlLift.Flow.Blocks
import GmlLift.Flow.Pass

/-! Exception handlers.

```text
push.i [fin]; conv.i.v; push.i [catch]; conv.i.v    ; catch is -1 without a catch block
call.i @@try_hook@@ 2; popz.v
<try>
call.i @@try_unhook@@ 0; popz.v; b [fin]
:[catch]
pop.v.v local.e; call.i @@try_unhook@@ 0; popz.v    ; in either order
<catch>
b [fin]
:[fin]
<finally>
call.i @@finish_finally@@ 0; popz.v
```

The older layout places the finally body before the catch body and jumps over the latter:

```text
<try>; call.i @@try_unhook@@ 0; popz.v; b [fin]
:[fin]
<finally>
call.i @@finish_finally@@ 0; popz.v; b [after]
:[catch]
pop.v.v local.e; call.i @@try_unhook@@ 0; popz.v
<catch>
b [fin]
:[after]
``` -/

namespace GmlLift

namespace TryCatch

/-- Which of the two handlers comes first. -/
inductive Layout where
  | catchFirst
  | finallyFirst
deriving DecidableEq

/-- Whether code ends in a call of the named function whose result is dropped. -/
def endsInCall (is : List Instr) (name : String) : Bool := match is.reverse with
  | pop :: call :: _ => call.isCallTo name && pop.opcode == .popz
  | _ => false

def endsInB (g : Graph) (block : NodeId) : Bool :=
  (g.lastInstr? block).any fun i => i.opcode == .b

/-- Strip the jump at the end of a block, if it ends in one. -/
def dropJump (block : NodeId) (g : Graph) : Graph :=
  if endsInB g block then g.stripLast block 1 else g

/-- Strip the unhooking at the end of a try body. -/
def dropUnhook (block : NodeId) (g : Graph) : Graph :=
  if endsInCall (g.instrs block) Hook.unhook then g.stripLast block 2 else g

/-- What a catch body starts with: the store of the caught value, once, and calls of the unhook
function, in any order. Gives the number of instructions and the variable. -/
def prologue : (name : Option String) → List Instr → Nat × Option String
  | name, pop :: rest =>
    if pop.opcode = .pop ∧ name.isNone then match pop.operand with
      | .var v =>
        let (n, name) := prologue (some v.name) rest
        (n + 1, name)
      | _ => (0, name)
    else match rest with
      | popz :: rest =>
        if pop.isCallTo Hook.unhook && popz.opcode == .popz then
          let (n, name) := prologue name rest
          (n + 2, name)
        else (0, name)
      | [] => (0, name)
  | name, [] => (0, name)

/-- The block that closes a finally body: the first one from `start` up to `limit` that finishes a
finally, before any that opens another try. -/
def finallyEnd? (g : Graph) (start limit : Nat) : Option NodeId :=
  let within := g.blocks.filter fun b => start ≤ (g.node b).start && (g.node b).stop ≤ limit
  (within.takeWhile fun b => !endsInCall (g.instrs b) Hook.try_).find? fun b =>
    endsInCall (g.instrs b) Hook.finishFinally

/-- The hook at the end of a block: the address of the call and the two pushes before it. -/
def hook? (g : Graph) (block : NodeId) : Option (Nat × Instr × Instr) :=
  match (g.instrs block).reverse with
  | pop :: call :: _ :: catch_ :: _ :: finally_ :: _ =>
    if call.isCallTo Hook.try_ && pop.opcode == .popz then some (call.address, finally_, catch_)
    else none
  | _ => none

/-- Close the finally body. Gives its first block and the address where it ends. -/
def closeFinally (start limit : Nat) : Pass (Option NodeId × Nat) := do
  match finallyEnd? (← get) start limit with
  | none => return (none, start)
  | some last =>
    modify (·.stripLast last 2)
    modify (·.disconnectSuccessors last)
    let g ← get
    let stop := (g.node last).stop
    return (if start < stop then g.blockAt? start else none, stop)

/-- In the older layout the finally body jumps over the catch body. Gives where the statement
ends. -/
def skipCatch (stop : Nat) : Pass Nat := do
  let g ← get
  match g.blockAt? stop with
  | none => return stop
  | some block => match g.instrs block with
    | [jump] => match jump.target? with
      | some target =>
        if jump.opcode = .b ∧ stop < target then
          modify (·.stripLast block 1)
          modify (·.disconnectSuccessors block)
          return target
        else return stop
      | none => return stop
    | _ => return stop

/-- Open and close the catch body. Gives its first block and the variable of the caught value. -/
def closeCatch (start stop : Nat) : Pass (NodeId × Option String) := do
  let head ← Pass.require (.layout .tryCatch start .noCatchBlock) ((← get).blockAt? start)
  let (count, name) := prologue none ((← get).instrs head)
  modify (·.stripFirst head count)
  modify (·.setUnreachable head false)
  modify (·.disconnectPredecessors head fun _ => true)
  let last ← Pass.require (.layout .tryCatch start .catchOpen) ((← get).blockEndingAt? stop)
  modify (dropJump last)
  modify (·.disconnectSuccessors last)
  return (head, name)

/-- Where the statement ends: past the catch body where it stands last. -/
def statementEnd (layout : Layout) (catchAddress : Option Nat) (finallyStop : Nat) : Pass Nat :=
  if layout = .finallyFirst ∧ catchAddress.isSome then skipCatch finallyStop else pure finallyStop

/-- The catch body that ends at `stop`, if the statement has one. -/
def closeCatch? (stop : Nat) : Option Nat → Pass (Option NodeId × Option String)
  | none => return (none, none)
  | some start => do
    let (head, name) ← closeCatch start stop
    return (some head, name)

/-- Fold the statement whose hook a block sets. -/
def fold (layout : Layout) (block : NodeId) : Pass (Option NodeId) := do
  let g ← get
  match hook? g block with
  | none => return none
  | some (address, finallyPush, catchPush) =>
    let fault (f : LayoutFault) : FlowError := .layout .tryCatch address f
    let finallyAddress ← Pass.require (fault .noFinallyAddress)
      (← Pass.ofExcept (Hook.address? finallyPush))
    let catchAddress ← Pass.ofExcept (Hook.address? catchPush)
    if catchAddress.any fun c => decide (finallyAddress < c) != (layout == .finallyFirst) then
      throw (fault .handlersOutOfOrder)
    modify (·.stripLast block 6)
    let start := (g.node block).stop
    let body ← Pass.require (fault .noTryBody) ((← get).blockAt? start)
    let tryStop := match layout, catchAddress with
      | .catchFirst, some c => c
      | _, _ => finallyAddress
    let tryLast ← Pass.require (fault .tryBodyOpen) ((← get).blockEndingAt? tryStop)
    modify (dropJump tryLast)
    modify (dropUnhook tryLast)
    modify (·.disconnectSuccessors tryLast)
    let limit := match layout, catchAddress with
      | .finallyFirst, some c => c
      | _, _ => g.codeLength
    let (finallyBody, finallyStop) ← closeFinally finallyAddress limit
    let stop ← statementEnd layout catchAddress finallyStop
    let (catchBody, name) ← closeCatch? (if layout = .finallyFirst then stop else finallyAddress)
      catchAddress
    let next ← Pass.require (fault .noBlockAfterTry) ((← get).blockAt? stop)
    modify (·.disconnectSuccessors block)
    modify (·.disconnectPredecessors next fun n => start ≤ n.start && n.start < stop)
    let node ← Pass.add (.ofKind (.tryCatch name) start stop 3)
    modify (·.connect block node)
    modify (·.connect node next)
    modify (·.setChild node Slot.tryBody (some body))
    modify (·.setChild node Slot.catchBody catchBody)
    modify (·.setChild node Slot.finallyBody finallyBody)
    return some node

end TryCatch

/-- Fold every exception handler of the given layout. -/
def findTryCatch (layout : TryCatch.Layout) : Pass (List NodeId) := do
  Pass.collect (TryCatch.fold layout) (← get).blocks

end GmlLift
