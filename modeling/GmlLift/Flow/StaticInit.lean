import GmlLift.Flow.Pass

/-! Initializers of static variables.

```text
isstaticok.e
bt [done]
...initializers...
setstatic.e
:[done]
``` -/

namespace GmlLift

namespace StaticInit

/-- The jump of a block that ends in the guard of an initializer. -/
def guard? (g : Graph) (block : NodeId) : Option Instr := match (g.instrs block).reverse with
  | jump :: check :: _ =>
    if check.isExtended .hasStatic && jump.opcode == .bt then some jump else none
  | _ => none

/-- Take the mark of a finished initializer from the end of the code before `target`. -/
def dropMarker (block : NodeId) (target : Nat) (g : Graph) : Graph :=
  match g.blockEndingAt? target with
  | some last =>
    if last != block && (g.lastInstr? last).any (·.isExtended .setStatic) then g.stripLast last 1
    else g
  | none => g

/-- Fold the initializer that a block guards. -/
def fold (block : NodeId) : Pass (Option NodeId) := do
  let g ← get
  match guard? g block with
  | none => return none
  | some jump =>
    let target ← Pass.require (.layout .staticInit jump.address .noBranchTarget) jump.target?
    let bodyStart := (g.node block).stop
    let next ← Pass.require (.layout .staticInit jump.address .noBlockAfterInitializer)
      (g.blockAt? target)
    modify (·.stripLast block 2)
    modify (·.disconnectSuccessors block)
    modify (dropMarker block target)
    let g ← get
    let body := if bodyStart < target then g.blockAt? bodyStart else none
    modify (·.disconnectPredecessors next fun n => bodyStart ≤ n.start && n.start < target)
    let node ← Pass.add (.ofKind .staticInit bodyStart target 1)
    modify (·.connect block node)
    modify (·.connect node next)
    modify (·.setChild node Slot.head body)
    return some node

end StaticInit

/-- Fold every static initializer. -/
def findStaticInits : Pass (List NodeId) := do
  Pass.collect StaticInit.fold (← get).blocks

end GmlLift
