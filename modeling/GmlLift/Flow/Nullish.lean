import GmlLift.Flow.Pass

/-! Nullish expressions, `a ?? b`.

```text
<a>
isnullish.e
bf [end]
popz.v
<b>
:[end]
```

The left operand stays on the stack when it is not nullish; otherwise it is discarded and the right
operand takes its place. -/

namespace GmlLift

namespace Nullish

/-- The jump of a block that ends in a nullish test. -/
def test? (g : Graph) (block : NodeId) : Option Instr := match (g.instrs block).reverse with
  | jump :: check :: _ =>
    if check.isExtended .isNullish && jump.opcode == .bf then some jump else none
  | _ => none

/-- Fold the expression whose left operand a block computes. -/
def fold (block : NodeId) : Pass (Option NodeId) := do
  let g ← get
  match test? g block with
  | none => return none
  | some jump =>
    let fault (f : LayoutFault) : FlowError := .layout .nullish jump.address f
    let target ← Pass.require (fault .noBranchTarget) jump.target?
    let rightStart := (g.node block).stop
    let right ← Pass.require (fault .noRightHandSide)
      ((g.blockAt? rightStart).filter fun _ => rightStart < target)
    if (g.firstInstr? right).all fun i => i.opcode != .popz then
      throw (.layout .nullish rightStart .leftNotDiscarded)
    let next ← Pass.require (fault .noBlockAfterExpression) (g.blockAt? target)
    modify (·.stripLast block 2)
    modify (·.stripFirst right 1)
    modify (·.disconnectSuccessors block)
    modify (·.disconnectPredecessors next fun n => rightStart ≤ n.start && n.start < target)
    let node ← Pass.add (.ofKind .nullish rightStart target 1)
    modify (·.connect block node)
    modify (·.connect node next)
    modify (·.setChild node Slot.head (some right))
    return some node

end Nullish

/-- Fold every nullish expression. -/
def findNullish : Pass (List NodeId) := do
  Pass.collect Nullish.fold (← get).blocks

end GmlLift
