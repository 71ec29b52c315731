import GmlLift.Flow.Pass

/-! Short-circuit chains of `&&` and `||`.

```text
<a> bf [false]      <a> bt [true]
<b> bf [false]      <b> bt [true]
<c> b [done]        <c> b [done]
:[false]            :[true]
push.e 0            push.e 1
:[done]             :[done]
```

Every operand but the last jumps to the block that pushes the constant result, and the last one
jumps over it. The constant is pushed by `push.e`, which ordinary numbers never are. -/

namespace GmlLift

namespace ShortCircuit

/-- The operator of a block that only pushes a constant result. -/
def result? (g : Graph) (block : NodeId) : Option Logic := match g.instrs block with
  | [i] =>
    if i.opcode = .push ∧ i.type1 = .int16 then
      i.intValue?.map fun v => if v = 0 then .and else .or
    else none
  | _ => none

/-- The jump by which an operand decides the chain. -/
def jumpOf : Logic → Opcode
  | .and => .bf
  | .or => .bt

/-- The blocks that jump to a result block, in address order, if all its predecessors do. -/
def operands? (g : Graph) (block : NodeId) (op : Logic) : Option (List NodeId) :=
  let preds := (g.node block).preds
  if !preds.isEmpty && preds.all fun p => g.endsInJump p (jumpOf op) (g.node block).start then
    some (preds.mergeSort fun a b => (g.node a).start ≤ (g.node b).start).eraseReps
  else none

/-- The node control falls through to after an operand. -/
def fallThrough (g : Graph) (operand : NodeId) : Pass NodeId :=
  Pass.require (.layout .shortCircuit (g.node operand).start .noFallThrough)
    (g.node operand).succs.head?

/-- Strip the jump that ends an operand, and its edges. -/
def cutJump (operand : NodeId) : Pass Unit := do
  modify (·.stripLast operand 1)
  modify (·.disconnectSuccessors operand)

/-- Fold the chain whose result a block pushes. Slot 0 holds the block that ends the first operand;
slot `i` starts where operand `i - 1` falls through. -/
def fold (block : NodeId) : Pass (Option NodeId) := do
  let g ← get
  match (result? g block).bind fun op => (operands? g block op).map (op, ·) with
  | none => return none
  | some (op, operands) =>
    let start := (g.node block).start
    let fault (f : LayoutFault) : FlowError := .layout .shortCircuit start f
    let last ← Pass.require (fault .noFinalOperand) (g.blocksBefore block).getLast?
    let done ← Pass.require (fault .noBlockAfterResult) (g.blockAt? (g.node block).stop)
    let doneStart := (g.node done).start
    if !g.endsInJump last .b doneStart then throw (fault .noJumpPastResult)
    let falls ← operands.mapM (fallThrough g)
    Pass.each cutJump operands
    cutJump last
    modify (·.disconnectSuccessors block)
    let first := operands.headD 0
    let children := first :: falls
    let node ← Pass.add
      (.ofKind (.shortCircuit op) (g.node first).start doneStart children.length)
    modify (·.redirectPredecessors first node fun _ => true)
    modify (·.connect node done)
    modify (·.replaceInParent first node)
    modify (·.setChildren node children)
    return some node

end ShortCircuit

/-- Fold every short-circuit chain. -/
def findShortCircuits : Pass (List NodeId) := do
  Pass.collect ShortCircuit.fold (← get).blocks

end GmlLift
