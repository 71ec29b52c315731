import GmlLift.Flow.Pass

/-! Conditionals, and the `break` and `continue` jumps left inside loops.

```text
<cond> bf [else]
<true> b [after]      ; absent without an else
:[else]
<else>
:[after]
```

A conditional expression has the same shape; what each branch leaves on the stack tells them apart
later. -/

namespace GmlLift

namespace Branch

/-- Where a block goes on false, if it ends in such a jump. -/
def falseTarget? (g : Graph) (n : NodeId) : Option Nat :=
  ((g.lastInstr? n).filter fun i => i.opcode == .bf).bind Instr.target?

/-- Whether the jump at the end of a block closes the true branch of a conditional rather than
continuing to `target`. A conditional with an else at the end of a loop body compiles to the same
code as one whose true branch continues; the former reading wins, unless the jump is the whole
branch or an enclosing conditional ends before `target`. -/
def endsTrueBranch (g : Graph) (block : NodeId) (target loopStart : Nat) : Bool :=
  let n := g.node block
  let before := g.blocks.filter fun b =>
    loopStart ≤ (g.node b).start && (g.node b).start < n.start
  match before.reverse.find? fun b => falseTarget? g b == some n.stop with
  | none => false
  | some owner =>
    if (g.node owner).stop = n.start ∧ (g.instrs block).length = 1 then false
    else !before.any fun b =>
      (g.node b).start < (g.node owner).start
        && (falseTarget? g b).any fun t => n.stop ≤ t && t < target

/-- What the jump at the end of a block does to the innermost loop around it. -/
inductive LoopJump where
  | toHead
  | toStep
  | out

/-- The loop that a jump belongs to and what it does there. -/
def loopJump? (g : Graph) (block : NodeId) : Option (NodeId × LoopJump) := do
  let last ← g.lastInstr? block
  if last.opcode ≠ .b then none
  let target ← last.target?
  let loop ← g.enclosingLoop? last.address
  let info ← g.loopInfo? loop
  let start := (g.node loop).start
  if target = info.continueAddress
      ∧ (info.kind = .whileLoop ∨ !endsTrueBranch g block target start) then
    some (loop, .toHead)
  else if info.stepAddress = some target ∧ !endsTrueBranch g block target start then
    some (loop, .toStep)
  else if info.breakAddress = some target then some (loop, .out)
  else none

/-- Record that some `continue` jumps to the step of a loop. -/
def markStep (loop : NodeId) (g : Graph) : Graph :=
  g.modifyNode loop fun n => match n.kind with
    | .loop info => { n with kind := .loop { info with continuesToStep := true } }
    | _ => n

/-- Resolve the jump at the end of a block against the innermost loop. -/
def resolveJump (block : NodeId) : Pass Unit := do
  match loopJump? (← get) block with
  | none => pure ()
  | some (_, .toHead) => Pass.convertJump block .continueJump
  | some (loop, .toStep) => do
    modify (markStep loop)
    Pass.convertJump block .continueJump
  | some (_, .out) => Pass.convertJump block .breakJump

/-- Add what can be reached from the nodes of a worklist. Each node enters `seen` once, and its
successors enter the list then; `fuel` bounds the nodes and edges together. -/
def reach (g : Graph) : (fuel : Nat) → (seen work : List NodeId) → List NodeId
  | 0, seen, _ => seen
  | _ + 1, seen, [] => seen
  | fuel + 1, seen, n :: work =>
    if seen.contains n then reach g fuel seen work
    else reach g fuel (n :: seen) ((g.node n).succs ++ work)

/-- How often a worklist over the whole graph can be taken from. -/
def reachBound (g : Graph) : Nat :=
  1 + (g.nodes.items.toList.flatMap Node.succs).length

def reachableFrom (g : Graph) (n : NodeId) : List NodeId := reach g (reachBound g) [] [n]

/-- Walk the true branch until it reaches code at or past the false branch. A successor that the
false branch reaches too is preferred, so that the walk follows the shared path. -/
def walkToMeet (g : Graph) (onFalse : NodeId) (shared : List NodeId) :
    (fuel : Nat) → (seen : List NodeId) → NodeId → NodeId
  | 0, _, _ => onFalse
  | fuel + 1, seen, n =>
    let x := g.node n
    if x.isJump then onFalse
    else if n = onFalse ∨ (g.node onFalse).start ≤ x.start then n
    else if seen.contains n then onFalse
    else match x.succs.find? shared.contains <|> x.succs.head? with
      | some next => walkToMeet g onFalse shared fuel (n :: seen) next
      | none => onFalse

/-- Where the two branches of a condition come together. -/
def meet (g : Graph) (onTrue onFalse : NodeId) : NodeId :=
  if onTrue = onFalse then onFalse
  else walkToMeet g onFalse (reachableFrom g onFalse) (g.nodes.size + 1) [] onTrue

/-- Cut an edge to the meeting point, with the jump that makes it. -/
def cutEdge (meet : NodeId) (meetStart : Nat) (pred : NodeId) (g : Graph) : Graph :=
  (if g.endsInJump pred .b meetStart then g.stripLast pred 1 else g).disconnect pred meet

/-- Where control goes on true and on false. -/
def twoWay? (g : Graph) (condition : NodeId) : Option (NodeId × NodeId) :=
  match (g.node condition).succs with
  | [onTrue, onFalse] => some (onTrue, onFalse)
  | _ => none

/-- The true branch, which is an empty node where it has no code. -/
def trueBranch (onTrue meet : NodeId) (meetStart : Nat) : Pass NodeId :=
  if onTrue = meet then Pass.add (.ofKind .empty meetStart meetStart 0) else pure onTrue

/-- The else branch. One without code is there only if the true branch jumps over it. -/
def elseBranch (onFalse meet : NodeId) (meetStart : Nat) (jumped : Bool) : Pass (Option NodeId) :=
  if onFalse ≠ meet then pure (some onFalse)
  else if jumped then some <$> Pass.add (.ofKind .empty meetStart meetStart 0)
  else pure none

/-- Fold the conditional whose condition a block computes. -/
def fold (condition : NodeId) : Pass NodeId := do
  let g ← get
  let start := (g.node condition).start
  let (onTrue, onFalse) ← Pass.require (.layout .conditional start .notTwoWay) (twoWay? g condition)
  let meet := meet g onTrue onFalse
  let meetStart := (g.node meet).start
  let preds := (g.node meet).preds.filter fun p =>
    p != condition && start ≤ (g.node p).start && (g.node p).start < meetStart
  let trueBranch ← trueBranch onTrue meet meetStart
  let elseBranch ← elseBranch onFalse meet meetStart
    (preds.any fun p => g.endsInJump p .b meetStart)
  Pass.each (fun pred => modify (cutEdge meet meetStart pred)) preds
  modify (·.stripLast condition 1)
  modify (·.disconnectSuccessors condition)
  let node ← Pass.add (.ofKind .branch start meetStart 3)
  modify (·.redirectPredecessors condition node fun _ => true)
  modify (·.replaceInParent condition node)
  modify (·.connect node meet)
  modify (·.setChild node Slot.condition (some condition))
  modify (·.setChild node Slot.onTrue (some trueBranch))
  modify (·.setChild node Slot.onFalse elseBranch)
  return node

/-- Fold the conditional of a block that ends in a jump on false. -/
def visit (block : NodeId) : Pass (Option NodeId) := do
  if ((← get).lastInstr? block).any fun i => i.opcode == .bf then some <$> fold block
  else return none

end Branch

/-- Resolve the jumps inside loops, then fold every conditional, the last in the code first. -/
def findBranches : Pass (List NodeId) := do
  Pass.each Branch.resolveJump (← get).blocks
  Pass.collect Branch.visit (← get).blocks.reverse

end GmlLift
