import GmlLift.Flow.Pass

/-! Loops.

Every loop is closed by a jump back, found by going through the blocks from the last to the first:

```text
while     :[head] <cond> bf [after] <body> b [head] :[after]
do/until  :[head] <body> <cond> bf [head] :[after]
repeat    <count> dup.i 0 push.e 0 cmp.i.e LTE bt [after]
          :[head] <body> push.e 1 sub.i.i dup.i 0 conv.i.b bt [head]
          :[after] popz.i
with      <target> pushenv [tail] :[head] <body> :[tail] popenv [head]
          (b [after] :[brk] popenv <drop>)? :[after]
```

Loops are folded from the outermost in. Edges of `break` and `continue` move to the loop's exit node
here and become jump nodes in the pass that finds conditionals. -/

namespace GmlLift

namespace Loops

structure Candidate where
  kind : LoopKind
  head : NodeId
  tail : NodeId
  next : NodeId
  /-- The block before the loop: the counter check of `repeat`, the `pushenv` of `with`. -/
  before : Option NodeId := none
  /-- The jump and the `popenv <drop>` block of a `with` that is left by `break`. -/
  withExit : Option (NodeId × NodeId) := none

/-- The kind of loop that a block's last instruction closes, or opens in the case of `with`. -/
def kind? (last : Instr) : Option LoopKind :=
  let backward := last.offset?.any (· < 0)
  match last.opcode with
  | .b => if backward then some .whileLoop else none
  | .bf => if backward then some .doUntil else none
  | .bt => if backward then some .repeatLoop else none
  | .pushEnv => some .withLoop
  | _ => none

def missing (address : Nat) (what : String) : FlowError :=
  .layout .loop address (.noLoopBlock what)

def need {α : Type} (address : Nat) (what : String) : Option α → Except FlowError α
  | some a => .ok a
  | none => .error (missing address what)

/-- The jump and drop blocks that let a `with` be left early, with the target of the jump. -/
def withExit? (g : Graph) (next : NodeId) : Option (NodeId × NodeId × Nat) :=
  match g.instrs next, g.nextBlock? next with
  | [jump], some drop => match g.instrs drop, jump.target? with
    | [pop], some target =>
      if pop.operand = .envExit ∧ jump.opcode = .b then some (next, drop, target) else none
    | _, _ => none
  | _, _ => none

/-- The `with` opened at the end of a block, whose `popenv` is at `target`. -/
def withCandidate (g : Graph) (block : NodeId) (address target : Nat) :
    Except FlowError Candidate := do
  let head ← need address "body" (g.nextBlock? block)
  let tail ← need address "popenv" (g.blockAt? target)
  let next ← need address "after" (g.nextBlock? tail)
  match withExit? g next with
  | some (jump, drop, exit) =>
    let next ← need address "after" (g.blockAt? exit)
    return { kind := .withLoop, head, tail, next, before := some block
             withExit := some (jump, drop) }
  | none => return { kind := .withLoop, head, tail, next, before := some block }

/-- The loop closed at the end of a block by a jump back to `target`. -/
def jumpCandidate (g : Graph) (kind : LoopKind) (block : NodeId) (address target : Nat) :
    Except FlowError Candidate := do
  let head ← need address "head" (g.blockAt? target)
  let next ← need address "after" (g.nextBlock? block)
  if kind = .repeatLoop then
    let before ← need address "repeat counter" (g.blocksBefore head).getLast?
    return { kind, head, tail := block, next, before := some before }
  else return { kind, head, tail := block, next }

/-- Candidates among blocks given from the last to the first. `heads` are the targets of `while`
loops already found: an earlier jump to one of them is a `continue`. -/
def candidatesIn (g : Graph) : (heads : List Nat) → List NodeId →
    Except FlowError (List Candidate)
  | _, [] => .ok []
  | heads, block :: rest =>
    match (g.lastInstr? block).bind fun last => (kind? last).map (last, ·) with
    | none => candidatesIn g heads rest
    | some (last, kind) => match last.target? with
      | none => .error (.layout .loop last.address .noBranchTarget)
      | some target =>
        if kind = .whileLoop ∧ target ∈ heads then candidatesIn g heads rest
        else do
          let found ← if kind = .withLoop then withCandidate g block last.address target
            else jumpCandidate g kind block last.address target
          let heads := if kind = .whileLoop then target :: heads else heads
          return found :: (← candidatesIn g heads rest)

/-- Outer loops first: by start, and of loops that start together the one that ends later. -/
def outerFirst (g : Graph) (a b : Candidate) : Bool :=
  let (sa, sb) := ((g.node a.head).start, (g.node b.head).start)
  sa < sb || (sa == sb && (g.node b.next).start ≤ (g.node a.next).start)

def candidates (g : Graph) : Except FlowError (List Candidate) :=
  (candidatesIn g [] g.blocks.reverse).map fun cs => cs.mergeSort (outerFirst g)

/-- The first block between two addresses that ends in a jump on false out of the loop. -/
def whileCondition? (g : Graph) (start stop next : Nat) : Option NodeId :=
  g.blocks.find? fun b =>
    start ≤ (g.node b).start && (g.node b).start < stop && g.endsInJump b .bf next

/-- Whether a block ends in the counter check of `repeat`. -/
def isCounterCheck (g : Graph) (block : NodeId) : Bool := match (g.instrs block).reverse with
  | jump :: compare :: zero :: dup :: _ =>
    dup.opcode == .dup && zero.intValue? == some 0 && compare.comparison? == some .lessEqual
      && jump.opcode == .bt
  | _ => false

/-- Drop the `popz` by which the code after a `repeat` takes the counter off the stack. -/
def dropCounter (next : NodeId) (g : Graph) : Graph :=
  if (g.firstInstr? next).any fun i => i.opcode == .popz then g.stripFirst next 1 else g

/-- Take the loop's own instructions and edges out of its blocks. Gives the loop's facts and the
first node of its body. -/
def strip (c : Candidate) : Pass (LoopInfo × NodeId) := do
  let g ← get
  let start := (g.node c.head).start
  let stop := (g.node c.next).start
  let tailStart := (g.node c.tail).start
  let info : LoopInfo :=
    { kind := c.kind, continueAddress := tailStart, breakAddress := some stop }
  match c.kind with
  | .whileLoop =>
    let info := { info with
      continueAddress := start
      stepAddress := if tailStart ≠ start then some tailStart else none }
    modify (·.stripLast c.tail 1)
    modify (·.disconnect c.tail c.head)
    let g ← get
    match whileCondition? g start (tailStart + 1) stop with
    | none => return (info, c.head)
    | some condition =>
      let body ← Pass.require (.layout .whileLoop start .noBodyAfterCondition)
        (g.node condition).succs.head?
      modify (·.stripLast condition 1)
      modify (·.disconnectSuccessors condition)
      return ({ info with hasCondition := true }, body)
  | .doUntil =>
    modify (·.stripLast c.tail 1)
    modify (·.disconnectSuccessors c.tail)
    return (info, c.head)
  | .repeatLoop =>
    let before ← Pass.require (.layout .repeatLoop start .noCounterBlock) c.before
    if !isCounterCheck g before || (g.instrs c.tail).length < 5 then
      throw (.layout .repeatLoop start .unknownCounter)
    modify (·.stripLast before 4)
    modify (·.disconnect before c.next)
    modify (·.stripLast c.tail 5)
    modify (·.disconnectSuccessors c.tail)
    modify (dropCounter c.next)
    return (info, c.head)
  | .withLoop =>
    let before ← Pass.require (.layout .withLoop start .noEnvBlock) c.before
    modify (·.stripLast before 1)
    modify (·.disconnect before c.tail)
    modify (·.stripLast c.tail 1)
    modify (·.disconnectSuccessors c.tail)
    match c.withExit with
    | none => return ({ info with breakAddress := none }, c.head)
    | some (jump, drop) =>
      modify (·.stripLast jump 1)
      modify (·.disconnectSuccessors jump)
      modify (·.stripLast drop 1)
      modify (·.disconnectSuccessors drop)
      return ({ info with breakAddress := some ((← get).node drop).start }, c.head)

/-- Where `break` leads, if the loop has such a place. -/
def breakTarget? (c : Candidate) : Option NodeId := match c.withExit with
  | some (_, drop) => some drop
  | none => if c.kind = .withLoop then none else some c.next

/-- Move the edges by which the inside of a loop breaks or continues to the loop's exit. -/
def moveExits (c : Candidate) (exit : NodeId) (inside : Node → Bool) (g : Graph) : Graph :=
  let g := match breakTarget? c with
    | some target => g.redirectPredecessors target exit inside
    | none => g
  if c.kind = .whileLoop then g.redirectPredecessors c.head exit inside else g

/-- Let the rest of the graph see a loop's node in place of its head, and hang the loop's parts under
the node. -/
def splice (c : Candidate) (node exit body : NodeId) (inside : Node → Bool) (g : Graph) : Graph :=
  let g := moveExits c exit inside (g.setParent exit (some node))
  let g := (g.redirectPredecessors c.head node fun n => !inside n).connect node c.next
  let g := (g.replaceInParent c.head node).writeSlot node Slot.loopExit (some exit)
  let g := g.setChild node Slot.loopHead (some c.head)
  let g := (g.setChild node Slot.loopTail (some c.tail)).setChild node Slot.loopBody (some body)
  { g with loops := g.loops ++ [node] }

/-- Fold one loop into a node with a synthetic exit. -/
def fold (c : Candidate) : Pass NodeId := do
  let g ← get
  let start := (g.node c.head).start
  let stop := (g.node c.next).start
  let (info, body) ← strip c
  let node ← Pass.add (.ofKind (.loop info) start stop 4)
  let exit ← Pass.add (.ofKind .empty stop stop 0)
  modify (splice c node exit body fun n => start ≤ n.start && n.start < stop)
  return node

end Loops

/-- Fold every loop, the outermost first. -/
def findLoops : Pass (List NodeId) := do
  let found ← Pass.ofExcept (Loops.candidates (← get))
  found.mapM Loops.fold

end GmlLift
