import GmlLift.Flow.Pass
import GmlLift.Flow.StackEffect

/-! Switch statements.

```text
<value>
dup.v 0; <case 1>; cmp.v.v EQ; bt [case1]
dup.v 0; <case 2>; cmp.v.v EQ; bt [case2]
b [default]                   ; or b [end] without a default
:[case1] ... b [end]          ; break
:[case2] ...
:[default] ...
:[end]
popz.v                        ; discard the switch value
```

Leaving the enclosing loop or the function from inside a case first discards the switch value, so a
`popz.v` stands before `continue`, `exit` and `return`; those are stripped here. -/

namespace GmlLift

/-- The local that holds a return value while the stack is cleared. -/
def returnTemp : String := "$$$$temp$$$$"

namespace Switch

/-- A tested value with the address of its case. -/
structure Case where
  value : List Instr
  target : Nat

structure Candidate where
  first : NodeId
  /-- Where the first test starts in the first block. -/
  dupIndex : Nat
  /-- The test blocks after the first, and the block of the default jump. -/
  chain : List NodeId
  cases : List Case
  otherwise : Nat

/-- The case that code tests for, if a test starts at the given position and runs to the end. -/
def caseTest? (is : List Instr) (dupIndex : Nat) : Option Case :=
  match is.drop dupIndex with
  | [] => none
  | dup :: rest => match dup.opcode, dup.operand, rest.reverse with
    | .dup, .dup _ swap, jump :: compare :: value =>
      if swap = 0 ∧ compare.comparison? = some .equal ∧ jump.opcode = .bt then
        jump.target?.map fun target => ⟨value.reverse, target⟩
      else none
    | _, _, _ => none

/-- The position of the last `dup` that leaves room for a comparison and a jump after it. -/
def lastDup? (is : List Instr) : Option Nat :=
  let front := is.take (is.length - 2)
  (front.reverse.findIdx? fun i => i.opcode == .dup).map fun k => front.length - 1 - k

/-- Follow the tests from block to block up to the default jump. Gives the cases, the blocks and
the target of the default jump, if there is one. -/
def tests (g : Graph) : List NodeId → List Case × List NodeId × Option Nat
  | [] => ([], [], none)
  | block :: rest => match caseTest? (g.instrs block) 0 with
    | some c =>
      let (cases, chain, target) := tests g rest
      (c :: cases, block :: chain, target)
    | none => match g.instrs block with
      | [jump] => if jump.opcode = .b then ([], [block], jump.target?) else ([], [], none)
      | _ => ([], [], none)

/-- The switch whose first test ends a block. -/
def candidate? (g : Graph) (block : NodeId) : Option Candidate := do
  let is := g.instrs block
  if is.length < 3 then none
  let dupIndex ← lastDup? is
  let first ← caseTest? is dupIndex
  let (cases, chain, otherwise) := tests g (g.blocksAfter block)
  return { first := block, dupIndex, chain, cases := first :: cases, otherwise := ← otherwise }

/-- Candidates in address order. A block that belongs to a switch starts no other. -/
def candidatesIn (g : Graph) : (claimed : List NodeId) → List NodeId → List Candidate
  | _, [] => []
  | claimed, block :: rest =>
    if claimed.contains block then candidatesIn g claimed rest
    else match candidate? g block with
      | some c => c :: candidatesIn g (c.chain ++ claimed) rest
      | none => candidatesIn g claimed rest

/-- A push of the saved return value and its `ret`. -/
def isSavedReturn (push ret : Instr) : Bool :=
  (push.var?.any fun v => v.name == returnTemp) && ret.opcode == .ret

/-- Whether a `popz` that is followed by `rest` discards the switch value on the way out of the
switch (continue, exit, return) rather than at its end. -/
def isEarlyDiscard (g : Graph) (rest : List Instr) : Bool := match rest with
  | [] => false
  | i :: more =>
    if i.opcode = .b then true
    else if more.head?.any (isSavedReturn i) then true
    else if i.opcode = .exit then
      -- an exit right before the end of another switch belongs to a case
      ((g.blockAt? i.endAddress).bind g.firstInstr?).any fun j => j.opcode == .popz
    else false

/-- The address of the `popz` that takes the value below `depth` further values. -/
def closingPop? (g : Graph) : (depth : Int) → List Instr → Option Nat
  | _, [] => none
  | depth, i :: rest =>
    if i.opcode = .popz ∧ depth = 0 ∧ !isEarlyDiscard g rest then some i.address
    else closingPop? g (depth + i.stackEffect.net) rest

/-- Address ranges of switches already folded. -/
abbrev Folded := List (Nat × Nat)

def Folded.covers (folded : Folded) (address : Nat) : Bool :=
  folded.any fun (start, stop) => start ≤ address && address < stop

/-- The block and address of the `popz` that ends a switch whose last case starts at `start`. -/
def endAt? (g : Graph) (folded : Folded) (start : Nat) : Option (NodeId × Nat) :=
  (g.blocks.filter fun b => start ≤ (g.node b).start).findSome? fun b =>
    if folded.covers (g.node b).start then none
    else (closingPop? g 0 (g.instrs b)).map (b, ·)

/-- The block that starts with the end of the switch. -/
def findEnd (folded : Folded) (start : Nat) : Pass (Option NodeId) := do
  match endAt? (← get) folded start with
  | none => return none
  | some (block, address) =>
    let (g, second) := (← get).splitBlock block address
    set g
    return second

/-- Whether an instruction leaves the switch that covers the given addresses. -/
def leaves (start stop : Nat) (i : Instr) : Bool :=
  i.opcode == .exit || (i.opcode == .b && i.target?.any fun t => t < start || stop < t)

/-- Drop the `popz` that discards the switch value before the code leaves the switch. -/
def dropDiscard (start stop : Nat) (is : List Instr) : List Instr := match is.reverse with
  | last :: pop :: before =>
    if pop.opcode = .popz ∧ leaves start stop last then (last :: before).reverse
    else match before with
      | pop' :: before =>
        if pop'.opcode = .popz ∧ isSavedReturn pop last then (last :: pop :: before).reverse else is
      | [] => is
  | _ => is

/-- Clean one block of a case: the early discard goes, and a jump to the end becomes a `break`. -/
def cleanBlock (start stop : Nat) (block : NodeId) : Pass Unit := do
  modify (·.mapInstrs block (dropDiscard start stop))
  if (← get).endsInJump block .b stop then Pass.convertJump block .breakJump

/-- The labels that lead to an address: the cases in order, then the default. -/
def labelsAt (c : Candidate) (stop address : Nat) : List CaseLabel :=
  (c.cases.zipIdx.filterMap fun (k, index) =>
      if k.target = address then some (.value index) else none)
    ++ if c.otherwise = address ∧ c.otherwise ≠ stop then [.otherwise] else []

/-- The addresses that carry labels, each once and in order. -/
def labelTargets (c : Candidate) (stop : Nat) : List Nat :=
  let targets := c.cases.map Case.target ++ if c.otherwise ≠ stop then [c.otherwise] else []
  (targets.mergeSort (· ≤ ·)).eraseReps

/-- Put a marker with the labels of an address in front of what starts there. -/
def mark (c : Candidate) (stop address : Nat) : Pass NodeId := do
  let marker ← Pass.add (.ofKind (.switchCase (labelsAt c stop address)) address address 0)
  if address < stop then
    let g ← get
    let block ← Pass.require (.layout .switch address .caseNotBlock) (g.blockAt? address)
    let top := g.outermostAt block
    modify (·.redirectPredecessors top marker fun _ => true)
    modify (·.connect marker top)
  return marker

/-- The first and the last address that a test jumps to. -/
def targetRange (c : Candidate) : Nat × Nat :=
  let targets := c.cases.map Case.target
  (targets.foldl min c.otherwise, targets.foldl max c.otherwise)

/-- The blocks of the cases, without those of inner switches and of the tests. -/
def bodyBlocks (g : Graph) (c : Candidate) (folded : Folded) (start stop : Nat) : List NodeId :=
  g.blocks.filter fun b =>
    let at_ := (g.node b).start
    start ≤ at_ && at_ < stop && !folded.covers at_ && !c.chain.contains b

/-- Strip the first test from the block it ends, and cut the edges of every test. -/
def cutTests (c : Candidate) (g : Graph) : Graph :=
  (c.first :: c.chain).foldl Graph.disconnectSuccessors
    (g.mapInstrs c.first (List.take c.dupIndex))

/-- Fold one switch. -/
def fold (folded : Folded) (c : Candidate) : Pass NodeId := do
  let g ← get
  let firstStop := (g.node c.first).stop
  let (lowest, highest) := targetRange c
  let endBlock ← Pass.require (.layout .switch firstStop .noSwitchEnd) (← findEnd folded highest)
  let stop := ((← get).node endBlock).start
  modify (cutTests c)
  modify (·.stripFirst endBlock 1)
  let g ← get
  let body := bodyBlocks g c folded (min lowest stop) stop
  Pass.each (cleanBlock (g.node c.first).start stop) body
  modify (·.disconnectPredecessors endBlock fun n => firstStop ≤ n.start && n.start < stop)
  let markers ← (labelTargets c stop).mapM (mark c stop)
  let node ← Pass.add (.ofKind (.switch (c.cases.map Case.value)) firstStop stop markers.length)
  modify (·.connect c.first node)
  modify (·.connect node endBlock)
  modify (·.setChildren node markers)
  return node

/-- Fold candidates in the given order. -/
def foldAll : (folded : Folded) → List Candidate → Pass (List NodeId)
  | _, [] => return []
  | folded, c :: rest => do
    let node ← fold folded c
    let n := (← get).node node
    return node :: (← foldAll ((n.start, n.stop) :: folded) rest)

end Switch

/-- Fold every switch, the last in the code first, so that inner ones come before outer ones. -/
def findSwitches : Pass (List NodeId) := do
  let g ← get
  Switch.foldAll [] (Switch.candidatesIn g [] g.blocks).reverse

end GmlLift
