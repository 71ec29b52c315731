import GmlLift.Flow.Node
import GmlLift.Slots

/-! The flow graph of one root entry, its queries and its edits.

Folding never deletes a node: a composite takes over the outer edges of the region it replaces and
holds the region's entries in child slots. Passes change the graph only through the edits below,
each of which keeps successor and predecessor lists in step. -/

namespace GmlLift

structure Graph where
  nodes : Slots Node := {}
  /-- Basic blocks in address order, with an empty one at the end of the code. -/
  blocks : List NodeId := []
  /-- Fragments, the root first. -/
  fragments : List NodeId := []
  /-- Loops in the order they were folded, outer before inner. -/
  loops : List NodeId := []
  codeLength : Nat

namespace Graph

/-! ## Queries -/

/-- The node in a slot; a slot without one reads as an empty node. -/
def node (g : Graph) (n : NodeId) : Node := (g.nodes.get? n).getD default

def root? (g : Graph) : Option NodeId := g.fragments.head?

def instrs (g : Graph) (n : NodeId) : List Instr := (g.node n).instrs

def firstInstr? (g : Graph) (n : NodeId) : Option Instr := (g.instrs n).head?

def lastInstr? (g : Graph) (n : NodeId) : Option Instr := (g.instrs n).getLast?

/-- Halve a range of blocks in address order until one block is left, and give it if it starts at
the address. Each step takes at least one block off the range, so its length is fuel enough. -/
def bisect (g : Graph) (address : Nat) : (fuel : Nat) → List NodeId → Option NodeId
  | 0, _ => none
  | fuel + 1, range =>
    let half := range.length / 2
    if half = 0 then range.find? fun b => (g.node b).start == address
    else match range.drop half with
      | [] => none
      | middle :: rest =>
        if address < (g.node middle).start then g.bisect address fuel (range.take (range.length - half))
        else g.bisect address fuel (middle :: rest)

/-- The block that starts at an address. -/
def blockAt? (g : Graph) (address : Nat) : Option NodeId :=
  g.bisect address (g.blocks.length + 1) g.blocks

/-- The last block that is not empty and ends at an address. -/
def blockEndingAt? (g : Graph) (address : Nat) : Option NodeId :=
  (g.blocks.filter fun b => (g.node b).stop == address && (g.node b).start < address).getLast?

def blockIndex? (g : Graph) (n : NodeId) : Option Nat := g.blocks.findIdx? (· == n)

/-- The blocks after a block, in address order. -/
def blocksAfter (g : Graph) (n : NodeId) : List NodeId := (g.blocks.dropWhile (· != n)).drop 1

/-- The blocks before a block, in address order. -/
def blocksBefore (g : Graph) (n : NodeId) : List NodeId := g.blocks.takeWhile (· != n)

def nextBlock? (g : Graph) (n : NodeId) : Option NodeId := (g.blocksAfter n).head?

/-- Whether the last instruction is the given jump to the given address. -/
def endsInJump (g : Graph) (n : NodeId) (op : Opcode) (target : Nat) : Bool :=
  (g.lastInstr? n).any fun i => i.opcode == op && i.target? == some target

/-- Climb at most `fuel` parents that start where the node starts and hold it in a slot. -/
def climb (g : Graph) : (fuel : Nat) → NodeId → NodeId
  | 0, n => n
  | fuel + 1, n => match (g.node n).parent with
    | none => n
    | some p =>
      let above := g.node p
      if above.start != (g.node n).start || above.isFragment || !above.children.contains (some n)
      then n
      else g.climb fuel p

/-- What the rest of the graph sees in place of a folded block: the outermost composite that starts
where the block starts. -/
def outermostAt (g : Graph) (n : NodeId) : NodeId := g.climb g.nodes.size n

/-- Of two loops the one that starts later, or ends earlier when they start together; the second
when they agree in both. -/
def innerLoop (g : Graph) (a b : NodeId) : NodeId :=
  let x := g.node a
  let y := g.node b
  if y.start < x.start || (y.start == x.start && x.stop < y.stop) then a else b

/-- The innermost loop around an address. -/
def enclosingLoop? (g : Graph) (address : Nat) : Option NodeId :=
  match g.loops.filter fun l => (g.node l).covers address with
  | [] => none
  | l :: rest => some (rest.foldl g.innerLoop l)

def loopInfo? (g : Graph) (n : NodeId) : Option LoopInfo := match (g.node n).kind with
  | .loop info => some info
  | _ => none

/-! ## Edits -/

def modifyNode (g : Graph) (n : NodeId) (f : Node → Node) : Graph :=
  { g with nodes := g.nodes.modify n f }

/-- Add a node; its slot is the number of nodes before. -/
def add (g : Graph) (n : Node) : Graph := { g with nodes := g.nodes.push n }

def addSucc (g : Graph) (a b : NodeId) : Graph :=
  g.modifyNode a fun n => { n with succs := n.succs ++ [b] }

def addPred (g : Graph) (a b : NodeId) : Graph :=
  g.modifyNode a fun n => { n with preds := n.preds ++ [b] }

/-- Remove one occurrence. -/
def eraseSucc (g : Graph) (a b : NodeId) : Graph :=
  g.modifyNode a fun n => { n with succs := n.succs.erase b }

/-- Remove one occurrence. -/
def erasePred (g : Graph) (a b : NodeId) : Graph :=
  g.modifyNode a fun n => { n with preds := n.preds.erase b }

def connect (g : Graph) (a b : NodeId) : Graph := (g.addSucc a b).addPred b a

/-- Remove one edge. -/
def disconnect (g : Graph) (a b : NodeId) : Graph := (g.eraseSucc a b).erasePred b a

def disconnectSuccessors (g : Graph) (n : NodeId) : Graph :=
  let targets := (g.node n).succs
  targets.foldl (fun g t => g.erasePred t n) (g.modifyNode n fun x => { x with succs := [] })

/-- Put `new` in the place of `old` among the successors of `n`. -/
def replaceSuccessor (g : Graph) (n old new : NodeId) : Graph :=
  if (g.node n).succs.contains old then
    ((g.modifyNode n fun x => { x with succs := x.succs.replace old new }).erasePred old n).addPred
      new n
  else g

/-- Move the incoming edges whose origin satisfies `p` from `old` to `new`. -/
def redirectPredecessors (g : Graph) (old new : NodeId) (p : Node → Bool) : Graph :=
  ((g.node old).preds.filter fun a => p (g.node a)).foldl
    (fun g a => g.replaceSuccessor a old new) g

/-- Drop the incoming edges whose origin satisfies `p`. -/
def disconnectPredecessors (g : Graph) (n : NodeId) (p : Node → Bool) : Graph :=
  ((g.node n).preds.filter fun a => p (g.node a)).foldl (fun g a => g.disconnect a n) g

def setParent (g : Graph) (n : NodeId) (parent : Option NodeId) : Graph :=
  g.modifyNode n fun x => { x with parent }

/-- Put `new` into every child slot of the parent of `old` that holds `old`, and put `old` under
`new`. -/
def replaceInParent (g : Graph) (old new : NodeId) : Graph :=
  let parent := (g.node old).parent
  let g := g.setParent new parent
  let g := match parent with
    | none => g
    | some p => g.modifyNode p fun x =>
      { x with children := x.children.map fun c => if c == some old then some new else c }
  g.setParent old (some new)

/-- Write a child slot, adding empty slots before it where they are missing. -/
def writeSlot (g : Graph) (n : NodeId) (slot : Nat) (child : Option NodeId) : Graph :=
  g.modifyNode n fun x =>
    { x with children :=
        (x.children ++ List.replicate (slot + 1 - x.children.length) none).set slot child }

/-- Write a child slot and become the child's parent. -/
def setChild (g : Graph) (n : NodeId) (slot : Nat) (child : Option NodeId) : Graph :=
  let g := g.writeSlot n slot child
  match child with
  | none => g
  | some c => g.setParent c (some n)

/-- Write children into consecutive slots. -/
def setChildren (g : Graph) (n : NodeId) (children : List NodeId) : Graph :=
  children.zipIdx.foldl (fun g (child, slot) => g.setChild n slot (some child)) g

def mapInstrs (g : Graph) (n : NodeId) (f : List Instr → List Instr) : Graph :=
  g.modifyNode n (Node.mapInstrs f)

/-- Remove the last `count` instructions of a block. -/
def stripLast (g : Graph) (n : NodeId) (count : Nat) : Graph :=
  g.mapInstrs n fun is => is.take (is.length - count)

/-- Remove the first `count` instructions of a block. -/
def stripFirst (g : Graph) (n : NodeId) (count : Nat) : Graph :=
  g.mapInstrs n fun is => is.drop count

def setUnreachable (g : Graph) (n : NodeId) (unreachable : Bool) : Graph :=
  g.modifyNode n fun x => { x with unreachable }

/-- Put `new` after the first occurrence of `old`. -/
def insertAfter (old new : NodeId) : List NodeId → List NodeId
  | [] => []
  | n :: rest => if n == old then n :: new :: rest else n :: insertAfter old new rest

/-- Put a block after another in the first fragment that lists it. -/
def insertInFragment (g : Graph) (old new : NodeId) : List NodeId → Graph
  | [] => g
  | f :: rest => match (g.node f).kind with
    | .fragment entry argc blocks =>
      if blocks.contains old then
        g.modifyNode f fun x => { x with kind := .fragment entry argc (insertAfter old new blocks) }
      else g.insertInFragment old new rest
    | _ => g.insertInFragment old new rest

/-- Hand the outgoing edges of `a` to `b`, which has none. -/
def moveSuccessors (g : Graph) (a b : NodeId) : Graph :=
  let targets := (g.node a).succs
  let g := g.modifyNode a fun x => { x with succs := [] }
  targets.foldl
    (fun g t => (g.modifyNode t fun x => { x with preds := x.preds.replace a b }).addSucc b t) g

/-- Split a block before the instruction at an address. The second half takes over the outgoing
edges. Gives the block that starts with that instruction, or nothing if there is none. -/
def splitBlock (g : Graph) (n : NodeId) (address : Nat) : Graph × Option NodeId :=
  match (g.instrs n).findIdx? fun i => i.address == address with
  | none => (g, none)
  | some 0 => (g, some n)
  | some (k + 1) =>
    let second := g.nodes.size
    let tail := (g.instrs n).drop (k + 1)
    let g := g.add (.ofKind (.block tail) address (g.node n).stop 0)
    let g := g.mapInstrs n (List.take (k + 1))
    let g := g.modifyNode n fun x => { x with stop := address }
    let g := g.moveSuccessors n second
    let g := g.connect n second
    let g := { g with blocks := insertAfter n second g.blocks }
    (g.insertInFragment n second g.fragments, some second)

end Graph

end GmlLift
