import GmlLift.CodeEntry
import GmlLift.Flow.Pass

/-! Embedded functions.

A nested function or struct literal is compiled in place: the code around it jumps over the body,
the body ends in `exit`, and the function's own entry records where the body starts. Each becomes a
fragment node in place of the jump around it. -/

namespace GmlLift

namespace Fragments

def nodeOf (entry : CodeEntry) (start stop : Nat) : Node :=
  .ofKind (.fragment entry.name entry.argumentCount []) start stop 1

/-- List a block under a fragment. -/
def listBlock (fragment block : NodeId) (g : Graph) : Graph :=
  match (g.node fragment).kind with
  | .fragment entry argc blocks =>
    g.modifyNode fragment fun n => { n with kind := .fragment entry argc (blocks ++ [block]) }
  | _ => g

/-- The last block of a fragment must end in `exit`, which goes: the block then leads nowhere. -/
def close (fragment lastBlock : NodeId) : Pass Unit := do
  let g ← get
  if (g.lastInstr? lastBlock).all fun i => i.opcode != .exit then
    let name := match (g.node fragment).kind with
      | .fragment entry _ _ => entry
      | _ => ""
    throw (.missingExit name (g.node fragment).stop)
  modify (·.stripLast lastBlock 1)
  modify (·.disconnectSuccessors lastBlock)

/-- Close the open fragments that end at an address, innermost first; the root stays open. -/
def closeEnding (previous : NodeId) (address : Nat) : List NodeId → Pass (List NodeId)
  | top :: below :: rest => do
    if ((← get).node top).stop = address then
      close top previous
      closeEnding previous address (below :: rest)
    else return top :: below :: rest
  | stack => return stack

/-- Put a fragment in place of the jump around its body, and hang the body under it. -/
def splice (previous block next fragment : NodeId) (g : Graph) : Graph :=
  let g := (g.disconnect previous block).replaceSuccessor previous next fragment
  ((g.connect fragment next).setUnreachable block false).setChild fragment Slot.head (some block)

/-- Open the fragment of an entry whose body starts with `block`. -/
def openAt (entry : CodeEntry) (previous block : NodeId) : Pass NodeId := do
  let g ← get
  let start := (g.node block).start
  let jump := (g.lastInstr? previous).filter fun i => i.opcode == .b
  let skip ← Pass.require (.missingFragmentBranch start) (jump.bind Instr.target?)
  let next ← Pass.require (.missingBlock start skip) (g.blockAt? skip)
  modify (·.stripLast previous 1)
  let fragment ← Pass.add (nodeOf entry start skip)
  modify (splice previous block next fragment)
  modify fun g => { g with fragments := g.fragments ++ [fragment] }
  return fragment

/-- The entry whose body starts at an address; of several the last. Entries that start with the code
itself are not embedded. -/
def entryAt? (code : CodeEntry) (address : Nat) : Option CodeEntry :=
  code.descendants.reverse.find? fun c => c.start != 0 && c.start == address

/-- Close what ends before a block, given the block before it. -/
def closeBefore (previous : Option NodeId) (address : Nat) (stack : List NodeId) :
    Pass (List NodeId) := match previous with
  | some p => closeEnding p address stack
  | none => return stack

/-- Open the fragment that starts with a block, if one does. -/
def openBefore (code : CodeEntry) (previous : Option NodeId) (block : NodeId) (address : Nat)
    (stack : List NodeId) : Pass (List NodeId) := match previous, entryAt? code address with
  | some p, some entry => (· :: stack) <$> openAt entry p block
  | _, _ => return stack

/-- List a block under the innermost open fragment. -/
def listOnTop (stack : List NodeId) (block : NodeId) (g : Graph) : Graph := match stack with
  | top :: _ => listBlock top block g
  | [] => g

/-- Go through the blocks with the stack of open fragments, the innermost first. -/
def carve (code : CodeEntry) : (previous : Option NodeId) → List NodeId → List NodeId →
    Pass (List NodeId)
  | _, stack, [] => return stack
  | previous, stack, block :: rest => do
    let start := ((← get).node block).start
    let stack ← closeBefore previous start stack
    let stack ← openBefore code previous block start stack
    modify (listOnTop stack block)
    carve code (some block) stack rest

end Fragments

open Fragments in
/-- Make the root fragment and carve the embedded functions out of it. -/
def findFragments (code : CodeEntry) : Pass Unit := do
  let root ← Pass.add (nodeOf code 0 code.length)
  modify fun g => g.setChild root Slot.head g.blocks.head?
  modify fun g => { g with fragments := g.fragments ++ [root] }
  let open_ ← carve code none [root] (← get).blocks
  if open_.length ≠ 1 then throw (.unmatchedFragments (open_.length - 1))

end GmlLift
