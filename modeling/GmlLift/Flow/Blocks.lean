import GmlLift.CodeEntry
import GmlLift.Flow.Error
import GmlLift.Flow.Graph

/-! Basic blocks.

The instructions of a root entry are cut at its split points: where jumps lead, after jumps and
exits, where embedded functions start and around exception hooks. The blocks tile the code, and an
empty block stands at its end, so that jumps to the end have a target. A block that nothing enters
is marked unreachable and hung after the block before it: dead code stays on some path. -/

namespace GmlLift

namespace Hook

def try_ : String := "@@try_hook@@"
def unhook : String := "@@try_unhook@@"
def finishFinally : String := "@@finish_finally@@"

/-- The code address that a hook operand pushes. A negative number means that there is none. -/
def address? (i : Instr) : Except FlowError (Option Nat) := match i.intValue? with
  | some value =>
    if value < 0 then .ok none
    else if value < 0x100000000 then .ok (some value.toNat)
    else .error (.addressOutOfRange i.address value)
  | none => .ok none

end Hook

namespace Blocks

/-- The split point after a hook call: past the `popz` that follows it. -/
def afterPop (rest : List Instr) : List Nat := match rest with
  | p :: _ => if p.opcode = .popz then [p.endAddress] else []
  | [] => []

/-- The address pushed by an instruction some places back. -/
def pushedAddress (before : List Instr) (back : Nat) : Except FlowError (List Nat) :=
  match before[back - 1]? with
  | some i => (Hook.address? i).map Option.toList
  | none => .ok []

/-- The split points that one instruction asks for, given the instructions before it (the nearest
first) and after it. -/
def splitsAt (before : List Instr) (i : Instr) (rest : List Instr) : Except FlowError (List Nat) :=
  match i.opcode with
  | .b | .bt | .bf | .pushEnv | .popEnv => .ok (i.target?.toList ++ [i.endAddress])
  | .ret | .exit => .ok [i.endAddress]
  | .call =>
    if i.isCallTo Hook.try_ then do
      let finally_ ← pushedAddress before 4
      let catch_ ← pushedAddress before 2
      return afterPop rest ++ finally_ ++ catch_
    else if i.isCallTo Hook.finishFinally then .ok (afterPop rest)
    else .ok []
  | _ => .ok []

def splitsFrom (before : List Instr) : List Instr → Except FlowError (List Nat)
  | [] => .ok []
  | i :: rest => do
    let here ← splitsAt before i rest
    return here ++ (← splitsFrom (i :: before) rest)

/-- All addresses where a block must start. -/
def splitPoints (code : CodeEntry) : Except FlowError (List Nat) := do
  let asked ← splitsFrom [] code.instrs
  return 0 :: code.length :: code.descendants.map CodeEntry.start ++ asked

/-- Cut before every instruction but the first that stands at a split point. -/
def cut (points : List Nat) : List Instr → List (List Instr)
  | [] => []
  | i :: rest => match cut points rest with
    | [] => [[i]]
    | group :: groups => match group with
      | [] => [i] :: groups
      | j :: _ =>
        if points.contains j.address then [i] :: group :: groups else (i :: group) :: groups

/-- A block from each group of instructions, each ending where the next one starts. -/
def nodesFrom (stop : Nat) : (start : Nat) → List (List Instr) → List Node
  | start, [] => [.ofKind (.block []) start stop 0]
  | start, [group] => [.ofKind (.block group) start stop 0, .ofKind (.block []) stop stop 0]
  | start, group :: next :: groups =>
    let middle := (next.head?.map Instr.address).getD stop
    .ofKind (.block group) start middle 0 :: nodesFrom stop middle (next :: groups)

/-- The blocks of an entry cut at the given points. -/
def nodesOf (points : List Nat) (code : CodeEntry) : List Node :=
  match cut points code.instrs with
  | [] => [.ofKind (.block []) code.length code.length 0]
  | groups => nodesFrom code.length 0 groups

/-- The graph of blocks before they are connected. -/
def islands (nodes : List Node) (length : Nat) : Graph :=
  { nodes := ⟨nodes.toArray⟩, blocks := List.range nodes.length, codeLength := length }

/-- Where control goes after a block, in order: the fall-through before the jump. The end of a
`with` body falls through; its jump back belongs to the loop. -/
def exits (n : Node) : List Nat := match n.instrs.getLast? with
  | none => []
  | some last =>
    let target := last.target?.getD n.stop
    match last.opcode with
    | .b => [target]
    | .bt | .bf | .pushEnv => [n.stop, target]
    | .ret | .exit => []
    | _ => [n.stop]

/-- The block made for a split point. -/
def startingAt? (g : Graph) (address : Nat) : Option NodeId :=
  g.blocks.find? fun b => (g.node b).start == address

/-- Connect a block to the blocks where control goes after it. -/
def wire (g : Graph) (block : NodeId) : Graph :=
  ((exits (g.node block)).filterMap (startingAt? g)).foldl (fun g t => g.connect block t) g

/-- Hang each block that nothing enters after the block before it. -/
def chainDead (g : Graph) : List NodeId → Graph
  | a :: b :: rest =>
    let g := if (g.node b).preds.isEmpty then (g.setUnreachable b true).connect a b else g
    chainDead g (b :: rest)
  | _ => g

end Blocks

open Blocks in
/-- The block graph of a root entry. Every split point has to be an instruction boundary; the
lowest that is not is reported. -/
def findBlocks (code : CodeEntry) : Except FlowError Graph := do
  let found := CodeEntry.endOf code.instrs
  if found ≠ code.length then throw (.lengthMismatch code.length found)
  let points ← splitPoints code
  let nodes := nodesOf points code
  let starts := nodes.map Node.start
  match (points.filter fun p => !starts.contains p).min? with
  | some p => throw (.missingBlock p p)
  | none =>
    let g := islands nodes code.length
    return chainDead (g.blocks.foldl wire g) g.blocks

end GmlLift
