import GmlLift.Flow.Error
import GmlLift.Flow.Graph

/-! Passes over the flow graph.

A pass changes the graph step by step and may stop with an error; the graph then stays as far as
the pass got. -/

namespace GmlLift

abbrev Pass (α : Type) := EStateM FlowError Graph α

namespace Pass

/-- The value, or the error where there is none. -/
def require {α : Type} (error : FlowError) : Option α → Pass α
  | some a => pure a
  | none => throw error

def ofExcept {α : Type} : Except FlowError α → Pass α
  | .ok a => pure a
  | .error e => throw e

/-- Add a node and give its slot. -/
def add (n : Node) : Pass NodeId := do
  let id := (← get).nodes.size
  modify (·.add n)
  return id

/-- Turn the jump at the end of a block into an edge to a new jump node. -/
def convertJump (block : NodeId) (kind : NodeKind) : Pass Unit := do
  modify (·.stripLast block 1)
  modify (·.disconnectSuccessors block)
  let address := ((← get).node block).stop
  let node ← add (.ofKind kind address address 0)
  modify (·.connect block node)

/-- Visit nodes in order and collect what each visit finds. -/
def collect (visit : NodeId → Pass (Option NodeId)) : List NodeId → Pass (List NodeId)
  | [] => return []
  | n :: rest => do
    let found ← visit n
    return found.toList ++ (← collect visit rest)

/-- Visit nodes in order. -/
def each (visit : NodeId → Pass Unit) : List NodeId → Pass Unit
  | [] => return ()
  | n :: rest => do
    visit n
    each visit rest

end Pass

end GmlLift
