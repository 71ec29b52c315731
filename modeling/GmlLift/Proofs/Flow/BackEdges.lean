import GmlLift.Proofs.Flow.ControlFlow
import GmlLift.Proofs.Flow.GateFolds

/-! # Edges that lead back

Between the blocks of an entry only the backward jump at the end of a block leads back. The search
for loops accounts for each of them: folding some candidate takes it away, either because the jump
closes that loop or because it is a `continue` of a `while` that is closed further down. -/
namespace GmlLift

open GmlLift.Graph Blocks

/-- A jump within the code, conditional or not. -/
def Instr.isBranch (i : Instr) : Bool := match i.opcode with
  | .b | .bt | .bf => true
  | _ => false

variable {code : CodeEntry} {g : Graph}

namespace Graph

theorem Tiled.mem_code (h : g.Tiled code) {a : NodeId} (ha : a ∈ g.blocks) {i : Instr}
    (hi : g.lastInstr? a = some i) :
    i ∈ code.instrs ∧ (g.node a).start ≤ i.address ∧ i.address < (g.node a).stop := by
  have hm : i ∈ (g.node a).instrs := List.mem_of_getLast? hi
  exact ⟨(h.holds a ha).sublist.subset hm, (h.holds a ha).bounds i hm⟩

end Graph

namespace Blocks

end Blocks

namespace Loops

/-- Folding the candidate takes away the edges from `a` to its head: `a` closes the loop, or it
stands before the end of a `while`. -/
inductive Candidate.Cuts (g : Graph) (c : Candidate) (a : NodeId) : Prop
  | closes (htail : c.tail = a) (hk : c.kind ≠ .withLoop)
  | continues (hk : c.kind = .whileLoop) (hle : (g.node a).start ≤ (g.node c.tail).start)

/-- A candidate's head and tail come before what follows the loop. -/
structure Candidate.Placed (g : Graph) (c : Candidate) : Prop where
  head : (g.node c.head).start < (g.node c.next).start
  tail : (g.node c.tail).start < (g.node c.next).start

end Loops

end GmlLift
