import GmlLift.Proofs.Flow.BlockGraph
import GmlLift.Proofs.Flow.Phases

/-! # Both copies of the edges agree

A graph stores each edge twice, with its origin and with its target. Whatever passes and single
edits a graph of blocks goes through, the two copies hold the same edges, equally often. -/
namespace GmlLift

open GmlLift.Graph

/-- The edits of a graph that are open to any caller. -/
inductive Edit where
  | connect (a b : NodeId)
  | disconnect (a b : NodeId)
  | disconnectSuccessors (n : NodeId)
  | disconnectPredecessors (n : NodeId) (p : Node → Bool)
  | replaceSuccessor (n old new : NodeId)
  | redirectPredecessors (old new : NodeId) (p : Node → Bool)
  | splitBlock (n : NodeId) (address : Nat)
  | setChild (n : NodeId) (slot : Nat) (child : Option NodeId)
  | replaceInParent (old new : NodeId)
  | stripFirst (n : NodeId) (count : Nat)
  | stripLast (n : NodeId) (count : Nat)

namespace Edit

def apply (g : Graph) : Edit → Graph
  | connect a b => g.connect a b
  | disconnect a b => g.disconnect a b
  | disconnectSuccessors n => g.disconnectSuccessors n
  | disconnectPredecessors n p => g.disconnectPredecessors n p
  | replaceSuccessor n old new => g.replaceSuccessor n old new
  | redirectPredecessors old new p => g.redirectPredecessors old new p
  | splitBlock n address => (g.splitBlock n address).1
  | setChild n slot child => g.setChild n slot child
  | replaceInParent old new => g.replaceInParent old new
  | stripFirst n count => g.stripFirst n count
  | stripLast n count => g.stripLast n count

/-- The nodes that an edit names. -/
def nodes : Edit → List NodeId
  | connect a b | disconnect a b | replaceInParent a b | redirectPredecessors a b _ => [a, b]
  | disconnectSuccessors n | disconnectPredecessors n _ | splitBlock n _ | stripFirst n _
  | stripLast n _ => [n]
  | replaceSuccessor n old new => [n, old, new]
  | setChild n _ child => n :: child.toList

end Edit

/-- The graphs that passes and edits of existing nodes make of an entry's blocks. -/
inductive Reached (code : CodeEntry) : Graph → Prop
  | start {g : Graph} (h : findBlocks code = .ok g) : Reached code g
  | pass {g : Graph} (h : Reached code g) (p : Phase) : Reached code (p.after g)
  | edit {g : Graph} (h : Reached code g) (e : Edit) (he : ∀ n ∈ e.nodes, n < g.nodes.size) :
      Reached code (e.apply g)

theorem Edit.apply_sound {g : Graph} (h : g.Sound) {e : Edit}
    (he : ∀ n ∈ e.nodes, n < g.nodes.size) : (e.apply g).Sound := by
  cases e with
  | connect a b => exact h.connect (he a (by simp [nodes])) (he b (by simp [nodes]))
  | disconnect a b => exact h.disconnect a b
  | disconnectSuccessors n => exact h.disconnectSuccessors n
  | disconnectPredecessors n p => exact h.disconnectPredecessors n p
  | replaceSuccessor n old new => exact h.replaceSuccessor n old (he new (by simp [nodes]))
  | redirectPredecessors old new p =>
    exact h.redirectPredecessors old (he new (by simp [nodes])) p
  | splitBlock n address => exact h.splitBlock n address
  | setChild n slot child =>
    exact h.setChild (he n (by simp [nodes])) slot fun c hc => he c (by simp [nodes, hc])
  | replaceInParent old new => exact h.replaceInParent old (he new (by simp [nodes]))
  | stripFirst n count => exact h.mapInstrs n _
  | stripLast n count => exact h.mapInstrs n _

theorem Reached.sound {code : CodeEntry} {g : Graph} (h : Reached code g) : g.Sound := by
  induction h with
  | start h => exact findBlocks_sound h
  | pass _ p ih => exact (p.after_edited ih).sound ih
  | edit _ e he ih => exact e.apply_sound ih he

/-- An edge is stored as often with its origin as with its target. -/
theorem count_succs_eq_count_preds {code : CodeEntry} {g : Graph} (h : Reached code g)
    (a b : NodeId) : (g.node a).succs.count b = (g.node b).preds.count a :=
  h.sound.dual a b

/-- A jump on false to the code right after it, which is a loop of one block. -/
def doubleEdge : CodeEntry := .ofInstrs "double_edge"
  [⟨0, .bf, none, .double, .double, .branch 4⟩, ⟨4, .popz, none, .var, .double, .none⟩,
    ⟨8, .b, none, .double, .double, .branch (-4)⟩, ⟨12, .exit, none, .int32, .double, .none⟩]

theorem count_succs_eq_count_preds_doubleEdge :
    ∃ g, findBlocks doubleEdge = .ok g ∧ (g.node 0).succs.count 1 = 2 ∧
      (g.node 1).succs.count 1 = 1 ∧
      let g' := Phase.loops.after ((Edit.splitBlock 1 8).apply g)
      ∀ a b, (g'.node a).succs.count b = (g'.node b).preds.count a := by
  refine ⟨_, rfl, by decide, by decide, fun a b => ?_⟩
  have h : Reached doubleEdge _ := .start rfl
  exact count_succs_eq_count_preds (.pass (.edit h (.splitBlock 1 8) (by decide)) .loops) a b

end GmlLift
