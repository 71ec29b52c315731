import GmlLift.Proofs.Flow.Edges
import Mathlib.Logic.Function.Iterate

/-! # What an edit makes of each node

The incoming edges of a node can be read off the outgoing ones of the others, so the rest of a node
is its face. Each edit changes the faces of a few nodes, and on a graph whose two copies of the
edges agree it is known exactly how. -/
namespace GmlLift

/-- A node apart from its incoming edges. -/
def Node.face (n : Node) : Node := { n with preds := [] }

namespace Graph

def face (g : Graph) (n : NodeId) : Node := (g.node n).face

variable {g : Graph}

section

variable (g : Graph) (x : NodeId)

@[simp] theorem start_face : (g.face x).start = (g.node x).start := rfl

@[simp] theorem stop_face : (g.face x).stop = (g.node x).stop := rfl

@[simp] theorem succs_face : (g.face x).succs = (g.node x).succs := rfl

@[simp] theorem kind_face : (g.face x).kind = (g.node x).kind := rfl

@[simp] theorem parent_face : (g.face x).parent = (g.node x).parent := rfl

@[simp] theorem children_face : (g.face x).children = (g.node x).children := rfl

@[simp] theorem instrs_face : (g.face x).instrs = (g.node x).instrs := rfl

@[simp] theorem unreachable_face : (g.face x).unreachable = (g.node x).unreachable := rfl

end

theorem face_of_size_le {x : NodeId} (h : g.nodes.size ≤ x) : g.face x = default := by
  rw [face, node_of_size_le h]
  rfl

/-- An edit of one node that does not look at the incoming edges. -/
theorem face_modifyNode (f : Node → Node) (hf : ∀ n, (f n).face = f n.face) {n : NodeId}
    (hn : n < g.nodes.size) (x : NodeId) :
    (g.modifyNode n f).face x = if x = n then f (g.face x) else g.face x := by
  rw [face, node_modifyNode]
  by_cases hx : x = n
  · rw [if_pos ⟨hx, hn⟩, if_pos hx, hf]
    rfl
  · rw [if_neg fun h => hx h.1, if_neg hx]
    rfl

theorem face_add (n : Node) (x : NodeId) :
    (g.add n).face x = if x = g.nodes.size then n.face else g.face x := by
  rw [face, node_add]
  split <;> rfl

/-- Incoming edges are not on a face. -/
theorem face_setPreds (g : Graph) (n x : NodeId) (f : List NodeId → List NodeId) :
    (g.modifyNode n fun y => { y with preds := f y.preds }).face x = g.face x := by
  rw [face, node_modifyNode]
  split <;> rfl

/-! ## Edges -/

/-- An edit of the outgoing edges of one node, whether its slot exists or not. -/
theorem face_setSuccs (g : Graph) (n x : NodeId) {f : List NodeId → List NodeId} (hf : f [] = []) :
    (g.modifyNode n fun y => { y with succs := f y.succs }).face x =
      if x = n then { g.face x with succs := f (g.face x).succs } else g.face x := by
  by_cases hn : n < g.nodes.size
  · exact face_modifyNode (fun y => { y with succs := f y.succs }) (fun _ => rfl) hn x
  · rw [face, node_modifyNode, if_neg fun h => hn h.2]
    split
    · rename_i hx
      have hd : g.face x = default := face_of_size_le (hx ▸ Nat.le_of_not_lt hn)
      change g.face x = _
      rw [hd]
      change default = { (default : Node) with succs := f [] }
      rw [hf]
      rfl
    · rfl

theorem face_connect {a : NodeId} (ha : a < g.nodes.size) (b x : NodeId) : (g.connect a b).face x =
    if x = a then { g.face x with succs := (g.face x).succs ++ [b] } else g.face x :=
  (face_setPreds (g.addSucc a b) b x (· ++ [a])).trans
    (face_modifyNode (fun y => { y with succs := y.succs ++ [b] }) (fun _ => rfl) ha x)

theorem face_disconnect (a b x : NodeId) : (g.disconnect a b).face x =
    if x = a then { g.face x with succs := (g.face x).succs.erase b } else g.face x :=
  (face_setPreds (g.eraseSucc a b) b x (·.erase a)).trans (face_setSuccs g a x (f := (·.erase b)) rfl)

theorem face_disconnectSuccessors (n x : NodeId) : (g.disconnectSuccessors n).face x =
    if x = n then { g.face x with succs := [] } else g.face x := by
  have hfold := foldl_keeps (fun g => g.face x) (fun g t => face_setPreds g t x (·.erase n))
    (g.modifyNode n fun y => { y with succs := [] }) (g.node n).succs
  exact hfold.trans (face_setSuccs g n x (f := fun _ => []) rfl)

/-- One name for another in a list of nodes. -/
def rename (old new : NodeId) (ns : List NodeId) : List NodeId :=
  ns.map fun n => if n = old then new else n

/-- Replacing the first occurrence as often as there are any replaces all of them. -/
theorem iterate_replace {old new : NodeId} (hne : old ≠ new) (ns : List NodeId) :
    (fun l : List NodeId => l.replace old new)^[ns.count old] ns = rename old new ns := by
  have hcons (n : NodeId) (hn : n ≠ old) (k : Nat) (l : List NodeId) :
      (fun l : List NodeId => l.replace old new)^[k] (n :: l) =
        n :: (fun l : List NodeId => l.replace old new)^[k] l := by
    induction k generalizing l with
    | zero => rfl
    | succ k ih =>
      have hfirst : (n :: l).replace old new = n :: l.replace old new := by
        rw [List.replace_cons, beq_false_of_ne hn.symm]
      rw [Function.iterate_succ_apply, Function.iterate_succ_apply, ← ih, hfirst]
  induction ns with
  | nil => rfl
  | cons n ns ih =>
    by_cases hn : n = old
    · subst hn
      rw [List.count_cons_self, Function.iterate_succ_apply]
      simp only [List.replace_cons_self, rename, List.map_cons, if_true]
      rw [hcons new hne.symm, ih]
      rfl
    · rw [List.count_cons_of_ne hn, hcons n hn, ih]
      simp [rename, hn]

theorem face_replaceSuccessor (n old new x : NodeId) : (g.replaceSuccessor n old new).face x =
    if x = n then { g.face x with succs := (g.face x).succs.replace old new } else g.face x := by
  unfold replaceSuccessor
  split
  · exact (face_setPreds _ new x (· ++ [n])).trans ((face_setPreds _ old x (·.erase n)).trans
      (face_setSuccs g n x (f := (·.replace old new)) rfl))
  · rename_i hold
    split
    · rename_i hx
      subst hx
      have hnone : (g.face x).succs.replace old new = (g.face x).succs :=
        List.replace_of_not_mem fun h => hold (List.contains_iff_mem.mpr h)
      rw [hnone]
    · rfl

/-- Several origins, one occurrence each time that an origin is in the list. -/
theorem face_foldl_replaceSuccessor (old new : NodeId) (as : List NodeId) (g : Graph) (x : NodeId) :
    (as.foldl (fun g a => g.replaceSuccessor a old new) g).face x =
      { g.face x with
        succs := (fun l : List NodeId => l.replace old new)^[as.count x] (g.face x).succs } := by
  induction as generalizing g with
  | nil => rfl
  | cons a as ih =>
    rw [List.foldl_cons, ih, face_replaceSuccessor]
    by_cases hx : x = a
    · rw [if_pos hx, hx, List.count_cons_self, Function.iterate_succ_apply]
    · rw [if_neg hx, List.count_cons_of_ne (Ne.symm hx)]

/-- Every edge to the old target goes to the new one, where its origin satisfies the condition. -/
theorem Sound.face_redirectPredecessors (h : g.Sound) {old new : NodeId} (hne : old ≠ new)
    (p : Node → Bool) (x : NodeId) : (g.redirectPredecessors old new p).face x =
      if p (g.node x) then { g.face x with succs := rename old new (g.face x).succs }
      else g.face x := by
  unfold Graph.redirectPredecessors
  rw [face_foldl_replaceSuccessor]
  split
  · rename_i hp
    rw [List.count_filter (p := fun a => p (g.node a)) hp, ← h.dual, ← succs_face,
      iterate_replace hne]
  · rename_i hp
    have hnone : ((g.node old).preds.filter fun a => p (g.node a)).count x = 0 :=
      List.count_eq_zero.mpr fun hx => hp (List.mem_filter.mp hx).2
    rw [hnone]
    rfl

theorem succs_connect {a : NodeId} (ha : a < g.nodes.size) (b x : NodeId) :
    ((g.connect a b).node x).succs = (g.node x).succs ++ if x = a then [b] else [] := by
  rw [← succs_face, face_connect ha]
  split <;> simp

theorem Sound.succs_redirectPredecessors (h : g.Sound) {old new : NodeId} (hne : old ≠ new)
    (p : Node → Bool) (x : NodeId) : ((g.redirectPredecessors old new p).node x).succs =
      if p (g.node x) then rename old new (g.node x).succs else (g.node x).succs := by
  rw [← succs_face, h.face_redirectPredecessors hne]
  split <;> rfl

theorem rename_of_not_mem {old new : NodeId} {ns : List NodeId} (h : old ∉ ns) :
    rename old new ns = ns := by
  refine (List.map_congr_left fun n hn => ?_).trans (List.map_id ns)
  have hne : n ≠ old := fun he => h (he ▸ hn)
  exact if_neg hne

/-! ## Edges that are not there -/

/-- Nothing is dropped from a node that nothing leads to. -/
theorem disconnectPredecessors_of_unreached (hs : g.Sound) {n : NodeId}
    (h : ∀ x, n ∉ (g.node x).succs) (p : Node → Bool) : g.disconnectPredecessors n p = g := by
  have hnone : (g.node n).preds = [] := by
    refine List.eq_nil_iff_forall_not_mem.mpr fun a ha => ?_
    have hpos := List.count_pos_iff.mpr ha
    rw [← hs.dual] at hpos
    exact h a (List.count_pos_iff.mp hpos)
  rw [disconnectPredecessors, hnone]
  rfl

/-- Dropping the edges into a node leaves alone what does not lead to it. -/
theorem face_disconnectPredecessors {n x : NodeId} (h : n ∉ (g.node x).succs) (p : Node → Bool) :
    (g.disconnectPredecessors n p).face x = g.face x := by
  have hfold : ∀ (as : List NodeId) (g : Graph), n ∉ (g.node x).succs →
      (as.foldl (fun g a => g.disconnect a n) g).face x = g.face x := by
    intro as
    induction as with
    | nil => exact fun _ _ => rfl
    | cons a as ih =>
      intro g h
      have hface : (g.disconnect a n).face x = g.face x := by
        rw [face_disconnect]
        split
        · rw [succs_face, List.erase_of_not_mem h]
          rfl
        · rfl
      rw [List.foldl_cons, ih _ ?_, hface]
      rwa [← succs_face, hface]
  exact hfold _ g h

/-! ## Parents, slots and code -/

theorem face_setParent {n : NodeId} (hn : n < g.nodes.size) (parent : Option NodeId) (x : NodeId) :
    (g.setParent n parent).face x = if x = n then { g.face x with parent } else g.face x :=
  face_modifyNode (fun y => { y with parent }) (fun _ => rfl) hn x

/-- Slots with one written, after empty ones where they were missing. -/
def withSlot (slot : Nat) (child : Option NodeId) (children : List (Option NodeId)) :
    List (Option NodeId) :=
  (children ++ List.replicate (slot + 1 - children.length) none).set slot child

theorem face_writeSlot {n : NodeId} (hn : n < g.nodes.size) (slot : Nat) (child : Option NodeId)
    (x : NodeId) : (g.writeSlot n slot child).face x =
      if x = n then { g.face x with children := withSlot slot child (g.face x).children }
      else g.face x :=
  face_modifyNode (fun y => { y with children := withSlot slot child y.children }) (fun _ => rfl)
    hn x

theorem children_setChild_self {n : NodeId} (hn : n < g.nodes.size) (slot : Nat)
    (child : Option NodeId) :
    ((g.setChild n slot child).node n).children = withSlot slot child (g.node n).children := by
  have hslot : ((g.writeSlot n slot child).node n).children =
      withSlot slot child (g.node n).children := by
    rw [← children_face, face_writeSlot hn, if_pos rfl]
    rfl
  cases child with
  | none => exact hslot
  | some c =>
    rw [setChild, setParent, node_modifyNode]
    split <;> exact hslot

theorem face_mapInstrs {n : NodeId} (hn : n < g.nodes.size) (f : List Instr → List Instr)
    (x : NodeId) :
    (g.mapInstrs n f).face x = if x = n then (g.face x).mapInstrs f else g.face x := by
  refine face_modifyNode (Node.mapInstrs f) (fun y => ?_) hn x
  obtain ⟨start, stop, preds, succs, parent, children, unreachable, kind⟩ := y
  cases kind <;> rfl

/-- A node that hangs under nothing gives its place to another one. -/
theorem face_replaceInParent_of_none {old new : NodeId} (hold : old < g.nodes.size)
    (hnew : new < g.nodes.size) (hp : (g.face old).parent = none) (x : NodeId) :
    (g.replaceInParent old new).face x =
      if x = old then { g.face x with parent := some new }
      else if x = new then { g.face x with parent := none } else g.face x := by
  have hp : (g.node old).parent = none := hp
  unfold replaceInParent
  rw [hp]
  dsimp only
  rw [face_setParent (by simpa [setParent] using hold), face_setParent hnew]
  by_cases hx : x = old
  · rw [if_pos hx, if_pos hx]
    split <;> rfl
  · rw [if_neg hx, if_neg hx]

/-- A node gives its place in its parent to another one. -/
theorem face_replaceInParent_of_some {old new q : NodeId} (hold : old < g.nodes.size)
    (hnew : new < g.nodes.size) (hq : q < g.nodes.size) (hp : (g.face old).parent = some q)
    (hqo : q ≠ old) (hqn : q ≠ new) (x : NodeId) :
    (g.replaceInParent old new).face x =
      if x = old then { g.face x with parent := some new }
      else if x = new then { g.face x with parent := some q }
      else if x = q then { g.face x with
        children := (g.face x).children.map fun c => if c == some old then some new else c }
      else g.face x := by
  have hp : (g.node old).parent = some q := hp
  unfold replaceInParent
  rw [hp]
  dsimp only
  rw [face_setParent (by simpa [setParent] using hold)]
  have hswap := face_modifyNode (g := g.setParent new (some q)) (fun y => { y with
    children := y.children.map fun c => if c == some old then some new else c }) (fun _ => rfl)
    (n := q) (by simpa [setParent] using hq) x
  rw [hswap, face_setParent hnew]
  by_cases hx : x = old
  · subst hx
    rw [if_pos rfl, if_pos rfl, if_neg hqo.symm]
    split <;> rfl
  · rw [if_neg hx, if_neg hx]
    by_cases hxn : x = new
    · rw [if_pos hxn, if_pos hxn, if_neg (hxn ▸ hqn.symm)]
    · rw [if_neg hxn, if_neg hxn]

end Graph

end GmlLift
