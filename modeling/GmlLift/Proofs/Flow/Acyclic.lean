import GmlLift.Proofs.Flow.BackEdges
import Mathlib.Logic.Relation

/-! # Loops leave no cycle behind

Folding goes from the outermost loop in. An edge that leads back is cut with the loop that it closes
or continues, and until then no fold moves it: a loop's node takes over only edges from further up,
since of two loops with one head the longer is folded first. What is left in the end leads to a
higher address, or into the synthetic exit of a loop, where it stops. -/
namespace GmlLift

open GmlLift.Graph Pass

variable {g g' : Graph}

namespace Graph

/-- The node by which the inside of a loop leaves it. -/
def LoopExit (g : Graph) (e : NodeId) : Prop :=
  ∃ l ∈ g.loops, (g.node l).children[Slot.loopExit]? = some (some e)

theorem mem_succs_disconnect {n m a b : NodeId} (h : b ∈ ((g.disconnect n m).node a).succs) :
    b ∈ (g.node a).succs := by
  rw [← List.count_pos_iff, count_succs_disconnect] at h
  exact List.count_pos_iff.mp (by omega)

theorem mem_succs_disconnectSuccessors {n a b : NodeId}
    (h : b ∈ ((g.disconnectSuccessors n).node a).succs) : b ∈ (g.node a).succs ∧ a ≠ n := by
  rw [← List.count_pos_iff, count_succs_disconnectSuccessors] at h
  split at h
  · cases h
  · exact ⟨List.count_pos_iff.mp h, Ne.symm ‹_›⟩

theorem mem_succs_connect {n m a b : NodeId} (h : b ∈ ((g.connect n m).node a).succs) :
    b ∈ (g.node a).succs ∨ a = n ∧ b = m := by
  rw [connect, succs_addPred, addSucc, node_modifyNode] at h
  split at h
  · rename_i ha
    rcases List.mem_append.mp h with h | h
    · exact .inl h
    · exact .inr ⟨ha.1, List.mem_singleton.mp h⟩
  · exact .inl h

theorem mem_succs_replaceSuccessor {n old new a b : NodeId}
    (h : b ∈ ((g.replaceSuccessor n old new).node a).succs) :
    b ∈ (g.node a).succs ∨ b = new ∧ a = n ∧ old ∈ (g.node a).succs := by
  rw [← List.count_pos_iff, count_succs_replaceSuccessor] at h
  split at h
  · rename_i hn
    obtain ⟨rfl, hold⟩ := hn
    by_cases hb : new = b
    · exact .inr ⟨hb.symm, rfl, hold⟩
    · rw [if_neg hb] at h
      exact .inl (List.count_pos_iff.mp (by omega))
  · exact .inl (List.count_pos_iff.mp h)

/-- Redirecting moves edges to the old target from origins that satisfy the condition. -/
theorem mem_succs_redirectPredecessors {old new a b : NodeId} {p : Node → Bool}
    (h : b ∈ ((g.redirectPredecessors old new p).node a).succs) :
    b ∈ (g.node a).succs ∨ b = new ∧ old ∈ (g.node a).succs ∧ p (g.node a) = true := by
  have aux : ∀ (as : List NodeId) (g : Graph),
      b ∈ ((as.foldl (fun g a => g.replaceSuccessor a old new) g).node a).succs →
      b ∈ (g.node a).succs ∨ b = new ∧ old ∈ (g.node a).succs ∧ a ∈ as := by
    intro as
    induction as with
    | nil => intro g h; exact .inl h
    | cons n as ih =>
      intro g h
      rcases ih _ h with h | ⟨hb, h, hm⟩
      · rcases mem_succs_replaceSuccessor h with h | ⟨hb, rfl, hold⟩
        · exact .inl h
        · exact .inr ⟨hb, hold, by simp⟩
      · have hold : old ∈ (g.node a).succs := by
          rcases mem_succs_replaceSuccessor h with h | ⟨-, -, h⟩ <;> exact h
        exact .inr ⟨hb, hold, List.mem_cons_of_mem _ hm⟩
  rcases aux _ g h with h | ⟨hb, hold, hm⟩
  · exact .inl h
  · exact .inr ⟨hb, hold, (List.mem_filter.mp hm).2⟩

/-- A node with an edge is one of the graph's. -/
theorem lt_of_mem_succs {a b : NodeId} (h : b ∈ (g.node a).succs) : a < g.nodes.size := by
  by_cases ha : a < g.nodes.size
  · exact ha
  · rw [node_of_size_le (Nat.le_of_not_lt ha)] at h
    cases h

/-! ## Slots and loops after an edit -/

theorem bare_redirectPredecessors (g : Graph) (old new : NodeId) (p : Node → Bool) (i : NodeId) :
    ((g.redirectPredecessors old new p).node i).bare = (g.node i).bare :=
  foldl_keeps (fun g => (g.node i).bare) (fun g a => bare_replaceSuccessor g a old new i) _ _

@[simp] theorem children_setParent (n : NodeId) (parent : Option NodeId) (i : NodeId) :
    ((g.setParent n parent).node i).children = (g.node i).children := by
  rw [setParent, node_modifyNode]
  split <;> rfl

/-- A node's slots as they are when another takes the place of `old`, whether or not they do. -/
theorem children_replaceInParent (old new i : NodeId) :
    ((g.replaceInParent old new).node i).children = (g.node i).children ∨
      ((g.replaceInParent old new).node i).children =
        (g.node i).children.map fun c => if c == some old then some new else c := by
  unfold replaceInParent
  generalize (g.node old).parent = parent
  cases parent with
  | none =>
    left
    rw [children_setParent, children_setParent]
  | some p =>
    rw [children_setParent, node_modifyNode]
    split
    · right
      rw [children_setParent]
    · left
      rw [children_setParent]

theorem children_setChild_of_ne {n i : NodeId} (h : i ≠ n) (slot : Nat) (child : Option NodeId) :
    ((g.setChild n slot child).node i).children = (g.node i).children := by
  have hw : ((g.writeSlot n slot child).node i).children = (g.node i).children := by
    rw [writeSlot, node_modifyNode, if_neg fun hi => h hi.1]
  cases child with
  | none => exact hw
  | some c => exact (children_setParent c (some n) i).trans hw

theorem slot_setChild_of_ne {n : NodeId} {slot k : Nat} (h : k ≠ slot) {child x : Option NodeId}
    (hx : (g.node n).children[k]? = some x) :
    ((g.setChild n slot child).node n).children[k]? = some x := by
  have hw : ((g.writeSlot n slot child).node n).children[k]? = some x := by
    rw [writeSlot, node_modifyNode]
    split
    · obtain ⟨hk, -⟩ := List.getElem?_eq_some_iff.mp hx
      rw [List.getElem?_set_ne (Ne.symm h), List.getElem?_append_left hk, hx]
    · exact hx
  cases child with
  | none => exact hw
  | some c =>
    show ((Graph.setParent _ c (some n)).node n).children[k]? = some x
    rw [children_setParent, hw]

theorem slot_writeSlot_self {n : NodeId} (hn : n < g.nodes.size) (slot : Nat)
    (child : Option NodeId) : ((g.writeSlot n slot child).node n).children[slot]? = some child := by
  rw [writeSlot, node_modifyNode, if_pos ⟨rfl, hn⟩]
  have hlen : slot < ((g.node n).children ++
      List.replicate (slot + 1 - (g.node n).children.length) none).length := by
    simp only [List.length_append, List.length_replicate]
    omega
  rw [List.getElem?_set_self hlen]

theorem node_setLoops (g : Graph) (ls : List NodeId) (i : NodeId) :
    ({ g with loops := ls } : Graph).node i = g.node i := rfl

theorem loops_redirectPredecessors (old new : NodeId) (p : Node → Bool) :
    (g.redirectPredecessors old new p).loops = g.loops := by
  refine foldl_keeps (·.loops) (fun g a => ?_) _ _
  unfold replaceSuccessor
  split <;> rfl

theorem loops_replaceInParent (old new : NodeId) : (g.replaceInParent old new).loops = g.loops := by
  unfold replaceInParent
  generalize (g.node old).parent = parent
  cases parent <;> rfl

theorem loops_setChild (n : NodeId) (slot : Nat) (child : Option NodeId) :
    (g.setChild n slot child).loops = g.loops := by
  cases child <;> rfl

theorem loops_disconnectSuccessors (n : NodeId) : (g.disconnectSuccessors n).loops = g.loops :=
  foldl_keeps (·.loops) (fun g t => (rfl : (g.erasePred t n).loops = g.loops)) _ _

end Graph

/-! ## Taking a loop's own edges out -/

/-- The same nodes with the same slots and loops, while edges are taken out or moved to `exit`. -/
structure Pruned (exit : Option NodeId) (g g' : Graph) : Prop where
  size : g'.nodes.size = g.nodes.size
  loops : g'.loops = g.loops
  start : ∀ i, (g'.node i).start = (g.node i).start
  children : ∀ i, (g'.node i).children = (g.node i).children
  succs : ∀ a, ∀ b ∈ (g'.node a).succs,
    b ∈ (g.node a).succs ∨ exit = some b ∧ (g.node a).succs ≠ []

namespace Pruned

variable {exit : Option NodeId}

theorem refl (exit : Option NodeId) (g : Graph) : Pruned exit g g :=
  ⟨rfl, rfl, fun _ => rfl, fun _ => rfl, fun _ _ h => .inl h⟩

/-- An edit of edges alone, each of them there before or moved to the exit. -/
theorem edges (h : Pruned exit g g') {g'' : Graph} (hsize : g''.nodes.size = g'.nodes.size)
    (hloops : g''.loops = g'.loops) (hbare : ∀ i, (g''.node i).bare = (g'.node i).bare)
    (hsuccs : ∀ a, ∀ b ∈ (g''.node a).succs,
      b ∈ (g'.node a).succs ∨ exit = some b ∧ (g'.node a).succs ≠ []) : Pruned exit g g'' where
  size := hsize.trans h.size
  loops := hloops.trans h.loops
  start i := (congrArg Node.start (hbare i)).trans (h.start i)
  children i := (Node.children_of_bare (hbare i)).trans (h.children i)
  succs a b hb := by
    rcases hsuccs a b hb with hb | ⟨he, hne⟩
    · exact h.succs a b hb
    · obtain ⟨t, ht⟩ := List.exists_mem_of_ne_nil _ hne
      rcases h.succs a t ht with ht | ⟨-, hne⟩
      · exact .inr ⟨he, List.ne_nil_of_mem ht⟩
      · exact .inr ⟨he, hne⟩

theorem disconnect (h : Pruned exit g g') (n m : NodeId) : Pruned exit g (g'.disconnect n m) :=
  h.edges (size_disconnect ..) rfl (bare_disconnect g' n m) fun _ _ hb =>
    .inl (mem_succs_disconnect hb)

theorem disconnectSuccessors (h : Pruned exit g g') (n : NodeId) :
    Pruned exit g (g'.disconnectSuccessors n) :=
  h.edges (size_disconnectSuccessors ..) (loops_disconnectSuccessors n)
    (bare_disconnectSuccessors g' n) fun _ _ hb => .inl (mem_succs_disconnectSuccessors hb).1

theorem redirectPredecessors {e : NodeId} (h : Pruned (some e) g g') (old : NodeId)
    (p : Node → Bool) : Pruned (some e) g (g'.redirectPredecessors old e p) := by
  refine h.edges (size_redirectPredecessors ..) (loops_redirectPredecessors ..)
    (bare_redirectPredecessors g' old e p) fun a b hb => ?_
  rcases mem_succs_redirectPredecessors hb with hb | ⟨rfl, hold, -⟩
  · exact .inl hb
  · exact .inr ⟨rfl, List.ne_nil_of_mem hold⟩

/-- An edit of one node that leaves its place, slots and edges as they are. -/
theorem modifyNode (h : Pruned exit g g') (n : NodeId) {f : Node → Node}
    (hf : ∀ x, (f x).start = x.start ∧ (f x).children = x.children ∧ (f x).succs = x.succs) :
    Pruned exit g (g'.modifyNode n f) := by
  have hnode : ∀ i, ((g'.modifyNode n f).node i).start = (g'.node i).start ∧
      ((g'.modifyNode n f).node i).children = (g'.node i).children ∧
      ((g'.modifyNode n f).node i).succs = (g'.node i).succs := fun i => by
    rw [node_modifyNode]
    split
    · exact hf (g'.node i)
    · exact ⟨rfl, rfl, rfl⟩
  exact ⟨(size_modifyNode ..).trans h.size, h.loops, fun i => (hnode i).1.trans (h.start i),
    fun i => (hnode i).2.1.trans (h.children i), fun a b hb => h.succs a b ((hnode a).2.2 ▸ hb)⟩

theorem mapInstrs (h : Pruned exit g g') (n : NodeId) (f : List Instr → List Instr) :
    Pruned exit g (g'.mapInstrs n f) := by
  refine h.modifyNode n fun x => ?_
  unfold Node.mapInstrs
  split <;> exact ⟨rfl, rfl, rfl⟩

theorem setParent (h : Pruned exit g g') (n : NodeId) (parent : Option NodeId) :
    Pruned exit g (g'.setParent n parent) :=
  h.modifyNode n fun _ => ⟨rfl, rfl, rfl⟩

end Pruned

namespace Loops

theorem moveExits_pruned {exit : NodeId} (h : Pruned (some exit) g g') (c : Candidate)
    (inside : Node → Bool) : Pruned (some exit) g (moveExits c exit inside g') := by
  have hhead : ∀ g', Pruned (some exit) g g' → Pruned (some exit) g
      (if c.kind = .whileLoop then g'.redirectPredecessors c.head exit inside else g') := by
    intro g' h
    split
    · exact h.redirectPredecessors c.head inside
    · exact h
  unfold moveExits
  cases breakTarget? c with
  | none => exact hhead g' h
  | some target => exact hhead _ (h.redirectPredecessors target inside)

theorem moveExits_sound (h : g.Sound) (c : Candidate) {exit : NodeId} (he : exit < g.nodes.size)
    (inside : Node → Bool) : (moveExits c exit inside g).Sound := by
  have hhead : ∀ g' : Graph, g'.Sound → exit < g'.nodes.size → Graph.Sound
      (if c.kind = .whileLoop then g'.redirectPredecessors c.head exit inside else g') := by
    intro g' h he
    split
    · exact h.redirectPredecessors c.head he inside
    · exact h
  unfold moveExits
  cases breakTarget? c with
  | none => exact hhead g h he
  | some target => exact hhead _ (h.redirectPredecessors target he inside) (by simpa using he)

/-- Nothing inside a `while` leads to its head any more. -/
theorem not_mem_succs_moveExits (h : g.Sound) {c : Candidate} {exit : NodeId}
    (he : exit < g.nodes.size) (hhead : c.head ≠ exit) (hk : c.kind = .whileLoop)
    {inside : Node → Bool} {a : NodeId}
    (ha : ∀ n : Node, n.start = (g.node a).start → inside n = true) :
    c.head ∉ ((moveExits c exit inside g).node a).succs := by
  unfold moveExits
  cases breakTarget? c with
  | none =>
    dsimp only
    rw [if_pos hk]
    exact h.not_mem_succs_redirectPredecessors hhead (ha _ rfl)
  | some target =>
    dsimp only
    rw [if_pos hk]
    refine (h.redirectPredecessors target he _).not_mem_succs_redirectPredecessors hhead (ha _ ?_)
    rw [← gist_start, gist_redirectPredecessors, gist_start]

/-- What folding a loop does: two nodes are added, the loop's and its exit's. The loop's node leads
on behind the loop and takes over edges to the head from outside; other edges are old ones the loop
does not cut, or lead to the exit now. -/
structure Candidate.Folded (c : Candidate) (g g' : Graph) : Prop where
  loops : g'.loops = g.loops ++ [g.nodes.size]
  size : g'.nodes.size = g.nodes.size + 2
  start : ∀ i < g.nodes.size, (g'.node i).start = (g.node i).start
  node : (g'.node g.nodes.size).start = (g.node c.head).start
  exit : (g'.node g.nodes.size).children[Slot.loopExit]? = some (some (g.nodes.size + 1))
  children : ∀ i < g.nodes.size, (g'.node i).children = (g.node i).children ∨
    (g'.node i).children =
      (g.node i).children.map fun d => if d == some c.head then some g.nodes.size else d
  succs : ∀ a, ∀ b ∈ (g'.node a).succs,
    a = g.nodes.size ∧ b = c.next ∨
    b = g.nodes.size + 1 ∧ (g.node a).succs ≠ [] ∨
    b = g.nodes.size ∧ c.head ∈ (g.node a).succs ∧
      ((g.node c.head).start ≤ (g.node a).start → (g.node c.next).start ≤ (g.node a).start) ∨
    b ∈ (g.node a).succs ∧
      (b = c.head → (g.node b).start ≤ (g.node a).start → ¬ c.Cuts g a)

section

variable (c : Candidate) (node exit body : NodeId) (inside : Node → Bool)

/-- The graph before the loop's node goes in, with all edges to the exit in place. -/
def parted (g : Graph) : Graph := moveExits c exit inside (g.setParent exit (some node))

/-- The edges of the loop's node. -/
def joined (g : Graph) : Graph :=
  (g.redirectPredecessors c.head node fun n => !inside n).connect node c.next

/-- The slots of the loop's node. -/
def seated (g : Graph) : Graph :=
  ((((g.replaceInParent c.head node).writeSlot node Slot.loopExit (some exit)).setChild node
    Slot.loopHead (some c.head)).setChild node Slot.loopTail (some c.tail)).setChild node
    Slot.loopBody (some body)

theorem parted_pruned : Pruned (some exit) g (parted c node exit inside g) :=
  moveExits_pruned ((Pruned.refl _ g).setParent exit (some node)) c inside

theorem seated_keeps : (seated c node exit body g).nodes.size = g.nodes.size ∧
    (seated c node exit body g).loops = g.loops ∧
    ∀ i, ((seated c node exit body g).node i).start = (g.node i).start ∧
      ((seated c node exit body g).node i).succs = (g.node i).succs := by
  unfold seated
  refine ⟨by simp, ?_, fun i => ⟨?_, by simp⟩⟩
  · simp only [loops_setChild]
    exact loops_replaceInParent c.head node
  · rw [← gist_start, ← gist_start]
    simp

theorem children_seated_of_ne {i : NodeId} (h : i ≠ node) :
    ((seated c node exit body g).node i).children = (g.node i).children ∨
      ((seated c node exit body g).node i).children =
        (g.node i).children.map fun d => if d == some c.head then some node else d := by
  have hw : ∀ g : Graph, ((g.writeSlot node Slot.loopExit (some exit)).node i).children =
      (g.node i).children := fun g => by
    rw [writeSlot, node_modifyNode, if_neg fun hi => h hi.1]
  unfold seated
  rw [children_setChild_of_ne h, children_setChild_of_ne h, children_setChild_of_ne h, hw]
  exact children_replaceInParent c.head node i

theorem slot_seated_self (h : node < g.nodes.size) :
    ((seated c node exit body g).node node).children[Slot.loopExit]? = some (some exit) := by
  unfold seated
  refine slot_setChild_of_ne (by decide) (slot_setChild_of_ne (by decide) (slot_setChild_of_ne
    (by decide) ?_))
  exact slot_writeSlot_self (by simpa using h) Slot.loopExit (some exit)

/-- The edges after the loop's node has gone in. -/
theorem mem_succs_joined {a b : NodeId} (h : b ∈ ((joined c node inside g).node a).succs) :
    a = node ∧ b = c.next ∨
    b = node ∧ c.head ∈ (g.node a).succs ∧ inside (g.node a) = false ∨ b ∈ (g.node a).succs := by
  rcases mem_succs_connect h with h | h
  · rcases mem_succs_redirectPredecessors h with h | ⟨hb, hhead, hout⟩
    · exact .inr (.inr h)
    · exact .inr (.inl ⟨hb, hhead, by simpa using hout⟩)
  · exact .inl h

theorem joined_keeps : (joined c node inside g).nodes.size = g.nodes.size ∧
    (joined c node inside g).loops = g.loops ∧
    ∀ i, ((joined c node inside g).node i).start = (g.node i).start ∧
      ((joined c node inside g).node i).children = (g.node i).children := by
  unfold joined
  refine ⟨by simp, loops_redirectPredecessors .., fun i => ⟨?_, ?_⟩⟩
  · rw [← gist_start, gist_connect, gist_redirectPredecessors, gist_start]
  · exact (Node.children_of_bare (bare_connect _ node c.next i)).trans
      (Node.children_of_bare (bare_redirectPredecessors g c.head node _ i))

/-- The loop's node put in, edges before slots. -/
def spliced (g : Graph) : Graph :=
  seated c node exit body (joined c node inside (parted c node exit inside g))

theorem splice_eq : splice c node exit body inside g =
    { spliced c node exit body inside g with
      loops := (spliced c node exit body inside g).loops ++ [node] } := rfl

theorem node_splice (i : NodeId) :
    (splice c node exit body inside g).node i = (spliced c node exit body inside g).node i := by
  rw [splice_eq, node_setLoops]

theorem splice_keeps : (splice c node exit body inside g).nodes.size = g.nodes.size ∧
    (splice c node exit body inside g).loops = g.loops ++ [node] ∧
    ∀ i, ((splice c node exit body inside g).node i).start = (g.node i).start := by
  have hparted := parted_pruned (g := g) c node exit inside
  obtain ⟨hsize, hloops, hstart⟩ := joined_keeps (g := parted c node exit inside g) c node inside
  obtain ⟨hsize', hloops', hstart'⟩ := seated_keeps
    (g := joined c node inside (parted c node exit inside g)) c node exit body
  refine ⟨?_, ?_, fun i => ?_⟩
  · rw [splice_eq, spliced, hsize', hsize, hparted.size]
  · rw [splice_eq, spliced, hloops', hloops, hparted.loops]
  · rw [node_splice, spliced, (hstart' i).1, (hstart i).1, hparted.start]

theorem children_splice_of_ne {i : NodeId} (h : i ≠ node) :
    ((splice c node exit body inside g).node i).children = (g.node i).children ∨
      ((splice c node exit body inside g).node i).children =
        (g.node i).children.map fun d => if d == some c.head then some node else d := by
  have hjoined : ((joined c node inside (parted c node exit inside g)).node i).children =
      (g.node i).children := by
    rw [((joined_keeps c node inside).2.2 i).2, (parted_pruned c node exit inside).children]
  rw [node_splice, spliced, ← hjoined]
  exact children_seated_of_ne c node exit body h

theorem slot_splice_self (h : node < g.nodes.size) :
    ((splice c node exit body inside g).node node).children[Slot.loopExit]? = some (some exit) := by
  rw [node_splice, spliced]
  refine slot_seated_self c node exit body ?_
  rw [(joined_keeps c node inside).1, (parted_pruned c node exit inside).size]
  exact h

theorem mem_succs_splice {a b : NodeId}
    (h : b ∈ ((splice c node exit body inside g).node a).succs) :
    a = node ∧ b = c.next ∨
    b = node ∧ c.head ∈ ((parted c node exit inside g).node a).succs ∧
      inside ((parted c node exit inside g).node a) = false ∨
    b ∈ ((parted c node exit inside g).node a).succs := by
  rw [node_splice, spliced, ((seated_keeps c node exit body).2.2 a).2] at h
  exact mem_succs_joined c node inside h

end

theorem Candidate.Cuts.le {c : Candidate} {a : NodeId} (h : c.Cuts g a) :
    (g.node a).start ≤ (g.node c.tail).start := by
  cases h with
  | closes htail _ => exact Nat.le_of_eq (by rw [htail])
  | continues _ hle => exact hle

/-- Two nodes more, the loop's and its exit's, which lead nowhere yet; of the loop's own edges those
that close it are gone. -/
structure Extended (c : Candidate) (g g₂ : Graph) : Prop where
  sound : g₂.Sound
  size : g₂.nodes.size = g.nodes.size + 2
  loops : g₂.loops = g.loops
  start : ∀ i < g.nodes.size, (g₂.node i).start = (g.node i).start
  children : ∀ i < g.nodes.size, (g₂.node i).children = (g.node i).children
  node : (g₂.node g.nodes.size).start = (g.node c.head).start
  succs : ∀ a, ∀ b ∈ (g₂.node a).succs, b ∈ (g.node a).succs
  tail : c.kind ≠ .whileLoop → c.kind ≠ .withLoop → ∀ b, b ∉ (g₂.node c.tail).succs

namespace Extended

variable {c : Candidate} {g₂ : Graph} {inside : Node → Bool} {a b : NodeId}

/-- With all edges to the exit in place an edge is one from before, or leads to the exit. -/
theorem mem_succs_parted (h : Extended c g g₂)
    (hb : b ∈ ((parted c g.nodes.size (g.nodes.size + 1) inside g₂).node a).succs) :
    b ∈ (g₂.node a).succs ∨ b = g.nodes.size + 1 ∧ (g.node a).succs ≠ [] := by
  rcases (parted_pruned c g.nodes.size (g.nodes.size + 1) inside).succs a b hb with hb | ⟨he, hne⟩
  · exact .inl hb
  · obtain ⟨t, ht⟩ := List.exists_mem_of_ne_nil _ hne
    exact .inr ⟨(Option.some.inj he).symm, List.ne_nil_of_mem (h.succs a t ht)⟩

theorem start_parted (h : Extended c g g₂) (hb : b ∈ (g.node a).succs) :
    ((parted c g.nodes.size (g.nodes.size + 1) inside g₂).node a).start = (g.node a).start := by
  rw [(parted_pruned c g.nodes.size (g.nodes.size + 1) inside).start,
    h.start a (lt_of_mem_succs hb)]

/-- An edge from inside to the head that is left is none that the loop cuts. -/
theorem not_cuts (h : Extended c g g₂) (hhead : c.head < g.nodes.size) (hp : c.Placed g)
    (hinside : ∀ n, inside n = true ↔
      (g.node c.head).start ≤ n.start ∧ n.start < (g.node c.next).start)
    (hb : c.head ∈ ((parted c g.nodes.size (g.nodes.size + 1) inside g₂).node a).succs)
    (hold : c.head ∈ (g₂.node a).succs) (hle : (g.node c.head).start ≤ (g.node a).start) :
    ¬ c.Cuts g a := by
  intro hcut
  by_cases hk : c.kind = .whileLoop
  · -- inside a `while` the edge would have gone to the exit
    have hlow : (g.node a).start < (g.node c.next).start :=
      Nat.lt_of_le_of_lt hcut.le hp.tail
    refine not_mem_succs_moveExits (h.sound.setParent _ fun p hp => ?_) ?_
      (Nat.ne_of_lt (Nat.lt_succ_of_lt hhead)) hk (fun n hn => ?_) hb
    · cases hp
      exact h.size ▸ Nat.lt_add_of_pos_right (by decide)
    · rw [size_setParent, h.size]
      exact Nat.lt_succ_self _
    · rw [hinside, hn, ((Pruned.refl none g₂).setParent _ _).start,
        h.start a (lt_of_mem_succs (h.succs a _ hold))]
      exact ⟨hle, hlow⟩
  · cases hcut with
    | closes ht hw => exact h.tail hk hw _ (ht ▸ hold)
    | continues hk' => exact hk hk'

/-- A stripped loop gets its node and exit. -/
theorem folded (h : Extended c g g₂) (hhead : c.head < g.nodes.size) (hp : c.Placed g)
    (body : NodeId) (hinside : ∀ n, inside n = true ↔
      (g.node c.head).start ≤ n.start ∧ n.start < (g.node c.next).start) :
    c.Folded g (splice c g.nodes.size (g.nodes.size + 1) body inside g₂) := by
  obtain ⟨hsize, hloops, hstart⟩ := splice_keeps (g := g₂) c g.nodes.size (g.nodes.size + 1) body
    inside
  refine ⟨hloops.trans (by rw [h.loops]), hsize.trans h.size, fun i hi => ?_,
    (hstart _).trans h.node, ?_, fun i hi => ?_, fun a b hb => ?_⟩
  · rw [hstart, h.start i hi]
  · exact slot_splice_self c _ _ body inside (h.size ▸ Nat.lt_add_of_pos_right (by decide))
  · have hchildren := children_splice_of_ne (g := g₂) c g.nodes.size (g.nodes.size + 1) body inside
      (Nat.ne_of_lt hi)
    rw [h.children i hi] at hchildren
    exact hchildren
  · rcases mem_succs_splice c _ _ body inside hb with hb | ⟨hb, hin, hout⟩ | hb
    · exact .inl hb
    · -- from outside to the head, and so to the loop's node now
      rcases h.mem_succs_parted hin with hin | ⟨he, -⟩
      · have hfrom := h.succs a _ hin
        rw [← Bool.not_eq_true, hinside, h.start_parted hfrom] at hout
        exact .inr (.inr (.inl ⟨hb, hfrom, fun hle => by omega⟩))
      · exact absurd he (Nat.ne_of_lt (Nat.lt_succ_of_lt hhead))
    · rcases h.mem_succs_parted hb with hold | hexit
      · refine .inr (.inr (.inr ⟨h.succs a b hold, fun he hle => ?_⟩))
        subst he
        exact h.not_cuts hhead hp hinside hb hold hle
      · exact .inr (.inl hexit)

end Extended

/-- A graph of which `cs` are still to be folded: edges lead on or into a loop's exit, but for those
that the folds to come cut. -/
structure Pending (base g : Graph) (cs : List Candidate) : Prop where
  edited : Edited .loops base g
  loops : ∀ l ∈ g.loops, l < g.nodes.size
  exits : ∀ e, g.LoopExit e → base.nodes.size ≤ e ∧ (g.node e).succs = []
  succs : ∀ a, ∀ b ∈ (g.node a).succs, g.LoopExit b ∨ (g.node a).start < (g.node b).start ∨
    ∃ c ∈ cs, c.head = b ∧ c.Cuts g a

/-- What is cut by a fold to come, in a graph where nothing has moved. -/
theorem Candidate.Cuts.congr {c : Candidate} {a : NodeId} (h : c.Cuts g a)
    (ha : (g'.node a).start = (g.node a).start)
    (ht : (g'.node c.tail).start = (g.node c.tail).start) : c.Cuts g' a := by
  cases h with
  | closes htail hk => exact .closes htail hk
  | continues hk hle => exact .continues hk (by rw [ha, ht]; exact hle)

/-- Candidates stand in a graph as they do in the graph of blocks. -/
theorem Pending.start {base : Graph} {cs : List Candidate} (h : Pending base g cs) {i : NodeId}
    (hi : i < base.nodes.size) : (g.node i).start = (base.node i).start :=
  (h.edited.bounds (by decide) hi).1

section

variable {base : Graph} {c : Candidate} {cs : List Candidate}

theorem Pending.placed (h : Pending base g cs) (hs : base.Sound) (hw : c.Within base.blocks)
    (hp : c.Placed base) : c.Placed g := by
  have hstart : ∀ b ∈ base.blocks, (g.node b).start = (base.node b).start :=
    fun b hb => h.start (hs.blocks b hb)
  refine ⟨?_, ?_⟩
  · rw [hstart _ hw.head, hstart _ hw.next]
    exact hp.head
  · rw [hstart _ hw.tail, hstart _ hw.next]
    exact hp.tail

end

end Loops

open Loops

/-- A block graph has no loops yet. -/
theorem loops_findBlocks {code : CodeEntry} (h : findBlocks code = .ok g) : g.loops = [] := by
  have hdead : ∀ (bs : List NodeId) (g : Graph), (Blocks.chainDead g bs).loops = g.loops := by
    intro bs
    induction bs with
    | nil => intro g; rfl
    | cons a bs ih =>
      intro g
      cases bs with
      | nil => rfl
      | cons b bs =>
        simp only [Blocks.chainDead]
        rw [ih]
        split <;> rfl
  have hwire : ∀ (g : Graph) (b : NodeId), (Blocks.wire g b).loops = g.loops := fun g b =>
    foldl_keeps (·.loops) (fun g t => (rfl : (g.connect b t).loops = g.loops)) _ _
  obtain ⟨-, points, -, -, -, -, -, rfl⟩ := findBlocks_eq h
  rw [hdead, foldl_keeps (·.loops) hwire]
  rfl

end GmlLift
