import GmlLift.Proofs.Flow.BlockGraph
import GmlLift.Proofs.Flow.Phases

/-! # Composites as single entries

A loop or a short-circuit chain stands for the block it starts with: nothing outside should lead to
that block or hold it past the composite. Old nodes never come to do so. What a pass adds can, since
passes look blocks up by address without asking what stands for them. -/
namespace GmlLift

open GmlLift.Graph Pass

variable {craft : Craft} {base g g' : Graph}

namespace Graph

/-- A loop or chain that starts with a block, which is in its first slot. -/
structure Heads (g : Graph) (c b : NodeId) : Prop where
  gate : (g.node c).isGate = true
  slot : (g.node c).children[0]? = some (some b)
  block : (g.node b).isBlock = true
  start : (g.node c).start = (g.node b).start

/-- A node outside a composite that leads to the block inside, or holds it in a slot of its own. -/
def Bypasses (g : Graph) (n c b : NodeId) : Prop :=
  ((g.node c).covers (g.node n).start = false ∧ b ∈ (g.node n).succs) ∨
    (n ≠ c ∧ some b ∈ (g.node n).children)

/-- No composite is bypassed. -/
def SingleEntry (g : Graph) : Prop := ∀ c b, g.Heads c b → ∀ n, ¬ g.Bypasses n c b

/-! All nodes that matter are nodes of the graph, so the conditions above can be checked. -/

theorem Heads.lt {g : Graph} {c b : NodeId} (h : g.Heads c b) :
    c < g.nodes.size ∧ b < g.nodes.size := by
  have inside : ∀ i, (g.node i).kind ≠ .empty → i < g.nodes.size := fun i hi =>
    Nat.lt_of_not_le fun hle => hi (by rw [node_of_size_le hle]; rfl)
  refine ⟨inside c fun he => ?_, inside b fun he => ?_⟩
  · have := h.gate
    rw [Node.isGate, he] at this
    cases this
  · have := h.block
    rw [Node.isBlock, he] at this
    cases this

theorem Bypasses.lt {g : Graph} {n c b : NodeId} (h : g.Bypasses n c b) : n < g.nodes.size := by
  refine Nat.lt_of_not_le fun hle => ?_
  rw [Bypasses, node_of_size_le hle] at h
  rcases h with ⟨_, hmem⟩ | ⟨_, hmem⟩ <;> cases hmem

instance (g : Graph) (c b : NodeId) : Decidable (g.Heads c b) :=
  decidable_of_iff ((g.node c).isGate = true ∧ (g.node c).children[0]? = some (some b) ∧
      (g.node b).isBlock = true ∧ (g.node c).start = (g.node b).start)
    ⟨fun ⟨hg, hs, hb, hst⟩ => ⟨hg, hs, hb, hst⟩, fun h => ⟨h.gate, h.slot, h.block, h.start⟩⟩

instance (g : Graph) (n c b : NodeId) : Decidable (g.Bypasses n c b) :=
  inferInstanceAs (Decidable (_ ∨ _))

instance (g : Graph) : Decidable g.SingleEntry :=
  decidable_of_iff (∀ c < g.nodes.size, ∀ b < g.nodes.size, g.Heads c b →
      ∀ n < g.nodes.size, ¬ g.Bypasses n c b)
    ⟨fun h c b hheads n hby => h c hheads.lt.1 b hheads.lt.2 hheads n hby.lt hby,
      fun h c _ b _ hheads n _ => h c b hheads n⟩

end Graph

/-- A node that the pass made. -/
def Leg.Made (s : Leg) (n : NodeId) : Prop :=
  s.before.nodes.size ≤ n ∧ s.pass.craft.makes (s.after.node n).kind = true

/-- A node that the pass made bypasses a composite, or the composite is one that the pass made and
another node still holds its block. -/
def Leg.Intrudes (s : Leg) : Prop :=
  ∃ c b n, s.after.Heads c b ∧ s.after.Bypasses n c b ∧
    (s.Made n ∨ s.Made c ∧ some b ∈ (s.after.node n).children)

instance (s : Leg) (n : NodeId) : Decidable (s.Made n) := inferInstanceAs (Decidable (_ ∧ _))

instance (s : Leg) : Decidable s.Intrudes :=
  decidable_of_iff (∃ c < s.after.nodes.size, ∃ b < s.after.nodes.size, ∃ n < s.after.nodes.size,
      s.after.Heads c b ∧ s.after.Bypasses n c b ∧
        (s.Made n ∨ s.Made c ∧ some b ∈ (s.after.node n).children))
    ⟨fun ⟨c, _, b, _, n, _, h⟩ => ⟨c, b, n, h⟩,
      fun ⟨c, b, n, h⟩ => ⟨c, h.1.lt.1, b, h.1.lt.2, n, h.2.1.lt, h⟩⟩

/-- Nodes that agree in what composites are told by. -/
structure Alike (x y : Node) : Prop where
  gate : y.isGate = x.isGate
  block : y.isBlock = x.isBlock
  start : y.start = x.start
  stop : x.isGate = true → y.stop = x.stop

/-- What a run of edits leaves of the links between old nodes, and what it grants to the blocks of
new composites. -/
structure Kept (base g : Graph) : Prop where
  alike : ∀ i < base.nodes.size, Alike (base.gist i) (g.gist i)
  succs : ∀ n < base.nodes.size, ∀ b < base.nodes.size, (g.gist b).isBlock = true →
    b ∈ (g.node n).succs → b ∈ (base.node n).succs
  slots : ∀ n < base.nodes.size, ∀ (k : Nat) (b : NodeId), (g.gist b).isBlock = true →
    (g.node n).children[k]? = some (some b) → (base.node n).children[k]? = some (some b)
  closed : ∀ c, base.nodes.size ≤ c → (g.gist c).isGate = true → ∀ b, (g.gist b).isBlock = true →
    (g.node c).children[0]? = some (some b) → ∀ n < base.nodes.size,
    (g.gist c).covers (g.gist n).start = false → b ∉ (g.node n).succs

theorem Alike.trans {x y z : Node} (h : Alike x y) (h' : Alike y z) : Alike x z where
  gate := h'.gate.trans h.gate
  block := h'.block.trans h.block
  start := h'.start.trans h.start
  stop hg := (h'.stop (h.gate.trans hg)).trans (h.stop hg)

theorem Alike.covers {x y z w : Node} (h : Alike x y) (h' : Alike z w) (hx : x.isGate = true) :
    y.covers w.start = x.covers z.start := by
  rw [Node.covers, h.start, h.stop hx, h'.start, Node.covers]

theorem Graph.lt_of_slot (hs : g.Sound) {n b : NodeId} {k : Nat}
    (h : (g.node n).children[k]? = some (some b)) : n < g.nodes.size ∧ b < g.nodes.size := by
  refine ⟨?_, hs.children n b (List.mem_of_getElem? h)⟩
  by_cases hn : n < g.nodes.size
  · exact hn
  · rw [node_of_size_le (Nat.le_of_not_lt hn)] at h
    cases h

/-- An old composite heads the block it headed. -/
theorem Kept.heads (h : Kept base g) (hs : base.Sound) {c b : NodeId} (hc : c < base.nodes.size)
    (hheads : g.Heads c b) : base.Heads c b ∧ b < base.nodes.size := by
  have hslot := h.slots c hc 0 b hheads.block hheads.slot
  have hb := (lt_of_slot hs hslot).2
  have hgate := (h.alike c hc).gate.symm.trans hheads.gate
  have hblock := (h.alike b hb).block.symm.trans hheads.block
  have hstart := (h.alike c hc).start.symm.trans (hheads.start.trans (h.alike b hb).start)
  exact ⟨⟨hgate, hslot, hblock, hstart⟩, hb⟩

/-- Under `Kept`, old nodes are no danger: composites stay single entries exactly as long as no node
that the pass made intrudes. -/
theorem Leg.singleEntry_iff (s : Leg) (h : Kept s.before s.after)
    (hmade : ∀ n < s.after.nodes.size, s.before.nodes.size ≤ n → s.Made n) (hs : s.before.Sound)
    (he : s.before.SingleEntry) : s.after.SingleEntry ↔ ¬ s.Intrudes := by
  constructor
  · rintro hsingle ⟨c, b, n, hheads, hby, -⟩
    exact hsingle c b hheads n hby
  · intro hclean c b hheads n hby
    by_cases hn : s.before.nodes.size ≤ n
    · exact hclean ⟨c, b, n, hheads, hby, .inl (hmade n hby.lt hn)⟩
    have hn : n < s.before.nodes.size := Nat.lt_of_not_le hn
    by_cases hc : s.before.nodes.size ≤ c
    · rcases hby with ⟨hout, hsucc⟩ | hslot
      · exact h.closed c hc hheads.gate b hheads.block hheads.slot n hn hout hsucc
      · have hmadec := hmade c hheads.lt.1 hc
        exact hclean ⟨c, b, n, hheads, .inr hslot, .inr ⟨hmadec, hslot.2⟩⟩
    have hc : c < s.before.nodes.size := Nat.lt_of_not_le hc
    obtain ⟨hbase, hb⟩ := h.heads hs hc hheads
    refine he c b hbase n ?_
    rcases hby with ⟨hout, hsucc⟩ | ⟨hne, hmem⟩
    · have hcovers := (h.alike c hc).covers (h.alike n hn) hbase.gate
      exact .inl ⟨hcovers.symm.trans hout, h.succs n hn b hb hheads.block hsucc⟩
    · obtain ⟨k, hk⟩ := List.mem_iff_getElem?.mp hmem
      exact .inr ⟨hne, List.mem_of_getElem? (h.slots n hn k b hheads.block hk)⟩

theorem Alike.of_eq {x y : Node} (h : y = x) : Alike x y := h ▸ ⟨rfl, rfl, rfl, fun _ => rfl⟩

theorem Node.isGate_of_isBlock {n : Node} (h : n.isBlock = true) : n.isGate = false := by
  unfold Node.isBlock at h
  split at h
  · rename_i hk; rw [Node.isGate, hk]
  · cases h

theorem isBlock_of_instrs {n : NodeId} (h : g.instrs n ≠ []) : (g.gist n).isBlock = true := by
  rw [Node.isBlock, gist_kind]
  rw [instrs, Node.instrs] at h
  split at h
  · rfl
  · exact absurd rfl h

theorem alike_insertInFragment (old new : NodeId) (fs : List NodeId) (i : NodeId) :
    Alike (g.gist i) ((g.insertInFragment old new fs).gist i) := by
  rcases node_insertInFragment g old new fs i with he | ⟨_, _, _, hk, he⟩
  · exact .of_eq (by rw [gist, he, gist])
  · -- a fragment before and after
    have hkind := congrArg Node.kind he
    refine ⟨?_, ?_, ?_, fun hg => ?_⟩
    · rw [Node.isGate, Node.isGate, gist_kind, gist_kind, hk, hkind]
    · rw [Node.isBlock, Node.isBlock, gist_kind, gist_kind, hk, hkind]
    · rw [gist_start, gist_start, he]
    · rw [gist_stop, gist_stop, he]

/-- A patched node is the same composite, block or neither as before. -/
theorem Patched.alike {size : Nat} {x y : Node} (h : Patched craft size x y) : Alike x y := by
  have hk := h.kind
  refine ⟨?_, ?_, h.start, fun _ => h.stop⟩
  · unfold Node.isGate
    generalize x.kind = j, y.kind = k at hk
    cases hk <;> rfl
  · unfold Node.isBlock
    generalize x.kind = j, y.kind = k at hk
    cases hk <;> rfl

namespace Kept

theorem refl (base : Graph) : Kept base base where
  alike _ _ := .of_eq rfl
  succs _ _ _ _ _ h := h
  slots _ _ _ _ _ h := h
  closed c hc hg := by
    rw [gist, node_of_size_le hc] at hg
    cases hg

/-- An edit that grants no link to a block there was, be it an edge from an old node or a slot. -/
theorem step (h : Kept base g) (hs : g.Sound) (hle : base.nodes.size ≤ g.nodes.size)
    (halike : ∀ i < g.nodes.size, Alike (g.gist i) (g'.gist i))
    (hsuccs : ∀ n < base.nodes.size, ∀ b < g.nodes.size, (g.gist b).isBlock = true →
      b ∈ (g'.node n).succs → b ∈ (g.node n).succs)
    (hslots : ∀ (n : NodeId) (k : Nat) (b : NodeId), (g'.gist b).isBlock = true →
      (g'.node n).children[k]? = some (some b) → (g.node n).children[k]? = some (some b)) :
    Kept base g' := by
  have old : ∀ {i}, i < base.nodes.size → i < g.nodes.size := fun hi => Nat.lt_of_lt_of_le hi hle
  refine ⟨fun i hi => ?_, fun n hn b hb hblock hmem => ?_, fun n hn k b hblock hslot => ?_, ?_⟩
  · exact (h.alike i hi).trans (halike i (old hi))
  · have hblock : (g.gist b).isBlock = true := (halike b (old hb)).block ▸ hblock
    exact h.succs n hn b hb hblock (hsuccs n hn b (old hb) hblock hmem)
  · have hslot := hslots n k b hblock hslot
    exact h.slots n hn k b ((halike b (lt_of_slot hs hslot).2).block ▸ hblock) hslot
  · intro c hc hgate b hblock hslot n hn hout hmem
    have hslot := hslots c 0 b hblock hslot
    obtain ⟨hc', hb⟩ := lt_of_slot hs hslot
    have hgate : (g.gist c).isGate = true := (halike c hc').gate ▸ hgate
    have hblock : (g.gist b).isBlock = true := (halike b hb).block ▸ hblock
    rw [(halike c hc').covers (halike n (old hn)) hgate] at hout
    exact h.closed c hc hgate b hblock hslot n hn hout (hsuccs n hn b hb hblock hmem)

/-- The same for an edit of edges alone. -/
theorem stepEdges (h : Kept base g) (hs : g.Sound) (hle : base.nodes.size ≤ g.nodes.size)
    (hbare : ∀ i, (g'.node i).bare = (g.node i).bare)
    (hsuccs : ∀ n < base.nodes.size, ∀ b < g.nodes.size, (g.gist b).isBlock = true →
      b ∈ (g'.node n).succs → b ∈ (g.node n).succs) : Kept base g' := by
  refine h.step hs hle (fun i _ => .of_eq (gist_of_bare (hbare i))) hsuccs fun n k b _ hslot => ?_
  have hc := congrArg Node.children (hbare n)
  change (g'.node n).children = (g.node n).children at hc
  rw [← hc]
  exact hslot

theorem patch (h : Kept base g) (hs : g.Sound) (hle : base.nodes.size ≤ g.nodes.size) {n : NodeId}
    {f : Node → Node} (hf : Patched craft g.nodes.size (g.node n) (f (g.node n))) :
    Kept base (g.modifyNode n f) := by
  refine h.step hs hle (fun i _ => ?_) (fun i _ b _ _ hmem => ?_)
    fun i k b _ hslot => ?_
  · by_cases hi : i = n ∧ n < g.nodes.size
    · obtain ⟨rfl, hlt⟩ := hi
      have hnode : (g.modifyNode i f).node i = f (g.node i) := by
        rw [node_modifyNode, if_pos ⟨rfl, hlt⟩]
      have := hf.alike
      unfold gist
      rw [hnode]
      exact ⟨this.gate, this.block, this.start, this.stop⟩
    · refine .of_eq ?_
      rw [gist, node_modifyNode, if_neg hi, gist]
  · rw [node_modifyNode] at hmem
    split at hmem
    · rename_i hi; rw [hi.1] at hmem ⊢; exact hf.succs ▸ hmem
    · exact hmem
  · rw [node_modifyNode] at hslot
    split at hslot
    · rename_i hi; rw [hi.1] at hslot ⊢; exact hf.children ▸ hslot
    · exact hslot

/-- A composite that takes the place of a node in a slot is not a block. -/
theorem swapChild (h : Kept base g) (hs : g.Sound) (hle : base.nodes.size ≤ g.nodes.size)
    (p old : NodeId) {new : NodeId} (hb : (g.gist new).isBlock = false) :
    Kept base (g.modifyNode p fun x =>
      { x with children := x.children.map fun c => if c == some old then some new else c }) := by
  refine h.step hs hle (fun i _ => .of_eq (gist_mapChildren ..))
    (fun n _ c _ _ hmem => ?_) fun n k c hblock hslot => ?_
  · rw [node_modifyNode] at hmem
    split at hmem <;> exact hmem
  · rw [node_modifyNode] at hslot
    split at hslot
    · rw [List.getElem?_map, Option.map_eq_some_iff] at hslot
      obtain ⟨d, hd, he⟩ := hslot
      split at he
      · cases he
        rw [gist_mapChildren, hb] at hblock
        cases hblock
      · exact he ▸ hd
    · exact hslot

/-- What the first slot holds after a slot was written. -/
theorem slot_writeSlot {n b : NodeId} {slot : Nat} {child : Option NodeId}
    (h : ((g.writeSlot n slot child).node n).children[0]? = some (some b)) :
    (g.node n).children[0]? = some (some b) ∨ slot = 0 ∧ child = some b := by
  rw [Graph.writeSlot, node_modifyNode] at h
  split at h
  · dsimp only at h
    rw [List.getElem?_set] at h
    split at h
    · rename_i hslot
      split at h
      · exact .inr ⟨hslot, Option.some.inj h⟩
      · cases h
    · -- the padding before the slot is empty
      cases hc : (g.node n).children with
      | nil =>
        rw [hc, List.nil_append] at h
        have := List.eq_of_mem_replicate (List.mem_of_getElem? h)
        cases this
      | cons d ds =>
        rw [hc] at h
        exact .inl h
  · exact .inl h

/-- A block cut in two: the edge between the halves leads to a block there was not. -/
theorem splitBlock (h : Kept base g) (hs : g.Sound) (hle : base.nodes.size ≤ g.nodes.size)
    (b : NodeId) (address : Nat) : Kept base (g.splitBlock b address).1 := by
  rcases splitBlock_cases g b address with he | ⟨k, hk⟩
  · rw [he]; exact h
  have hne := instrs_ne_nil_of_findIdx? hk
  have hb : b < g.nodes.size := lt_size_of_instrs hne
  have hblock : (g.gist b).isBlock = true := isBlock_of_instrs hne
  rw [splitBlock_eq hk]
  have hhalves : ∀ i < g.nodes.size, Alike (g.gist i) ((g.halve b address (k + 1)).gist i) := by
    intro i hi
    by_cases hib : i = b
    · subst hib
      rw [gist_halve, gist_cutBlock_self address (k + 1) hi hblock]
      have hplain : (g.gist i).isGate = false := Node.isGate_of_isBlock hblock
      exact ⟨hplain.symm, hblock.symm, rfl, fun hg => by rw [hplain] at hg; cases hg⟩
    · exact .of_eq ((gist_halve ..).trans (gist_cutBlock_of_ne address (k + 1) hi hib))
  refine h.step hs hle (fun i hi => ?_) (fun n hn c hc _ hmem => ?_) fun n j c _ hslot => ?_
  · exact (hhalves i hi).trans (alike_insertInFragment ..)
  · rw [succs_insertInFragment] at hmem
    exact mem_succs_halve hs address (k + 1) hb (Nat.ne_of_lt (Nat.lt_of_lt_of_le hn hle))
      (Nat.ne_of_lt hc) hmem
  · rw [children_insertInFragment, children_halve] at hslot
    exact hslot

/-- A slot written to a new node. -/
theorem writeSlot (h : Kept base g) {n : NodeId} (slot : Nat) {child : Option NodeId}
    (hnew : base.nodes.size ≤ n)
    (hgate : ∀ c, child = some c → slot = 0 → (g.gist n).isGate = true →
      ∀ k < base.nodes.size, (g.gist n).covers (g.gist k).start = false → c ∉ (g.node k).succs) :
    Kept base (g.writeSlot n slot child) := by
  have hother : ∀ i, i ≠ n → (g.writeSlot n slot child).node i = g.node i := fun i hne => by
    rw [Graph.writeSlot, node_modifyNode, if_neg fun he => hne he.1]
  have old : ∀ {i}, i < base.nodes.size → i ≠ n := fun hi =>
    Nat.ne_of_lt (Nat.lt_of_lt_of_le hi hnew)
  refine ⟨fun i hi => ?_, fun k hk b hb hblock hmem => ?_, fun k hk j b hblock hslot => ?_, ?_⟩
  · rw [gist_writeSlot]; exact h.alike i hi
  · rw [gist_writeSlot] at hblock
    rw [succs_writeSlot] at hmem
    exact h.succs k hk b hb hblock hmem
  · rw [gist_writeSlot] at hblock
    rw [hother k (old hk)] at hslot
    exact h.slots k hk j b hblock hslot
  · intro c hc hg b hblock hslot k hk hout
    rw [gist_writeSlot] at hg hblock hout
    rw [gist_writeSlot] at hout
    rw [succs_writeSlot]
    by_cases hne : c = n
    · subst hne
      rcases slot_writeSlot hslot with hslot | ⟨hslot, hchild⟩
      · exact h.closed c hc hg b hblock hslot k hk hout
      · exact hgate b hchild hslot hg k hk hout
    · rw [hother c hne] at hslot
      exact h.closed c hc hg b hblock hslot k hk hout

end Kept

theorem Edited.kept (h : Edited craft base g) (hs : base.Sound) : Kept base g := by
  induction h with
  | refl => exact .refl base
  | patch h hf ih => exact ih.patch (h.sound hs) h.size_le hf
  | setLoops _ _ _ ih => exact ⟨ih.alike, ih.succs, ih.slots, ih.closed⟩
  | setFragments _ _ _ ih => exact ⟨ih.alike, ih.succs, ih.slots, ih.closed⟩
  | @add g h kind hk start stop slots ih =>
    refine ih.step (h.sound hs) h.size_le (fun i hi => .of_eq (gist_add_of_lt _ _ hi))
      (fun n hn b _ _ hmem => ?_) fun n k b _ hslot => ?_
    · rw [node_add, if_neg (Nat.ne_of_lt (Nat.lt_of_lt_of_le hn h.size_le))] at hmem
      exact hmem
    · rw [node_add] at hslot
      split at hslot
      · have := List.eq_of_mem_replicate (List.mem_of_getElem? hslot)
        cases this
      · exact hslot
  | @connect g h a b ha hb hnew ih =>
    refine ih.stepEdges (h.sound hs) h.size_le (bare_connect g a b) fun n hn c _ hblock hmem => ?_
    rw [← List.count_pos_iff, count_succs_connect g a b n c ha] at hmem
    split at hmem
    · rename_i he
      obtain ⟨rfl, rfl⟩ := he
      rcases hnew with hnew | ⟨_, hplain⟩
      · exact absurd hn (Nat.not_lt_of_le hnew)
      · rw [hplain] at hblock; cases hblock
    · exact List.count_pos_iff.mp hmem
  | @disconnect g h a b ih =>
    refine ih.stepEdges (h.sound hs) h.size_le (bare_disconnect g a b) fun n _ c _ _ hmem => ?_
    rw [← List.count_pos_iff, count_succs_disconnect] at hmem
    exact List.count_pos_iff.mp (Nat.lt_of_lt_of_le hmem (Nat.sub_le ..))
  | @disconnectSuccessors g h a ih =>
    refine ih.stepEdges (h.sound hs) h.size_le (bare_disconnectSuccessors g a)
      fun n _ c _ _ hmem => ?_
    rw [← List.count_pos_iff, count_succs_disconnectSuccessors] at hmem
    split at hmem
    · cases hmem
    · exact List.count_pos_iff.mp hmem
  | @replaceSuccessor g h a old new hn hnew hb ih =>
    refine ih.stepEdges (h.sound hs) h.size_le (bare_replaceSuccessor g a old new)
      fun n _ c _ hblock hmem => ?_
    have hne : ¬ new = c := fun he => by rw [← he, hb] at hblock; cases hblock
    rw [← List.count_pos_iff, count_succs_replaceSuccessor, if_neg hne] at hmem
    refine List.count_pos_iff.mp ?_
    split at hmem
    · exact Nat.lt_of_lt_of_le hmem (Nat.sub_le ..)
    · exact hmem
  | @writeSlot g h n slot child hnew hc hgate ih => exact ih.writeSlot slot hnew hgate
  | swapChild h p old hn hnew hb ih => exact ih.swapChild (h.sound hs) h.size_le p old hb
  | splitBlock h _ _ address ih => exact ih.splitBlock (h.sound hs) h.size_le _ address

/-! ## The nodes that a pass makes -/

theorem KindStep.makes_eq {k k' : NodeKind} (h : KindStep craft k k') :
    craft.makes k' = craft.makes k := by
  cases h with
  | same => rfl
  | shrink => cases craft <;> rfl
  | inform => cases craft <;> rfl
  | list hc => cases hc; rfl

theorem NodeKind.makes_of_addable {k : NodeKind} (h : k.addable craft = true) :
    craft.makes k = true := by
  cases k with
  | block => cases h
  | loop info => exact (Bool.and_eq_true_iff.mp h).1
  | _ => exact h

theorem makes_insertInFragment (craft : Craft) (old new : NodeId) (fs : List NodeId) (i : NodeId) :
    craft.makes ((g.insertInFragment old new fs).gist i).kind = craft.makes (g.gist i).kind := by
  rw [gist_kind, gist_kind]
  rcases node_insertInFragment g old new fs i with he | ⟨_, _, _, hk, he⟩
  · rw [he]
  · rw [he, hk]
    cases craft <;> rfl

/-- A split makes a block and leaves every other node of the kind it was. -/
theorem makes_splitBlock (n : NodeId) (address : Nat) {i : NodeId}
    (hi : i < (g.splitBlock n address).1.nodes.size)
    (h : i < g.nodes.size → Craft.switches.makes (g.gist i).kind = true) :
    Craft.switches.makes ((g.splitBlock n address).1.gist i).kind = true := by
  rcases splitBlock_cases g n address with he | ⟨k, hk⟩
  · rw [he] at hi ⊢
    exact h hi
  have hne := instrs_ne_nil_of_findIdx? hk
  have hn : n < g.nodes.size := lt_size_of_instrs hne
  have hblock : (g.gist n).isBlock = true := isBlock_of_instrs hne
  rw [splitBlock_eq hk] at hi ⊢
  rw [makes_insertInFragment, gist_halve]
  rw [size_insertInFragment, size_halve] at hi
  by_cases hnew : i = g.nodes.size
  · rw [hnew, gist_cutBlock_new address (k + 1) hn]
    rfl
  have hlt := Nat.lt_of_le_of_ne (Nat.le_of_lt_succ hi) hnew
  by_cases hin : i = n
  · rw [hin, gist_cutBlock_self address (k + 1) hn hblock]
    rfl
  · rw [gist_cutBlock_of_ne address (k + 1) hlt hin]
    exact h hlt

/-- All nodes that a pass adds are of the kinds it makes. -/
theorem Edited.makes (h : Edited craft base g) {i : NodeId} (hi : base.nodes.size ≤ i)
    (hlt : i < g.nodes.size) : craft.makes (g.gist i).kind = true := by
  induction h with
  | refl => exact absurd hlt (Nat.not_lt_of_le hi)
  | @patch g h n f hf ih =>
    have ih := ih (by simpa using hlt)
    rw [gist_kind, node_modifyNode]
    split
    · rename_i he
      rw [he.1, hf.kind.makes_eq]
      exact he.1 ▸ ih
    · exact ih
  | setLoops _ _ _ ih => exact ih hlt
  | setFragments _ _ _ ih => exact ih hlt
  | @add g h kind hk start stop slots ih =>
    by_cases he : i = g.nodes.size
    · rw [he, gist_add]
      exact NodeKind.makes_of_addable hk
    · rw [size_add] at hlt
      have hlt := Nat.lt_of_le_of_ne (Nat.le_of_lt_succ hlt) he
      rw [gist_add_of_lt _ _ hlt]
      exact ih hlt
  | connect _ _ _ _ _ _ ih => rw [gist_connect]; exact ih (by simpa using hlt)
  | disconnect _ _ _ ih => rw [gist_disconnect]; exact ih (by simpa using hlt)
  | disconnectSuccessors _ _ ih => rw [gist_disconnectSuccessors]; exact ih (by simpa using hlt)
  | replaceSuccessor _ _ _ _ _ _ ih => rw [gist_replaceSuccessor]; exact ih (by simpa using hlt)
  | writeSlot _ _ _ _ _ _ _ ih => rw [gist_writeSlot]; exact ih (by simpa using hlt)
  | swapChild _ _ _ _ _ _ ih => rw [gist_mapChildren]; exact ih (by simpa using hlt)
  | splitBlock _ hc _ address ih =>
    subst hc
    exact makes_splitBlock _ address hlt ih

/-! ## Passes in a row -/

/-- Fresh blocks are no composites. -/
theorem singleEntry_findBlocks {code : CodeEntry} (h : findBlocks code = .ok g) :
    g.SingleEntry := by
  intro c b hheads
  obtain ⟨_, points, hw⟩ := findBlocks_wired h
  have hgate := hheads.gate
  rw [Node.isGate, hw.kind, Blocks.node_islands] at hgate
  cases hn : (Blocks.nodesOf points code)[c]? with
  | none => rw [hn] at hgate; cases hgate
  | some n =>
    obtain ⟨_, _, _, rfl⟩ := Blocks.nodesOf_ofKind (List.mem_of_getElem? hn)
    rw [hn] at hgate
    cases hgate

/-- Passes in any order keep composites single entries up to the first pass that makes a node which
intrudes. -/
theorem singleEntry_trail (ps : List Phase) (hs : g.Sound) (he : g.SingleEntry) (n : Nat) :
    (∀ s ∈ (Phase.trail ps g).take n, s.after.SingleEntry) ↔
      ∀ s ∈ (Phase.trail ps g).take n, ¬ s.Intrudes := by
  induction ps generalizing g n with
  | nil => simp [Phase.trail]
  | cons p ps ih =>
    cases n with
    | zero => simp
    | succ n =>
      have hed := p.after_edited hs
      have hiff : (p.after g).SingleEntry ↔ ¬ Leg.Intrudes ⟨p, g, p.after g⟩ :=
        Leg.singleEntry_iff ⟨p, g, p.after g⟩ (hed.kept hs)
          (fun n hn hnew => ⟨hnew, hed.makes hnew hn⟩) hs he
      rw [Phase.trail, List.take_succ_cons, List.forall_mem_cons, List.forall_mem_cons, hiff]
      refine and_congr_right fun hclean => ?_
      cases hr : p.run.run g with
      | error e g' => simp
      | ok u g' =>
        have hafter : p.after g = g' := by rw [Phase.after, Pass.after, hr]
        have hsound := ((Phase.run_edited hs p).of_ok hr).sound hs
        exact ih hsound (hafter ▸ hiff.mpr hclean) n

/-- In the order of an analysis composites stay single entries for as long as no pass makes a node
that intrudes, and no longer. -/
theorem singleEntry_inOrder_iff {code : CodeEntry} (h : findBlocks code = .ok g) :
    let trail := Phase.trail (Phase.inOrder code .catchFirst) g
    trail.getLast?.map Leg.after = some ((foldConstructs code .catchFirst).after g) ∧
      ∀ n, (∀ s ∈ trail.take n, s.after.SingleEntry) ↔ ∀ s ∈ trail.take n, ¬ s.Intrudes := by
  refine ⟨?_, singleEntry_trail _ (findBlocks_sound h) (singleEntry_findBlocks h)⟩
  rw [foldConstructs_eq_forM]
  exact Phase.getLast?_trail ..

/-- A `try` whose body starts with a `while`. -/
def wrappedLoop : CodeEntry := .ofInstrs "wrapped_loop"
  [⟨0, .push, none, .int32, .int32, .int32 84⟩, ⟨8, .conv, none, .int32, .var, .none⟩,
    ⟨12, .push, none, .int32, .int32, .int32 (-1)⟩, ⟨20, .conv, none, .int32, .var, .none⟩,
    ⟨24, .call, none, .int32, .int32, .call Hook.try_ 2⟩, ⟨32, .popz, none, .var, .var, .none⟩,
    ⟨36, .push, none, .var, .var, .var ⟨"a", -1, .normal⟩⟩, ⟨44, .conv, none, .var, .bool, .none⟩,
    ⟨48, .bf, none, .int32, .int32, .branch 20⟩, ⟨52, .call, none, .int32, .int32, .call "g" 0⟩,
    ⟨60, .popz, none, .var, .var, .none⟩, ⟨64, .b, none, .int32, .int32, .branch (-28)⟩,
    ⟨68, .call, none, .int32, .int32, .call Hook.unhook 0⟩, ⟨76, .popz, none, .var, .var, .none⟩,
    ⟨80, .b, none, .int32, .int32, .branch 4⟩, ⟨84, .exit, none, .int32, .int32, .none⟩]

/-- The first five passes, of which the fourth folds the loop, add nothing that intrudes. -/
theorem singleEntry_inOrder_wrappedLoop : ∃ g, findBlocks wrappedLoop = .ok g ∧
    let trail := Phase.trail (Phase.inOrder wrappedLoop .catchFirst) g
    (trail.map fun s => s.after.loops) = [[], [], [], [7], [7], [7], [7], [7]] ∧
      ∀ s ∈ trail.take 5, s.after.SingleEntry := by
  refine ⟨_, rfl, by decide +kernel, ?_⟩
  exact ((singleEntry_inOrder_iff rfl).2 5).mpr (by decide +kernel)

/-- The sixth hangs the head of the loop under the `try`. -/
theorem not_singleEntry_wrappedLoop : ∃ g, findBlocks wrappedLoop = .ok g ∧
    ∃ s ∈ Phase.trail (Phase.inOrder wrappedLoop .catchFirst) g, ¬ s.after.SingleEntry := by
  refine ⟨_, rfl, ?_⟩
  decide +kernel

end GmlLift
