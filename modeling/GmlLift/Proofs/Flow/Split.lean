import GmlLift.Proofs.Flow.Edges

/-! # Splitting a block

The second half of a split block is a new node that takes over the outgoing edges. It is listed
after the first half among the blocks and in the fragment that lists the first half. -/
namespace GmlLift

namespace Graph

/-! One edge is handed from `a` to `b`. -/

section

variable {a b t : NodeId} {g : Graph}

theorem succs_handOver (hb : b < g.nodes.size) (x : NodeId) :
    (((g.modifyNode t fun x => { x with preds := x.preds.replace a b }).addSucc b t).node x).succs =
      (g.node x).succs ++ if x = b then [t] else [] := by
  have hs := succs_setPreds g t x fun l => l.replace a b
  rw [addSucc, node_modifyNode]
  by_cases hx : x = b
  · subst hx
    simp [hb, hs]
  · simp [hx, hs]

theorem preds_handOver (y : NodeId) :
    (((g.modifyNode t fun x => { x with preds := x.preds.replace a b }).addSucc b t).node y).preds =
      if y = t then (g.node y).preds.replace a b else (g.node y).preds := by
  rw [preds_addSucc, node_modifyNode]
  by_cases hy : y = t
  · subst hy
    by_cases hlt : y < g.nodes.size
    · simp [hlt]
    · simp [hlt, node_of_size_le (Nat.le_of_not_lt hlt), default]
  · simp [hy]

theorem count_handOver (hmem : a ∈ (g.node t).preds) (x y : NodeId) :
    (((g.modifyNode t fun x => { x with preds := x.preds.replace a b }).addSucc b t).node
      y).preds.count x =
      if y = t then ((g.node y).preds.count x + if b = x then 1 else 0) - if a = x then 1 else 0
      else (g.node y).preds.count x := by
  rw [preds_handOver]
  split
  · rename_i hy
    subst hy
    simp [List.count_replace, hmem]
  · rfl

end

/-- Handing edges from `a` to `b` one target at a time: `b` gains each target, and each target sees
one of its edges from `a` come from `b`. -/
theorem foldl_handOver {a b : NodeId} (hab : a ≠ b) (ts : List NodeId) (g : Graph)
    (hb : b < g.nodes.size) (hts : ∀ t, ts.count t ≤ (g.node t).preds.count a) (x y : NodeId) :
    let g' := ts.foldl
      (fun g t => (g.modifyNode t fun x => { x with preds := x.preds.replace a b }).addSucc b t) g
    (g'.node x).succs = (g.node x).succs ++ (if x = b then ts else []) ∧
      (g'.node y).preds.count x = if x = a then (g.node y).preds.count x - ts.count y
        else if x = b then (g.node y).preds.count x + ts.count y else (g.node y).preds.count x := by
  induction ts generalizing g with
  | nil => simp
  | cons t ts ih =>
    have hmem : a ∈ (g.node t).preds := by
      have := hts t
      rw [List.count_cons_self] at this
      exact List.count_pos_iff.mp (by omega)
    have hsuccs := succs_handOver (g := g) (a := a) (b := b) (t := t) hb x
    have hcount := count_handOver (b := b) hmem
    have hsize : b < ((g.modifyNode t fun x => { x with preds := x.preds.replace a b }).addSucc b
        t).nodes.size := by simpa using hb
    dsimp only [List.foldl_cons]
    generalize (g.modifyNode t fun x => { x with preds := x.preds.replace a b }).addSucc b t = g₁
      at hsuccs hcount hsize ⊢
    have hts' : ∀ u, ts.count u ≤ (g₁.node u).preds.count a := by
      intro u
      have hu := hts u
      rw [hcount, List.count_cons] at *
      by_cases hut : u = t
      · subst hut
        simp [Ne.symm hab] at hu ⊢
        omega
      · have : ¬ t = u := fun h => hut h.symm
        simpa [hut, this] using hu
    obtain ⟨ih₁, ih₂⟩ := ih g₁ hsize hts'
    refine ⟨?_, ?_⟩
    · rw [ih₁, hsuccs]
      split <;> simp
    · rw [ih₂, hcount, List.count_cons]
      by_cases hy : y = t
      · subst hy
        by_cases hxa : x = a
        · subst hxa
          simp only [if_true, Ne.symm hab, if_false, beq_self_eq_true]
          omega
        · by_cases hxb : x = b
          · subst hxb
            simp only [if_true, hab, Ne.symm hab, if_false, beq_self_eq_true]
            omega
          · simp [hxa, hxb, Ne.symm hxa, Ne.symm hxb]
      · have : ¬ t = y := fun h => hy h.symm
        simp [hy, this]

@[simp] theorem size_moveSuccessors (g : Graph) (a b : NodeId) :
    (g.moveSuccessors a b).nodes.size = g.nodes.size := by
  unfold moveSuccessors
  rw [foldl_keeps (·.nodes.size) (fun g t => by simp), size_modifyNode]

theorem blocks_moveSuccessors (g : Graph) (a b : NodeId) :
    (g.moveSuccessors a b).blocks = g.blocks := by
  unfold moveSuccessors
  rw [foldl_keeps (·.blocks) (fun g t => by rfl), blocks_modifyNode]

theorem fragments_moveSuccessors (g : Graph) (a b : NodeId) :
    (g.moveSuccessors a b).fragments = g.fragments := by
  unfold moveSuccessors
  rw [foldl_keeps (·.fragments) (fun g t => by rfl), fragments_modifyNode]

theorem bare_moveSuccessors (g : Graph) (a b i : NodeId) :
    ((g.moveSuccessors a b).node i).bare = (g.node i).bare :=
  (foldl_keeps (fun g => (g.node i).bare) (fun g t => (bare_setSuccs _ b i (· ++ [t])).trans
    (bare_setPreds g t i (·.replace a b))) _ _).trans (bare_setSuccs g a i fun _ => [])

theorem Sound.edges_moveSuccessors {g : Graph} (h : g.Sound) {a b : NodeId} (hab : a ≠ b)
    (hb : b < g.nodes.size) (x y : NodeId) :
    ((g.moveSuccessors a b).node x).succs =
        (if x = a then [] else (g.node x).succs) ++ (if x = b then (g.node a).succs else []) ∧
      ((g.moveSuccessors a b).node y).preds.count x =
        if x = a then 0
        else if x = b then (g.node y).preds.count x + (g.node a).succs.count y
        else (g.node y).preds.count x := by
  have hp : ∀ y, ((g.modifyNode a fun x => { x with succs := [] }).node y).preds =
      (g.node y).preds := fun y => preds_setSuccs g a y fun _ => []
  have hs : ((g.modifyNode a fun x => { x with succs := [] }).node x).succs =
      if x = a then [] else (g.node x).succs := by
    rw [node_modifyNode]
    by_cases hx : x = a
    · subst hx
      by_cases hlt : x < g.nodes.size
      · simp [hlt]
      · simp [hlt, node_of_size_le (Nat.le_of_not_lt hlt), default]
    · simp [hx]
  obtain ⟨h₁, h₂⟩ := foldl_handOver hab (g.node a).succs
    (g.modifyNode a fun x => { x with succs := [] }) (by simpa using hb)
    (fun t => Nat.le_of_eq (by rw [hp, h.dual])) x y
  refine ⟨by rw [← hs]; exact h₁, h₂.trans ?_⟩
  rw [hp, h.dual a y]
  split
  · rename_i hx; subst hx; exact Nat.sub_self _
  · rfl

theorem Sound.moveSuccessors {g : Graph} (h : g.Sound) {a b : NodeId} (hab : a ≠ b)
    (hb : b < g.nodes.size) (hnew : (g.node b).succs = []) : (g.moveSuccessors a b).Sound := by
  refine h.reroute (size_moveSuccessors ..) (blocks_moveSuccessors ..) (bare_moveSuccessors g a b)
    fun x y => ?_
  obtain ⟨h₁, h₂⟩ := h.edges_moveSuccessors hab hb x y
  have hby : (g.node y).preds.count b = 0 := by rw [← h.dual, hnew]; rfl
  rw [h₁, h₂, List.count_append]
  by_cases hxa : x = a
  · simp [hxa, hab]
  · by_cases hxb : x = b
    · subst hxb; simp [hxa, hby, hnew]
    · simp [hxa, hxb, h.dual]

/-- Listing a block under a fragment changes no more than that fragment's list. -/
theorem node_insertInFragment (g : Graph) (old new : NodeId) (fs : List NodeId) (i : NodeId) :
    (g.insertInFragment old new fs).node i = g.node i ∨
      ∃ entry argc blocks, (g.node i).kind = .fragment entry argc blocks ∧
        (g.insertInFragment old new fs).node i =
          { g.node i with kind := .fragment entry argc (insertAfter old new blocks) } := by
  induction fs with
  | nil => exact .inl rfl
  | cons f fs ih =>
    simp only [insertInFragment]
    split
    · rename_i entry argc blocks hk
      split
      · rw [node_modifyNode]
        split
        · rename_i hi
          rw [hi.1]
          exact .inr ⟨entry, argc, blocks, hk, rfl⟩
        · exact .inl rfl
      · exact ih
    · exact ih

@[simp] theorem size_insertInFragment (g : Graph) (old new : NodeId) (fs : List NodeId) :
    (g.insertInFragment old new fs).nodes.size = g.nodes.size := by
  induction fs with
  | nil => rfl
  | cons f fs ih =>
    simp only [insertInFragment]
    split
    · split
      · exact size_modifyNode ..
      · exact ih
    · exact ih

@[simp] theorem blocks_insertInFragment (g : Graph) (old new : NodeId) (fs : List NodeId) :
    (g.insertInFragment old new fs).blocks = g.blocks := by
  induction fs with
  | nil => rfl
  | cons f fs ih =>
    simp only [insertInFragment]
    split
    · split
      · rfl
      · exact ih
    · exact ih

@[simp] theorem fragments_insertInFragment (g : Graph) (old new : NodeId) (fs : List NodeId) :
    (g.insertInFragment old new fs).fragments = g.fragments := by
  induction fs with
  | nil => rfl
  | cons f fs ih =>
    simp only [insertInFragment]
    split
    · split
      · rfl
      · exact ih
    · exact ih

theorem start_insertInFragment (g : Graph) (old new : NodeId) (fs : List NodeId) (i : NodeId) :
    ((g.insertInFragment old new fs).node i).start = (g.node i).start := by
  rcases node_insertInFragment g old new fs i with he | ⟨_, _, _, _, he⟩ <;> rw [he]

theorem succs_insertInFragment (g : Graph) (old new : NodeId) (fs : List NodeId) (i : NodeId) :
    ((g.insertInFragment old new fs).node i).succs = (g.node i).succs := by
  rcases node_insertInFragment g old new fs i with he | ⟨_, _, _, _, he⟩ <;> rw [he]

theorem children_insertInFragment (g : Graph) (old new : NodeId) (fs : List NodeId) (i : NodeId) :
    ((g.insertInFragment old new fs).node i).children = (g.node i).children := by
  rcases node_insertInFragment g old new fs i with he | ⟨_, _, _, _, he⟩ <;> rw [he]

theorem Sound.insertInFragment {g : Graph} (h : g.Sound) (old new : NodeId) (fs : List NodeId) :
    (g.insertInFragment old new fs).Sound where
  dual a b := by
    have hs : ((g.insertInFragment old new fs).node a).succs = (g.node a).succs := by
      rcases node_insertInFragment g old new fs a with he | ⟨_, _, _, _, he⟩ <;> rw [he]
    have hp : ((g.insertInFragment old new fs).node b).preds = (g.node b).preds := by
      rcases node_insertInFragment g old new fs b with he | ⟨_, _, _, _, he⟩ <;> rw [he]
    rw [hs, hp, h.dual]
  parents n p hp := by
    rw [size_insertInFragment]
    rcases node_insertInFragment g old new fs n with he | ⟨_, _, _, _, he⟩ <;>
      exact h.parents n p (by rw [he] at hp; exact hp)
  children n c hc := by
    rw [size_insertInFragment]
    rcases node_insertInFragment g old new fs n with he | ⟨_, _, _, _, he⟩ <;>
      exact h.children n c (by rw [he] at hc; exact hc)
  blocks b hb := by
    rw [size_insertInFragment]
    rw [blocks_insertInFragment] at hb
    exact h.blocks b hb

theorem mem_insertAfter {old new n : NodeId} {l : List NodeId} (h : n ∈ insertAfter old new l) :
    n = new ∨ n ∈ l := by
  induction l with
  | nil => cases h
  | cons a l ih =>
    simp only [insertAfter] at h
    split at h
    · simp only [List.mem_cons] at h ⊢
      rcases h with rfl | rfl | h
      · exact .inr (.inl rfl)
      · exact .inl rfl
      · exact .inr (.inr h)
    · simp only [List.mem_cons] at h ⊢
      rcases h with rfl | h
      · exact .inr (.inl rfl)
      · exact (ih h).imp_right .inr

theorem lt_size_of_instrs {g : Graph} {n : NodeId} (h : g.instrs n ≠ []) : n < g.nodes.size := by
  by_cases hn : n < g.nodes.size
  · exact hn
  · exact absurd (by rw [instrs, node_of_size_le (Nat.le_of_not_lt hn)]; rfl) h

theorem instrs_ne_nil_of_findIdx? {g : Graph} {n : NodeId} {p : Instr → Bool} {k : Nat}
    (h : (g.instrs n).findIdx? p = some k) : g.instrs n ≠ [] := by
  intro he
  rw [he] at h
  cases h

/-- A block cut in two: the node of the second half, and the first half without its code. -/
def cutBlock (g : Graph) (n : NodeId) (address k : Nat) : Graph :=
  ((g.add (.ofKind (.block ((g.instrs n).drop k)) address (g.node n).stop 0)).mapInstrs n
    (List.take k)).modifyNode n fun x => { x with stop := address }

@[simp] theorem size_cutBlock (g : Graph) (n : NodeId) (address k : Nat) :
    (g.cutBlock n address k).nodes.size = g.nodes.size + 1 := by simp [cutBlock]

/-- A block split in two, before a fragment lists the second half. -/
def halve (g : Graph) (n : NodeId) (address k : Nat) : Graph :=
  let g₁ := ((g.cutBlock n address k).moveSuccessors n g.nodes.size).connect n g.nodes.size
  { g₁ with blocks := insertAfter n g.nodes.size g₁.blocks }

@[simp] theorem blocks_halve (g : Graph) (n : NodeId) (address k : Nat) :
    (g.halve n address k).blocks = insertAfter n g.nodes.size g.blocks := by
  simp only [halve, connect, addPred, addSucc, blocks_modifyNode, blocks_moveSuccessors]
  rfl

@[simp] theorem fragments_halve (g : Graph) (n : NodeId) (address k : Nat) :
    (g.halve n address k).fragments = g.fragments := by
  simp only [halve, connect, addPred, addSucc, fragments_modifyNode, fragments_moveSuccessors]
  rfl

@[simp] theorem size_halve (g : Graph) (n : NodeId) (address k : Nat) :
    (g.halve n address k).nodes.size = g.nodes.size + 1 := by
  simp only [halve, size_connect, size_moveSuccessors, size_cutBlock]

theorem splitBlock_eq {g : Graph} {n : NodeId} {address k : Nat}
    (h : (g.instrs n).findIdx? (fun i => i.address == address) = some (k + 1)) :
    g.splitBlock n address = ((g.halve n address (k + 1)).insertInFragment n g.nodes.size
      g.fragments, some g.nodes.size) := by
  have hsplit : g.splitBlock n address = ((g.halve n address (k + 1)).insertInFragment n
      g.nodes.size (g.halve n address (k + 1)).fragments, some g.nodes.size) := by
    simp only [splitBlock, h, halve]
    rfl
  rw [hsplit, fragments_halve]

/-- A split changes nothing, or cuts a block that is found before the given address. -/
theorem splitBlock_cases (g : Graph) (n : NodeId) (address : Nat) :
    (g.splitBlock n address).1 = g ∨
      ∃ k, (g.instrs n).findIdx? (fun i => i.address == address) = some (k + 1) := by
  unfold splitBlock
  split
  · exact .inl rfl
  · exact .inl rfl
  · rename_i k hk; exact .inr ⟨k, hk⟩

namespace Sound

variable {g : Graph}

theorem cutBlock (h : g.Sound) (n : NodeId) (address k : Nat) :
    (g.cutBlock n address k).Sound := by
  have hs := (h.add (x := .ofKind (.block ((g.instrs n).drop k)) address (g.node n).stop 0) rfl rfl
    rfl (by simp [Node.ofKind])).mapInstrs n (List.take k)
  exact hs.modifyNode rfl rfl (fun p hp => hs.parents n p hp) fun c hc => hs.children n c hc

theorem setBlocks (h : g.Sound) {bs : List NodeId} (hbs : ∀ b ∈ bs, b < g.nodes.size) :
    ({ g with blocks := bs } : Graph).Sound := ⟨h.dual, h.parents, h.children, hbs⟩

theorem splitBlock (h : g.Sound) (n : NodeId) (address : Nat) :
    (g.splitBlock n address).1.Sound := by
  rcases splitBlock_cases g n address with he | ⟨k, hk⟩
  · rw [he]; exact h
  · have hn : n < g.nodes.size := lt_size_of_instrs (instrs_ne_nil_of_findIdx? hk)
    rw [splitBlock_eq hk]
    have hc := h.cutBlock n address (k + 1)
    have hsecond : ((g.cutBlock n address (k + 1)).node g.nodes.size).succs = [] := by
      have hne : ¬ g.nodes.size = n := Nat.ne_of_gt hn
      rw [Graph.cutBlock, node_modifyNode, Graph.mapInstrs, node_modifyNode, node_add]
      simp [hne, Node.ofKind]
    have hm := hc.moveSuccessors (Nat.ne_of_lt hn) (by simp) hsecond
    have he := hm.connect (a := n) (b := g.nodes.size) (by simpa using Nat.lt_succ_of_lt hn)
      (by simp)
    have hhalve : (g.halve n address (k + 1)).Sound := by
      refine he.setBlocks fun b hb => ?_
      rcases mem_insertAfter hb with rfl | hb
      · simp
      · exact he.blocks b hb
    exact hhalve.insertInFragment ..

end Sound

/-! ## The two halves -/

section

variable {g : Graph}

theorem gist_setBlocks (g : Graph) (bs : List NodeId) (i : NodeId) :
    ({ g with blocks := bs } : Graph).gist i = g.gist i := rfl

theorem gist_halve (g : Graph) (n : NodeId) (address k : Nat) (i : NodeId) :
    (g.halve n address k).gist i = (g.cutBlock n address k).gist i := by
  rw [halve, gist_setBlocks, gist_connect, gist_of_bare (bare_moveSuccessors ..)]

theorem gist_cutBlock_of_ne {n i : NodeId} (address k : Nat) (hi : i < g.nodes.size) (hne : i ≠ n) :
    (g.cutBlock n address k).gist i = g.gist i := by
  simp only [gist, cutBlock, Graph.mapInstrs, node_modifyNode, node_add]
  simp [hne, Nat.ne_of_lt hi]

theorem gist_cutBlock_self {n : NodeId} (address k : Nat) (hn : n < g.nodes.size)
    (hb : (g.gist n).isBlock = true) : (g.cutBlock n address k).gist n =
      { g.gist n with stop := address, kind := .block ((g.instrs n).take k) } := by
  have hk : (g.node n).kind = .block (g.instrs n) := by
    unfold gist Node.isBlock at hb
    split at hb
    · rename_i is hk; rw [instrs, Node.instrs, hk]
    · cases hb
  simp only [gist, cutBlock, Graph.mapInstrs, node_modifyNode, node_add]
  simp [Nat.ne_of_lt hn, Nat.lt_succ_of_lt hn, Node.mapInstrs, hk]

theorem gist_cutBlock_new {n : NodeId} (address k : Nat) (hn : n < g.nodes.size) :
    (g.cutBlock n address k).gist g.nodes.size =
      .ofKind (.block ((g.instrs n).drop k)) address (g.node n).stop 0 := by
  simp only [gist, cutBlock, Graph.mapInstrs, node_modifyNode, node_add]
  simp [Nat.ne_of_gt hn, Node.ofKind]

theorem node_setBlocks (g : Graph) (bs : List NodeId) (i : NodeId) :
    ({ g with blocks := bs } : Graph).node i = g.node i := rfl

theorem children_halve (g : Graph) (n : NodeId) (address k : Nat) (i : NodeId) :
    ((g.halve n address k).node i).children = (g.node i).children := by
  rw [halve, node_setBlocks, Node.children_of_bare (bare_connect ..),
    Node.children_of_bare (bare_moveSuccessors ..)]
  simp only [cutBlock, Graph.mapInstrs, node_modifyNode, node_add]
  have hnew : ∀ x, (if i = g.nodes.size then Node.ofKind (.block x) address (g.node n).stop 0
      else g.node i).children = (g.node i).children := fun x => by
    split
    · rename_i he; rw [he, node_of_size_le (Nat.le_refl _)]; rfl
    · rfl
  split
  · split
    · exact (Node.children_mapInstrs ..).trans (hnew _)
    · exact hnew _
  · split
    · exact (Node.children_mapInstrs ..).trans (hnew _)
    · exact hnew _

/-- Apart from the edge between the halves, a split gives no node an edge it did not have. -/
theorem mem_succs_halve (hs : g.Sound) {n : NodeId} (address k : Nat) (hn : n < g.nodes.size)
    {i c : NodeId} (hi : i ≠ g.nodes.size) (hc : c ≠ g.nodes.size)
    (h : c ∈ ((g.halve n address k).node i).succs) : c ∈ (g.node i).succs := by
  have hcut : ((g.cutBlock n address k).node i).succs = (g.node i).succs := by
    simp only [cutBlock, Graph.mapInstrs, node_modifyNode, node_add, if_neg hi]
    split
    · split
      · exact Node.succs_mapInstrs ..
      · rfl
    · split
      · exact Node.succs_mapInstrs ..
      · rfl
  have hne : ¬ (n = i ∧ g.nodes.size = c) := fun he => hc he.2.symm
  rw [halve, node_setBlocks, ← List.count_pos_iff,
    count_succs_connect _ _ _ _ _ (by simpa using Nat.lt_succ_of_lt hn), if_neg hne, Nat.add_zero,
    List.count_pos_iff, ((hs.cutBlock n address k).edges_moveSuccessors (Nat.ne_of_lt hn) (by simp)
      i c).1, if_neg hi, List.append_nil] at h
  split at h
  · cases h
  · rw [← hcut]; exact h

end

end Graph

end GmlLift
