import GmlLift.Flow.Graph

/-! # Edges counted from both ends

Edges are stored twice, in the successor list of their origin and in the predecessor list of their
target. `Sound` says that the two copies agree as multisets and that every slot a graph mentions is
one it has handed out; each edit of a graph keeps it, provided that the nodes it is given exist. -/
namespace GmlLift

/-- A node without its edges. -/
def Node.bare (n : Node) : Node := { n with preds := [], succs := [] }

theorem Node.children_of_bare {x y : Node} (h : x.bare = y.bare) : x.children = y.children := by
  have hc := congrArg Node.children h
  exact hc

namespace Graph

/-! ## Reading a node after an edit -/

theorem get?_eq_none_of_size_le {g : Graph} {n : NodeId} (h : g.nodes.size ≤ n) :
    g.nodes.get? n = none := Array.getElem?_eq_none h

theorem node_of_size_le {g : Graph} {n : NodeId} (h : g.nodes.size ≤ n) : g.node n = default := by
  simp [node, get?_eq_none_of_size_le h]

theorem node_modifyNode (g : Graph) (n : NodeId) (f : Node → Node) (i : NodeId) :
    (g.modifyNode n f).node i = if i = n ∧ n < g.nodes.size then f (g.node i) else g.node i := by
  unfold modifyNode node
  rw [Slots.get?_modify]
  by_cases hi : i < g.nodes.size
  · obtain ⟨x, hx⟩ : ∃ x, g.nodes.get? i = some x := ⟨_, Array.getElem?_eq_getElem hi⟩
    by_cases hn : i = n
    · subst hn; simp [hx, hi]
    · simp [hn, Ne.symm hn]
  · have hx := get?_eq_none_of_size_le (Nat.le_of_not_lt hi)
    have hne : ¬ (i = n ∧ n < g.nodes.size) := by rintro ⟨rfl, h⟩; exact hi h
    simp [hx, hne]

theorem node_add (g : Graph) (x : Node) (i : NodeId) :
    (g.add x).node i = if i = g.nodes.size then x else g.node i := by
  unfold add node
  rw [Slots.get?_push]
  split <;> rfl

@[simp] theorem size_modifyNode (g : Graph) (n : NodeId) (f : Node → Node) :
    (g.modifyNode n f).nodes.size = g.nodes.size := Slots.size_modify ..

@[simp] theorem size_add (g : Graph) (x : Node) : (g.add x).nodes.size = g.nodes.size + 1 :=
  Slots.size_push ..

@[simp] theorem blocks_modifyNode (g : Graph) (n : NodeId) (f : Node → Node) :
    (g.modifyNode n f).blocks = g.blocks := rfl

@[simp] theorem fragments_modifyNode (g : Graph) (n : NodeId) (f : Node → Node) :
    (g.modifyNode n f).fragments = g.fragments := rfl

@[simp] theorem blocks_add (g : Graph) (x : Node) : (g.add x).blocks = g.blocks := rfl

/-! ## Folds of edits

An edit that works on several nodes is a fold of edits of one node, so whatever each of those keeps
the fold keeps. -/

theorem foldl_keeps {α β : Type} (read : Graph → β) {f : Graph → α → Graph}
    (h : ∀ g a, read (f g a) = read g) (g : Graph) (as : List α) :
    read (as.foldl f g) = read g := by
  induction as generalizing g with
  | nil => rfl
  | cons a as ih => exact (ih (f g a)).trans (h g a)

@[simp] theorem size_addSucc (g : Graph) (a b : NodeId) :
    (g.addSucc a b).nodes.size = g.nodes.size := size_modifyNode ..

@[simp] theorem size_addPred (g : Graph) (a b : NodeId) :
    (g.addPred a b).nodes.size = g.nodes.size := size_modifyNode ..

@[simp] theorem size_eraseSucc (g : Graph) (a b : NodeId) :
    (g.eraseSucc a b).nodes.size = g.nodes.size := size_modifyNode ..

@[simp] theorem size_erasePred (g : Graph) (a b : NodeId) :
    (g.erasePred a b).nodes.size = g.nodes.size := size_modifyNode ..

@[simp] theorem size_connect (g : Graph) (a b : NodeId) :
    (g.connect a b).nodes.size = g.nodes.size := by simp [connect]

@[simp] theorem size_disconnect (g : Graph) (a b : NodeId) :
    (g.disconnect a b).nodes.size = g.nodes.size := by simp [disconnect]

@[simp] theorem size_disconnectSuccessors (g : Graph) (n : NodeId) :
    (g.disconnectSuccessors n).nodes.size = g.nodes.size := by
  unfold disconnectSuccessors
  rw [foldl_keeps (·.nodes.size) (fun g t => size_erasePred g t n), size_modifyNode]

@[simp] theorem size_replaceSuccessor (g : Graph) (n old new : NodeId) :
    (g.replaceSuccessor n old new).nodes.size = g.nodes.size := by
  unfold replaceSuccessor
  split <;> simp

@[simp] theorem size_redirectPredecessors (g : Graph) (old new : NodeId) (p : Node → Bool) :
    (g.redirectPredecessors old new p).nodes.size = g.nodes.size :=
  foldl_keeps (·.nodes.size) (fun g a => size_replaceSuccessor g a old new) _ _

@[simp] theorem size_disconnectPredecessors (g : Graph) (n : NodeId) (p : Node → Bool) :
    (g.disconnectPredecessors n p).nodes.size = g.nodes.size :=
  foldl_keeps (·.nodes.size) (fun g a => size_disconnect g a n) _ _

/-! ## Edges -/

section

variable (g : Graph) (a b x y : NodeId)

theorem succs_addPred : ((g.addPred a b).node x).succs = (g.node x).succs := by
  rw [addPred, node_modifyNode]; split <;> rfl

theorem preds_addSucc : ((g.addSucc a b).node x).preds = (g.node x).preds := by
  rw [addSucc, node_modifyNode]; split <;> rfl

theorem succs_erasePred : ((g.erasePred a b).node x).succs = (g.node x).succs := by
  rw [erasePred, node_modifyNode]; split <;> rfl

theorem preds_eraseSucc : ((g.eraseSucc a b).node x).preds = (g.node x).preds := by
  rw [eraseSucc, node_modifyNode]; split <;> rfl

theorem count_succs_addSucc (ha : a < g.nodes.size) :
    ((g.addSucc a b).node x).succs.count y =
      (g.node x).succs.count y + if a = x ∧ b = y then 1 else 0 := by
  rw [addSucc, node_modifyNode]
  by_cases hx : a = x
  · subst hx
    simp [ha, List.count_append, List.count_singleton]
  · simp [hx, Ne.symm hx]

theorem count_preds_addPred (hb : b < g.nodes.size) :
    ((g.addPred b a).node y).preds.count x =
      (g.node y).preds.count x + if a = x ∧ b = y then 1 else 0 := by
  rw [addPred, node_modifyNode]
  by_cases hy : b = y
  · subst hy
    simp [hb, List.count_append, List.count_singleton]
  · simp [hy, Ne.symm hy]

theorem count_succs_eraseSucc :
    ((g.eraseSucc a b).node x).succs.count y =
      (g.node x).succs.count y - if a = x ∧ b = y then 1 else 0 := by
  rw [eraseSucc, node_modifyNode]
  by_cases hx : a = x
  · subst hx
    by_cases ha : a < g.nodes.size
    · simp [ha, List.count_erase]
    · simp [ha, node_of_size_le (Nat.le_of_not_lt ha), default]
  · simp [hx, Ne.symm hx]

theorem count_preds_erasePred :
    ((g.erasePred b a).node y).preds.count x =
      (g.node y).preds.count x - if a = x ∧ b = y then 1 else 0 := by
  rw [erasePred, node_modifyNode]
  by_cases hy : b = y
  · subst hy
    by_cases hb : b < g.nodes.size
    · simp [hb, List.count_erase]
    · simp [hb, node_of_size_le (Nat.le_of_not_lt hb), default]
  · simp [hy, Ne.symm hy]

theorem count_succs_connect (ha : a < g.nodes.size) :
    ((g.connect a b).node x).succs.count y =
      (g.node x).succs.count y + if a = x ∧ b = y then 1 else 0 := by
  rw [connect, succs_addPred, count_succs_addSucc _ _ _ _ _ ha]

theorem count_preds_connect (hb : b < g.nodes.size) :
    ((g.connect a b).node y).preds.count x =
      (g.node y).preds.count x + if a = x ∧ b = y then 1 else 0 := by
  rw [connect, count_preds_addPred _ _ _ _ _ (by simpa using hb), preds_addSucc]

theorem count_succs_disconnect :
    ((g.disconnect a b).node x).succs.count y =
      (g.node x).succs.count y - if a = x ∧ b = y then 1 else 0 := by
  rw [disconnect, succs_erasePred, count_succs_eraseSucc]

theorem count_preds_disconnect :
    ((g.disconnect a b).node y).preds.count x =
      (g.node y).preds.count x - if a = x ∧ b = y then 1 else 0 := by
  rw [disconnect, count_preds_erasePred, preds_eraseSucc]

end

theorem succs_foldl_erasePred (ts : List NodeId) (g : Graph) (n x : NodeId) :
    ((ts.foldl (fun g t => g.erasePred t n) g).node x).succs = (g.node x).succs :=
  foldl_keeps (fun g => (g.node x).succs) (fun g t => succs_erasePred g t n x) g ts

theorem count_preds_foldl_erasePred (ts : List NodeId) (g : Graph) (n x y : NodeId) :
    ((ts.foldl (fun g t => g.erasePred t n) g).node y).preds.count x =
      (g.node y).preds.count x - if n = x then ts.count y else 0 := by
  induction ts generalizing g with
  | nil => simp
  | cons t ts ih =>
    rw [List.foldl_cons, ih, count_preds_erasePred, List.count_cons]
    by_cases hn : n = x
    · simp only [hn, true_and, if_true, beq_iff_eq]; omega
    · simp [hn]

theorem count_succs_disconnectSuccessors (g : Graph) (n x y : NodeId) :
    ((g.disconnectSuccessors n).node x).succs.count y =
      if n = x then 0 else (g.node x).succs.count y := by
  rw [disconnectSuccessors, succs_foldl_erasePred, node_modifyNode]
  by_cases hx : n = x
  · subst hx
    by_cases hn : n < g.nodes.size
    · simp [hn]
    · simp [hn, node_of_size_le (Nat.le_of_not_lt hn), default]
  · simp [hx, Ne.symm hx]

theorem count_preds_disconnectSuccessors (g : Graph) (n x y : NodeId) :
    ((g.disconnectSuccessors n).node y).preds.count x =
      (g.node y).preds.count x - if n = x then (g.node n).succs.count y else 0 := by
  rw [disconnectSuccessors, count_preds_foldl_erasePred]
  congr 2
  rw [node_modifyNode]; split <;> rfl

theorem preds_setSuccs (g : Graph) (n x : NodeId) (f : List NodeId → List NodeId) :
    ((g.modifyNode n fun x => { x with succs := f x.succs }).node x).preds = (g.node x).preds := by
  rw [node_modifyNode]; split <;> rfl

theorem succs_setPreds (g : Graph) (n x : NodeId) (f : List NodeId → List NodeId) :
    ((g.modifyNode n fun x => { x with preds := f x.preds }).node x).succs = (g.node x).succs := by
  rw [node_modifyNode]; split <;> rfl

theorem count_succs_replaceSuccessor (g : Graph) (n old new x y : NodeId) :
    ((g.replaceSuccessor n old new).node x).succs.count y =
      if n = x ∧ old ∈ (g.node n).succs then
        ((g.node x).succs.count y + if new = y then 1 else 0) - if old = y then 1 else 0
      else (g.node x).succs.count y := by
  unfold replaceSuccessor
  by_cases hc : old ∈ (g.node n).succs
  · rw [if_pos (List.contains_iff_mem.mpr hc), succs_addPred, succs_erasePred, node_modifyNode]
    by_cases hx : n = x
    · subst hx
      have hn : n < g.nodes.size := by
        by_cases hn : n < g.nodes.size
        · exact hn
        · rw [node_of_size_le (Nat.le_of_not_lt hn)] at hc; simp [default] at hc
      simp [hn, hc, List.count_replace]
    · simp [hx, Ne.symm hx]
  · simp [hc]

theorem count_preds_replaceSuccessor (g : Graph) (n old new x y : NodeId)
    (hnew : new < g.nodes.size) :
    ((g.replaceSuccessor n old new).node y).preds.count x =
      if n = x ∧ old ∈ (g.node n).succs then
        ((g.node y).preds.count x - if old = y then 1 else 0) + if new = y then 1 else 0
      else (g.node y).preds.count x := by
  unfold replaceSuccessor
  by_cases hc : old ∈ (g.node n).succs
  · rw [if_pos (List.contains_iff_mem.mpr hc), count_preds_addPred _ _ _ _ _ (by simpa using hnew),
      count_preds_erasePred, preds_setSuccs g n y fun l => l.replace old new]
    by_cases hx : n = x
    · subst hx; simp [hc]
    · simp [hx]
  · simp [hc]

/-- Slots and edges of a graph: both copies of the edges agree, and every slot mentioned exists. -/
structure Sound (g : Graph) : Prop where
  dual : ∀ a b, (g.node a).succs.count b = (g.node b).preds.count a
  parents : ∀ n p, (g.node n).parent = some p → p < g.nodes.size
  children : ∀ n c, some c ∈ (g.node n).children → c < g.nodes.size
  blocks : ∀ b ∈ g.blocks, b < g.nodes.size

theorem Sound.lt_of_mem_succs {g : Graph} (h : g.Sound) {a b : NodeId}
    (hm : b ∈ (g.node a).succs) : b < g.nodes.size := by
  by_cases hb : b < g.nodes.size
  · exact hb
  · have hd := h.dual a b
    rw [node_of_size_le (Nat.le_of_not_lt hb)] at hd
    exact absurd (List.count_pos_iff.mpr hm) (by rw [hd]; simp [default])

theorem Sound.lt_of_mem_preds {g : Graph} (h : g.Sound) {a b : NodeId}
    (hm : a ∈ (g.node b).preds) : a < g.nodes.size := by
  by_cases ha : a < g.nodes.size
  · exact ha
  · have hd := h.dual a b
    rw [node_of_size_le (Nat.le_of_not_lt ha)] at hd
    exact absurd (List.count_pos_iff.mpr hm) (by rw [← hd]; simp [default])

/-! ## Edits of edges keep the rest of every node -/

theorem bare_setSuccs (g : Graph) (n i : NodeId) (f : List NodeId → List NodeId) :
    ((g.modifyNode n fun x => { x with succs := f x.succs }).node i).bare = (g.node i).bare := by
  rw [node_modifyNode]; split <;> rfl

theorem bare_setPreds (g : Graph) (n i : NodeId) (f : List NodeId → List NodeId) :
    ((g.modifyNode n fun x => { x with preds := f x.preds }).node i).bare = (g.node i).bare := by
  rw [node_modifyNode]; split <;> rfl

theorem bare_connect (g : Graph) (a b i : NodeId) :
    ((g.connect a b).node i).bare = (g.node i).bare :=
  (bare_setPreds (g.addSucc a b) b i (· ++ [a])).trans (bare_setSuccs g a i (· ++ [b]))

theorem bare_disconnect (g : Graph) (a b i : NodeId) :
    ((g.disconnect a b).node i).bare = (g.node i).bare :=
  (bare_setPreds (g.eraseSucc a b) b i (·.erase a)).trans (bare_setSuccs g a i (·.erase b))

theorem bare_disconnectSuccessors (g : Graph) (n i : NodeId) :
    ((g.disconnectSuccessors n).node i).bare = (g.node i).bare :=
  (foldl_keeps (fun g => (g.node i).bare) (fun g t => bare_setPreds g t i (·.erase n)) _ _).trans
    (bare_setSuccs g n i fun _ => [])

theorem bare_replaceSuccessor (g : Graph) (n old new i : NodeId) :
    ((g.replaceSuccessor n old new).node i).bare = (g.node i).bare := by
  unfold replaceSuccessor
  split
  · exact (bare_setPreds _ new i (· ++ [n])).trans
      ((bare_setPreds _ old i (·.erase n)).trans (bare_setSuccs g n i (·.replace old new)))
  · rfl

theorem blocks_disconnectSuccessors (g : Graph) (n : NodeId) :
    (g.disconnectSuccessors n).blocks = g.blocks :=
  foldl_keeps (·.blocks) (fun g t => blocks_modifyNode g t _) _ _

theorem fragments_replaceSuccessor (g : Graph) (n old new : NodeId) :
    (g.replaceSuccessor n old new).fragments = g.fragments := by
  unfold replaceSuccessor
  split <;> rfl

theorem fragments_disconnectSuccessors (g : Graph) (n : NodeId) :
    (g.disconnectSuccessors n).fragments = g.fragments :=
  foldl_keeps (·.fragments) (fun g t => fragments_modifyNode g t _) _ _

theorem blocks_replaceSuccessor (g : Graph) (n old new : NodeId) :
    (g.replaceSuccessor n old new).blocks = g.blocks := by
  unfold replaceSuccessor
  split <;> rfl

namespace Sound

variable {g g' : Graph}

/-- An edit of edges alone keeps a graph sound as soon as it keeps both copies in step. -/
theorem reroute (h : g.Sound) (size : g'.nodes.size = g.nodes.size) (blocks : g'.blocks = g.blocks)
    (bare : ∀ i, (g'.node i).bare = (g.node i).bare)
    (dual : ∀ a b, (g'.node a).succs.count b = (g'.node b).preds.count a) : g'.Sound where
  dual := dual
  parents n p hp := by
    rw [size]
    exact h.parents n p ((congrArg Node.parent (bare n)).symm.trans hp)
  children n c hc := by
    rw [size]
    have hb : (g'.node n).bare.children = (g.node n).bare.children := congrArg _ (bare n)
    exact h.children n c (hb ▸ hc)
  blocks b hb := by
    rw [size]
    exact h.blocks b (blocks ▸ hb)

theorem connect (h : g.Sound) {a b : NodeId} (ha : a < g.nodes.size) (hb : b < g.nodes.size) :
    (g.connect a b).Sound := by
  refine h.reroute (size_connect ..) rfl (bare_connect g a b) fun x y => ?_
  rw [count_succs_connect g a b x y ha, count_preds_connect g a b x y hb, h.dual]

theorem disconnect (h : g.Sound) (a b : NodeId) : (g.disconnect a b).Sound := by
  refine h.reroute (size_disconnect ..) rfl (bare_disconnect g a b) fun x y => ?_
  rw [count_succs_disconnect, count_preds_disconnect, h.dual]

theorem disconnectSuccessors (h : g.Sound) (n : NodeId) : (g.disconnectSuccessors n).Sound := by
  refine h.reroute (size_disconnectSuccessors ..) (blocks_disconnectSuccessors ..)
    (bare_disconnectSuccessors g n) fun x y => ?_
  rw [count_succs_disconnectSuccessors, count_preds_disconnectSuccessors, h.dual]
  by_cases hx : n = x
  · simp [hx, h.dual]
  · simp [hx]

theorem replaceSuccessor (h : g.Sound) (n old : NodeId) {new : NodeId}
    (hnew : new < g.nodes.size) : (g.replaceSuccessor n old new).Sound := by
  refine h.reroute (size_replaceSuccessor ..) (blocks_replaceSuccessor ..)
    (bare_replaceSuccessor g n old new) fun x y => ?_
  rw [count_succs_replaceSuccessor, count_preds_replaceSuccessor g n old new x y hnew, h.dual]
  split
  · rename_i hc
    have hpos : 0 < (g.node old).preds.count x := by
      rw [← h.dual, ← hc.1]; exact List.count_pos_iff.mpr hc.2
    by_cases hy : old = y
    · subst hy; simp only [if_true]; omega
    · simp [hy]
  · rfl

theorem redirectPredecessors (h : g.Sound) (old : NodeId) {new : NodeId}
    (hnew : new < g.nodes.size) (p : Node → Bool) : (g.redirectPredecessors old new p).Sound := by
  have aux : ∀ (as : List NodeId) (g : Graph), g.Sound → new < g.nodes.size →
      (as.foldl (fun g a => g.replaceSuccessor a old new) g).Sound := by
    intro as
    induction as with
    | nil => intro g hg _; exact hg
    | cons a as ih =>
      intro g hg hn
      exact ih _ (hg.replaceSuccessor a old hn) (by simpa using hn)
  exact aux _ g h hnew

theorem disconnectPredecessors (h : g.Sound) (n : NodeId) (p : Node → Bool) :
    (g.disconnectPredecessors n p).Sound := by
  have aux : ∀ (as : List NodeId) (g : Graph), g.Sound →
      (as.foldl (fun g a => g.disconnect a n) g).Sound := by
    intro as
    induction as with
    | nil => intro g hg; exact hg
    | cons a as ih => intro g hg; exact ih _ (hg.disconnect a n)
  exact aux _ g h

/-- A change of one node that keeps its edges and mentions existing nodes only. -/
theorem modifyNode (h : g.Sound) {n : NodeId} {f : Node → Node}
    (succs : (f (g.node n)).succs = (g.node n).succs)
    (preds : (f (g.node n)).preds = (g.node n).preds)
    (parent : ∀ p, (f (g.node n)).parent = some p → p < g.nodes.size)
    (children : ∀ c, some c ∈ (f (g.node n)).children → c < g.nodes.size) :
    (g.modifyNode n f).Sound where
  dual a b := by
    have hs : ((g.modifyNode n f).node a).succs = (g.node a).succs := by
      rw [node_modifyNode]
      split
      · rename_i ha; rw [ha.1]; exact succs
      · rfl
    have hp : ((g.modifyNode n f).node b).preds = (g.node b).preds := by
      rw [node_modifyNode]
      split
      · rename_i hb; rw [hb.1]; exact preds
      · rfl
    rw [hs, hp, h.dual]
  parents i p hp := by
    rw [node_modifyNode] at hp
    rw [size_modifyNode]
    split at hp
    · rename_i hi; exact parent p (hi.1 ▸ hp)
    · exact h.parents i p hp
  children i c hc := by
    rw [node_modifyNode] at hc
    rw [size_modifyNode]
    split at hc
    · rename_i hi; exact children c (hi.1 ▸ hc)
    · exact h.children i c hc
  blocks b hb := by rw [size_modifyNode]; exact h.blocks b hb

/-- A new node without edges, parent and children. -/
theorem add (h : g.Sound) {x : Node} (succs : x.succs = []) (preds : x.preds = [])
    (parent : x.parent = none) (children : ∀ c ∈ x.children, c = none) : (g.add x).Sound where
  dual a b := by
    have old := h.dual a b
    simp only [node_add]
    by_cases ha : a = g.nodes.size
    · have hd : g.node a = default := node_of_size_le (Nat.le_of_eq ha.symm)
      rw [hd] at old
      simp only [ha, if_true, succs, List.count_nil]
      split
      · simp [preds]
      · rw [← ha, ← old]; simp [default]
    · by_cases hb : b = g.nodes.size
      · have hd : g.node b = default := node_of_size_le (Nat.le_of_eq hb.symm)
        rw [hd] at old
        simp only [ha, hb, if_true, if_false, preds, List.count_nil]
        rw [← hb, old]; simp [default]
      · simpa [ha, hb] using old
  parents i p hp := by
    rw [node_add] at hp
    rw [size_add]
    split at hp
    · rw [parent] at hp; cases hp
    · exact Nat.lt_succ_of_lt (h.parents i p hp)
  children i c hc := by
    rw [node_add] at hc
    rw [size_add]
    split at hc
    · cases children _ hc
    · exact Nat.lt_succ_of_lt (h.children i c hc)
  blocks b hb := by rw [size_add]; exact Nat.lt_succ_of_lt (h.blocks b hb)

end Sound

/-! ## Place and kind of a node

Neither edges nor parents and slots tell where a node stands or what it is. -/

section

variable (g : Graph) (i : NodeId)

/-- A node without its edges, parent and slots: where it stands and what it is. -/
def gist (g : Graph) (i : NodeId) : Node :=
  { g.node i with preds := [], succs := [], parent := none, children := [] }

theorem gist_of_bare {g g' : Graph} {i : NodeId} (h : (g'.node i).bare = (g.node i).bare) :
    g'.gist i = g.gist i :=
  congrArg (fun x : Node => { x with parent := none, children := [] }) h

theorem gist_start : (g.gist i).start = (g.node i).start := rfl

theorem gist_stop : (g.gist i).stop = (g.node i).stop := rfl

theorem gist_kind : (g.gist i).kind = (g.node i).kind := rfl

@[simp] theorem gist_connect (a b : NodeId) : (g.connect a b).gist i = g.gist i :=
  gist_of_bare (bare_connect g a b i)

@[simp] theorem gist_disconnect (a b : NodeId) : (g.disconnect a b).gist i = g.gist i :=
  gist_of_bare (bare_disconnect g a b i)

@[simp] theorem gist_disconnectSuccessors (n : NodeId) :
    (g.disconnectSuccessors n).gist i = g.gist i :=
  gist_of_bare (bare_disconnectSuccessors g n i)

@[simp] theorem gist_replaceSuccessor (n old new : NodeId) :
    (g.replaceSuccessor n old new).gist i = g.gist i :=
  gist_of_bare (bare_replaceSuccessor g n old new i)

@[simp] theorem gist_redirectPredecessors (old new : NodeId) (p : Node → Bool) :
    (g.redirectPredecessors old new p).gist i = g.gist i :=
  foldl_keeps (·.gist i) (fun g a => gist_replaceSuccessor g i a old new) _ _

@[simp] theorem gist_disconnectPredecessors (n : NodeId) (p : Node → Bool) :
    (g.disconnectPredecessors n p).gist i = g.gist i :=
  foldl_keeps (·.gist i) (fun g a => gist_disconnect g i a n) _ _

@[simp] theorem gist_setParent (n : NodeId) (parent : Option NodeId) :
    (g.setParent n parent).gist i = g.gist i := by
  unfold gist setParent; rw [node_modifyNode]; split <;> rfl

theorem gist_mapChildren (n : NodeId) (f : List (Option NodeId) → List (Option NodeId)) :
    (g.modifyNode n fun x => { x with children := f x.children }).gist i = g.gist i := by
  unfold gist; rw [node_modifyNode]; split <;> rfl

@[simp] theorem gist_writeSlot (n : NodeId) (slot : Nat) (child : Option NodeId) :
    (g.writeSlot n slot child).gist i = g.gist i := by
  unfold gist writeSlot; rw [node_modifyNode]; split <;> rfl

@[simp] theorem gist_setChild (n : NodeId) (slot : Nat) (child : Option NodeId) :
    (g.setChild n slot child).gist i = g.gist i := by
  unfold setChild; cases child <;> simp

@[simp] theorem gist_replaceInParent (old new : NodeId) :
    (g.replaceInParent old new).gist i = g.gist i := by
  unfold replaceInParent
  generalize (g.node old).parent = parent
  cases parent with
  | none => simp
  | some p =>
    simp only [gist_setParent]
    refine Eq.trans ?_ (gist_setParent g i new (some p))
    unfold gist; rw [node_modifyNode]; split <;> rfl

@[simp] theorem gist_add (x : Node) : (g.add x).gist g.nodes.size =
    { x with preds := [], succs := [], parent := none, children := [] } := by
  unfold gist; rw [node_add, if_pos rfl]

theorem gist_add_of_lt {i : NodeId} (x : Node) (h : i < g.nodes.size) :
    (g.add x).gist i = g.gist i := by
  unfold gist; rw [node_add, if_neg (Nat.ne_of_lt h)]

@[simp] theorem succs_setParent (n : NodeId) (parent : Option NodeId) :
    ((g.setParent n parent).node i).succs = (g.node i).succs := by
  rw [setParent, node_modifyNode]; split <;> rfl

@[simp] theorem succs_writeSlot (n : NodeId) (slot : Nat) (child : Option NodeId) :
    ((g.writeSlot n slot child).node i).succs = (g.node i).succs := by
  rw [writeSlot, node_modifyNode]; split <;> rfl

@[simp] theorem succs_setChild (n : NodeId) (slot : Nat) (child : Option NodeId) :
    ((g.setChild n slot child).node i).succs = (g.node i).succs := by
  unfold setChild; cases child <;> simp

@[simp] theorem succs_replaceInParent (old new : NodeId) :
    ((g.replaceInParent old new).node i).succs = (g.node i).succs := by
  unfold replaceInParent
  generalize (g.node old).parent = parent
  cases parent with
  | none => simp
  | some p =>
    simp only [succs_setParent]
    refine Eq.trans ?_ (succs_setParent g i new (some p))
    rw [node_modifyNode]; split <;> rfl

theorem succs_connect_of_ne {a b : NodeId} (h : i ≠ a) :
    ((g.connect a b).node i).succs = (g.node i).succs := by
  rw [connect, succs_addPred, addSucc, node_modifyNode]
  simp [h]

end

theorem count_succs_foldl_replaceSuccessor {old new : NodeId} (hne : old ≠ new) (as : List NodeId)
    (g : Graph) (x : NodeId) :
    ((as.foldl (fun g a => g.replaceSuccessor a old new) g).node x).succs.count old =
      (g.node x).succs.count old - as.count x := by
  induction as generalizing g with
  | nil => rfl
  | cons a as ih =>
    rw [List.foldl_cons, ih, count_succs_replaceSuccessor, List.count_cons]
    by_cases ha : a = x
    · subst ha
      by_cases hm : old ∈ (g.node a).succs
      · simp only [hm, Ne.symm hne, and_self, if_true, if_false, beq_self_eq_true]; omega
      · simp [hm, List.count_eq_zero_of_not_mem hm]
    · simp [ha]

/-- Where predecessors were redirected, no origin that was to be redirected still leads to the old
target. -/
theorem Sound.not_mem_succs_redirectPredecessors {g : Graph} (h : g.Sound) {old new x : NodeId}
    (hne : old ≠ new) {p : Node → Bool} (hp : p (g.node x) = true) :
    old ∉ ((g.redirectPredecessors old new p).node x).succs := by
  rw [← List.count_eq_zero, Graph.redirectPredecessors, count_succs_foldl_replaceSuccessor hne,
    List.count_filter (p := fun a => p (g.node a)) hp, h.dual, Nat.sub_self]

/-! ## Slots and code -/

@[simp] theorem size_mapInstrs (g : Graph) (n : NodeId) (f : List Instr → List Instr) :
    (g.mapInstrs n f).nodes.size = g.nodes.size := size_modifyNode ..

theorem Node.succs_mapInstrs (f : List Instr → List Instr) (n : Node) :
    (n.mapInstrs f).succs = n.succs := by
  unfold Node.mapInstrs; split <;> rfl

theorem Node.preds_mapInstrs (f : List Instr → List Instr) (n : Node) :
    (n.mapInstrs f).preds = n.preds := by
  unfold Node.mapInstrs; split <;> rfl

theorem Node.parent_mapInstrs (f : List Instr → List Instr) (n : Node) :
    (n.mapInstrs f).parent = n.parent := by
  unfold Node.mapInstrs; split <;> rfl

theorem Node.children_mapInstrs (f : List Instr → List Instr) (n : Node) :
    (n.mapInstrs f).children = n.children := by
  unfold Node.mapInstrs; split <;> rfl

namespace Sound

variable {g : Graph}

theorem mapInstrs (h : g.Sound) (n : NodeId) (f : List Instr → List Instr) :
    (g.mapInstrs n f).Sound :=
  h.modifyNode (Node.succs_mapInstrs f _) (Node.preds_mapInstrs f _)
    (fun p hp => h.parents n p (Node.parent_mapInstrs f _ ▸ hp))
    (fun c hc => h.children n c (Node.children_mapInstrs f _ ▸ hc))

theorem setParent (h : g.Sound) (n : NodeId) {parent : Option NodeId}
    (hp : ∀ p, parent = some p → p < g.nodes.size) : (g.setParent n parent).Sound :=
  h.modifyNode rfl rfl hp fun c hc => h.children n c hc

theorem writeSlot (h : g.Sound) (n : NodeId) (slot : Nat) {child : Option NodeId}
    (hc : ∀ c, child = some c → c < g.nodes.size) : (g.writeSlot n slot child).Sound := by
  refine h.modifyNode rfl rfl (fun p hp => h.parents n p hp) fun c hm => ?_
  rcases List.mem_or_eq_of_mem_set hm with hm | he
  · rcases List.mem_append.mp hm with hm | hm
    · exact h.children n c hm
    · exact absurd (List.eq_of_mem_replicate hm) (by simp)
  · exact hc c he.symm

theorem swapChild (h : g.Sound) (p old : NodeId) {new : NodeId} (hn : new < g.nodes.size) :
    (g.modifyNode p fun x => { x with
      children := x.children.map fun c => if c == some old then some new else c }).Sound := by
  refine h.modifyNode rfl rfl (fun q hq => h.parents p q hq) fun c hm => ?_
  obtain ⟨d, hd, he⟩ := List.mem_map.mp hm
  split at he
  · cases he; exact hn
  · exact h.children p c (he ▸ hd)

theorem setChild (h : g.Sound) {n : NodeId} (hn : n < g.nodes.size) (slot : Nat)
    {child : Option NodeId} (hc : ∀ c, child = some c → c < g.nodes.size) :
    (g.setChild n slot child).Sound := by
  have hw := h.writeSlot n slot hc
  cases child with
  | none => exact hw
  | some c => exact hw.setParent c fun p hp => by cases hp; exact (size_modifyNode ..).symm ▸ hn

theorem replaceInParent (h : g.Sound) (old : NodeId) {new : NodeId} (hn : new < g.nodes.size) :
    (g.replaceInParent old new).Sound := by
  unfold Graph.replaceInParent
  generalize hq : (g.node old).parent = parent
  have h₁ := h.setParent new fun p hp => h.parents old p (hq.trans hp)
  have hn₁ : new < (g.setParent new parent).nodes.size := by simpa [Graph.setParent] using hn
  cases parent with
  | none => exact h₁.setParent old fun p hp => by cases hp; exact hn₁
  | some q =>
    exact (h₁.swapChild q old hn₁).setParent old fun p hp => by cases hp; simpa using hn₁

end Sound

end Graph

end GmlLift
