import GmlLift.Proofs.Flow.Split

/-! # What a pass may do to a graph

A pass adds composites and hangs existing nodes under them. `Edited` lists the single edits such a
pass is made of, together with the conditions under which passes make them: edges and slots are only
added with a new node on one side, the code of a block only shrinks, and a block is only ever cut in
two. An invariant of passes is one case per edit. -/
namespace GmlLift

/-- The composites that stand for the block they start with. -/
def Node.isGate (n : Node) : Bool := match n.kind with
  | .loop _ | .shortCircuit _ => true
  | _ => false

/-- The passes by what they look for. -/
inductive Craft where
  | fragments
  | staticInits
  | nullish
  | loops
  | shortCircuits
  | tryCatch
  | switches
  | branches
deriving DecidableEq

/-- The kinds of node that a pass makes. The only blocks come from splitting one where a switch
ends. -/
def Craft.makes : Craft → NodeKind → Bool
  | fragments, .fragment .. => true
  | staticInits, .staticInit => true
  | nullish, .nullish => true
  | loops, .loop _ | loops, .empty => true
  | shortCircuits, .shortCircuit _ => true
  | tryCatch, .tryCatch _ => true
  | switches, .switch _ | switches, .switchCase _ | switches, .breakJump => true
  | switches, .block _ => true
  | branches, .branch | branches, .breakJump | branches, .continueJump | branches, .empty => true
  | _, _ => false

/-- How the kind of an existing node may change: code shrinks, with conditionals facts about a loop are
filled in, and while fragments are carved their lists grow. -/
inductive KindStep (craft : Craft) : NodeKind → NodeKind → Prop
  | same (k : NodeKind) : KindStep craft k k
  | shrink {is is' : List Instr} (h : is'.Sublist is) : KindStep craft (.block is) (.block is')
  | inform (h : craft = .branches) (info info' : LoopInfo) :
    KindStep craft (.loop info) (.loop info')
  | list (h : craft = .fragments) (entry : String) (argc : Nat) (bs bs' : List NodeId) :
    KindStep craft (.fragment entry argc bs) (.fragment entry argc bs')

/-- A node changed in nothing but its parent, its reachability and, by `KindStep`, its kind. -/
structure Patched (craft : Craft) (size : Nat) (x y : Node) : Prop where
  start : y.start = x.start
  stop : y.stop = x.stop
  succs : y.succs = x.succs
  preds : y.preds = x.preds
  children : y.children = x.children
  parent : ∀ p, y.parent = some p → p < size ∨ x.parent = some p
  kind : KindStep craft x.kind y.kind

/-- A patched block is a block with part of the code. -/
theorem Patched.block {craft : Craft} {size : Nat} {x y : Node} (h : Patched craft size x y)
    (hx : x.isBlock = true) : y.isBlock = true ∧ y.instrs.Sublist x.instrs := by
  obtain ⟨is, he⟩ : ∃ is, x.kind = .block is := by
    unfold Node.isBlock at hx
    split at hx
    · exact ⟨_, ‹_›⟩
    · cases hx
  have hk := h.kind
  generalize hy : y.kind = k at hk
  rw [he] at hk
  rw [Node.isBlock, Node.instrs, Node.instrs, he, hy]
  cases hk with
  | same => exact ⟨rfl, .refl _⟩
  | shrink hs => exact ⟨rfl, hs⟩

/-- A patched fragment lists what it did, unless fragments are being carved. -/
theorem Patched.fragment {craft : Craft} {size : Nat} {x y : Node} (h : Patched craft size x y)
    (hc : craft ≠ .fragments) (hx : x.isFragment = true) : y.kind = x.kind := by
  have hk := h.kind
  unfold Node.isFragment at hx
  split at hx
  · rename_i he
    rw [he] at hk ⊢
    generalize y.kind = k at hk ⊢
    cases hk with
    | same => rfl
    | list hcraft => exact absurd hcraft hc
  · cases hx

/-- The kinds of node that a pass adds other than by splitting. No `continue` of a new loop is known
to jump to its step. -/
def NodeKind.addable (craft : Craft) : NodeKind → Bool
  | .block _ => false
  | .loop info => craft.makes (.loop info) && !info.continuesToStep
  | kind => craft.makes kind

/-- The graphs that a pass can make of `base`, edit by edit. -/
inductive Edited (craft : Craft) (base : Graph) : Graph → Prop
  | refl : Edited craft base base
  | patch {g : Graph} (h : Edited craft base g) {n : NodeId} {f : Node → Node}
      (hf : Patched craft g.nodes.size (g.node n) (f (g.node n))) :
      Edited craft base (g.modifyNode n f)
  | setLoops {g : Graph} (h : Edited craft base g) (ls : List NodeId)
      (hls : ∀ l ∈ ls, l ∈ g.loops ∨ l < g.nodes.size) : Edited craft base { g with loops := ls }
  | setFragments {g : Graph} (h : Edited craft base g) (hc : craft = .fragments) (fs : List NodeId) :
      Edited craft base { g with fragments := fs }
  | add {g : Graph} (h : Edited craft base g) (kind : NodeKind) (hk : kind.addable craft = true)
      (start stop slots : Nat) : Edited craft base (g.add (.ofKind kind start stop slots))
  | connect {g : Graph} (h : Edited craft base g) (a b : NodeId) (ha : a < g.nodes.size)
      (hb : b < g.nodes.size)
      (hnew : base.nodes.size ≤ a ∨ base.nodes.size ≤ b ∧ (g.gist b).isBlock = false) :
      Edited craft base (g.connect a b)
  | disconnect {g : Graph} (h : Edited craft base g) (a b : NodeId) :
      Edited craft base (g.disconnect a b)
  | disconnectSuccessors {g : Graph} (h : Edited craft base g) (n : NodeId) :
      Edited craft base (g.disconnectSuccessors n)
  | replaceSuccessor {g : Graph} (h : Edited craft base g) (n old : NodeId) {new : NodeId}
      (hn : new < g.nodes.size) (hnew : base.nodes.size ≤ new)
      (hb : (g.gist new).isBlock = false) : Edited craft base (g.replaceSuccessor n old new)
  | writeSlot {g : Graph} (h : Edited craft base g) (n : NodeId) (slot : Nat)
      (child : Option NodeId) (hnew : base.nodes.size ≤ n)
      (hc : ∀ c, child = some c → c < g.nodes.size)
      (hgate : ∀ c, child = some c → slot = 0 → (g.gist n).isGate = true →
        ∀ k < base.nodes.size, (g.gist n).covers (g.gist k).start = false →
          c ∉ (g.node k).succs) :
      Edited craft base (g.writeSlot n slot child)
  | swapChild {g : Graph} (h : Edited craft base g) (p old : NodeId) {new : NodeId}
      (hn : new < g.nodes.size) (hnew : base.nodes.size ≤ new)
      (hb : (g.gist new).isBlock = false) :
      Edited craft base (g.modifyNode p fun x =>
        { x with children := x.children.map fun c => if c == some old then some new else c })
  | splitBlock {g : Graph} (h : Edited craft base g) (hc : craft = .switches) {b : NodeId}
      (hb : b ∈ g.blocks) (address : Nat) : Edited craft base (g.splitBlock b address).1

namespace Graph

@[simp] theorem size_writeSlot (g : Graph) (n : NodeId) (slot : Nat) (child : Option NodeId) :
    (g.writeSlot n slot child).nodes.size = g.nodes.size := size_modifyNode ..

theorem size_le_splitBlock (g : Graph) (n : NodeId) (address : Nat) :
    g.nodes.size ≤ (g.splitBlock n address).1.nodes.size := by
  rcases splitBlock_cases g n address with he | ⟨k, hk⟩
  · exact Nat.le_of_eq (by rw [he])
  · rw [splitBlock_eq hk]
    simp

end Graph

namespace Edited

open GmlLift.Graph

variable {craft : Craft} {base g : Graph}

theorem size_le (h : Edited craft base g) : base.nodes.size ≤ g.nodes.size := by
  induction h with
  | refl => exact Nat.le_refl _
  | patch _ _ ih => simpa using ih
  | setLoops _ _ _ ih => exact ih
  | setFragments _ _ _ ih => exact ih
  | add _ _ _ _ _ _ ih => rw [size_add]; exact Nat.le_succ_of_le ih
  | connect _ _ _ _ _ _ ih => simpa using ih
  | disconnect _ _ _ ih => simpa using ih
  | disconnectSuccessors _ _ ih => simpa using ih
  | replaceSuccessor _ _ _ _ _ _ ih => simpa using ih
  | writeSlot _ _ _ _ _ _ _ ih => simpa using ih
  | swapChild _ _ _ _ _ _ ih => simpa using ih
  | splitBlock _ _ _ address ih => exact Nat.le_trans ih (size_le_splitBlock ..)

/-- A run of edits goes on from where another ended: what is new to the second is new to both. -/
theorem trans {g' : Graph} (h : Edited craft base g) (h' : Edited craft g g') :
    Edited craft base g' := by
  have hle := h.size_le
  induction h' with
  | refl => exact h
  | patch _ hf ih => exact ih.patch hf
  | setLoops _ ls hls ih => exact ih.setLoops ls hls
  | setFragments _ hc fs ih => exact ih.setFragments hc fs
  | add _ kind hk start stop slots ih => exact ih.add kind hk start stop slots
  | connect _ a b ha hb hnew ih =>
    exact ih.connect a b ha hb (hnew.imp (Nat.le_trans hle) (And.imp_left (Nat.le_trans hle)))
  | disconnect _ a b ih => exact ih.disconnect a b
  | disconnectSuccessors _ n ih => exact ih.disconnectSuccessors n
  | replaceSuccessor _ n old hn hnew hb ih =>
    exact ih.replaceSuccessor n old hn (Nat.le_trans hle hnew) hb
  | writeSlot _ n slot child hnew hc hgate ih =>
    exact ih.writeSlot n slot child (Nat.le_trans hle hnew) hc fun c he hslot hg k hk =>
      hgate c he hslot hg k (Nat.lt_of_lt_of_le hk hle)
  | swapChild _ p old hn hnew hb ih => exact ih.swapChild p old hn (Nat.le_trans hle hnew) hb
  | splitBlock _ hc hb address ih => exact ih.splitBlock hc hb address

/-- No edit of a pass takes the two copies of the edges apart. -/
theorem sound (h : Edited craft base g) (hs : base.Sound) : g.Sound := by
  induction h with
  | refl => exact hs
  | patch _ hf ih =>
    refine ih.modifyNode hf.succs hf.preds (fun p hp => ?_) fun c hc => ?_
    · rcases hf.parent p hp with hlt | he
      · exact hlt
      · exact ih.parents _ p he
    · exact ih.children _ c (hf.children ▸ hc)
  | setLoops _ _ _ ih => exact ⟨ih.dual, ih.parents, ih.children, ih.blocks⟩
  | setFragments _ _ _ ih => exact ⟨ih.dual, ih.parents, ih.children, ih.blocks⟩
  | add _ _ _ _ _ _ ih =>
    exact ih.add rfl rfl rfl fun c hc => List.eq_of_mem_replicate hc
  | connect _ _ _ ha hb _ ih => exact ih.connect ha hb
  | disconnect _ a b ih => exact ih.disconnect a b
  | disconnectSuccessors _ n ih => exact ih.disconnectSuccessors n
  | replaceSuccessor _ n old hn _ _ ih => exact ih.replaceSuccessor n old hn
  | writeSlot _ n slot child _ hc _ ih => exact ih.writeSlot n slot hc
  | swapChild _ p old hn _ _ ih => exact ih.swapChild p old hn
  | splitBlock _ _ _ address ih => exact ih.splitBlock _ address

/-- Where a node stands is changed by splitting blocks alone. -/
theorem bounds (h : Edited craft base g) (hcraft : craft ≠ .switches) {i : NodeId}
    (hi : i < base.nodes.size) :
    (g.gist i).start = (base.gist i).start ∧ (g.gist i).stop = (base.gist i).stop := by
  induction h with
  | refl => exact ⟨rfl, rfl⟩
  | @patch g _ n f hf ih =>
    rw [gist_start, gist_stop, node_modifyNode]
    split
    · rename_i hn
      rw [hn.1] at ih ⊢
      rw [hf.start, hf.stop]
      exact ih
    · exact ih
  | setLoops _ _ _ ih => exact ih
  | setFragments _ _ _ ih => exact ih
  | add h _ _ _ _ _ ih =>
    rw [gist_add_of_lt _ _ (Nat.lt_of_lt_of_le hi h.size_le)]
    exact ih
  | connect _ _ _ _ _ _ ih => rw [gist_connect]; exact ih
  | disconnect _ _ _ ih => rw [gist_disconnect]; exact ih
  | disconnectSuccessors _ _ ih => rw [gist_disconnectSuccessors]; exact ih
  | replaceSuccessor _ _ _ _ _ _ ih => rw [gist_replaceSuccessor]; exact ih
  | writeSlot _ _ _ _ _ _ _ ih => rw [gist_writeSlot]; exact ih
  | swapChild _ _ _ _ _ _ ih => rw [gist_mapChildren]; exact ih
  | splitBlock _ hc => exact absurd hc hcraft

/-! ## The edits that passes are written in -/

theorem mapInstrs (h : Edited craft base g) (n : NodeId) {f : List Instr → List Instr}
    (hf : ∀ is, (f is).Sublist is) : Edited craft base (g.mapInstrs n f) := by
  refine h.patch ?_
  unfold Node.mapInstrs
  split
  · rename_i is hk
    exact ⟨rfl, rfl, rfl, rfl, rfl, fun p hp => .inr hp, hk ▸ .shrink (hf is)⟩
  · exact ⟨rfl, rfl, rfl, rfl, rfl, fun p hp => .inr hp, .same _⟩

theorem stripLast (h : Edited craft base g) (n : NodeId) (count : Nat) :
    Edited craft base (g.stripLast n count) :=
  h.mapInstrs n fun _ => List.take_sublist ..

theorem stripFirst (h : Edited craft base g) (n : NodeId) (count : Nat) :
    Edited craft base (g.stripFirst n count) :=
  h.mapInstrs n fun _ => List.drop_sublist ..

theorem setUnreachable (h : Edited craft base g) (n : NodeId) (b : Bool) :
    Edited craft base (g.setUnreachable n b) :=
  h.patch ⟨rfl, rfl, rfl, rfl, rfl, fun _ hp => .inr hp, .same _⟩

theorem setParent (h : Edited craft base g) (n : NodeId) (parent : Option NodeId)
    (hp : ∀ p, parent = some p → p < g.nodes.size) : Edited craft base (g.setParent n parent) :=
  h.patch ⟨rfl, rfl, rfl, rfl, rfl, fun p he => .inl (hp p he), .same _⟩

theorem disconnectPredecessors (h : Edited craft base g) (n : NodeId) (p : Node → Bool) :
    Edited craft base (g.disconnectPredecessors n p) := by
  have aux : ∀ (as : List NodeId) (g : Graph), Edited craft base g →
      Edited craft base (as.foldl (fun g a => g.disconnect a n) g) := by
    intro as
    induction as with
    | nil => intro g hg; exact hg
    | cons a as ih => intro g hg; exact ih _ (hg.disconnect a n)
  exact aux _ g h

theorem redirectPredecessors (h : Edited craft base g) (old : NodeId) {new : NodeId}
    (hn : new < g.nodes.size) (hnew : base.nodes.size ≤ new) (hb : (g.gist new).isBlock = false)
    (p : Node → Bool) : Edited craft base (g.redirectPredecessors old new p) := by
  have aux : ∀ (as : List NodeId) (g : Graph), Edited craft base g → new < g.nodes.size →
      (g.gist new).isBlock = false →
      Edited craft base (as.foldl (fun g a => g.replaceSuccessor a old new) g) := by
    intro as
    induction as with
    | nil => intro g hg _ _; exact hg
    | cons a as ih =>
      intro g hg hn hb
      exact ih _ (hg.replaceSuccessor a old hn hnew hb) (by simpa using hn) (by simpa using hb)
  exact aux _ g h hn hb

theorem replaceInParent (h : Edited craft base g) (hs : base.Sound) (old : NodeId) {new : NodeId}
    (hn : new < g.nodes.size) (hnew : base.nodes.size ≤ new) (hb : (g.gist new).isBlock = false) :
    Edited craft base (g.replaceInParent old new) := by
  unfold Graph.replaceInParent
  generalize hq : (g.node old).parent = parent
  have h₁ := h.setParent new parent fun p hp => (h.sound hs).parents old p (hq.trans hp)
  have hsize : new < (g.setParent new parent).nodes.size := by simpa [Graph.setParent] using hn
  have hb₁ : ((g.setParent new parent).gist new).isBlock = false := by simpa using hb
  cases parent with
  | none => exact h₁.setParent old (some new) fun p hp => by cases hp; exact hsize
  | some q =>
    exact (h₁.swapChild q old hsize hnew hb₁).setParent old (some new) fun p hp => by
      cases hp; simpa using hsize

/-- Filling a slot that no gate keeps its block in. -/
theorem setChild (h : Edited craft base g) (n : NodeId) (slot : Nat) (child : Option NodeId)
    (hn : n < g.nodes.size) (hnew : base.nodes.size ≤ n)
    (hc : ∀ c, child = some c → c < g.nodes.size)
    (hgate : ∀ c, child = some c → slot = 0 → (g.gist n).isGate = true →
      ∀ k < base.nodes.size, (g.gist n).covers (g.gist k).start = false → c ∉ (g.node k).succs) :
    Edited craft base (g.setChild n slot child) := by
  have h₁ := h.writeSlot n slot child hnew hc hgate
  cases child with
  | none => exact h₁
  | some c => exact h₁.setParent c (some n) fun p hp => by cases hp; simpa using hn

end Edited

end GmlLift
