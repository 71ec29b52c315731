import Mathlib.Data.List.Nodup
import GmlLift.Proofs.Flow.Folds
import GmlLift.Proofs.Flow.Idle
import GmlLift.Proofs.Flow.StatementFolds

/-! # What folding a conditional makes of each node

The fold of a conditional cuts the edges of its branches into the meeting point, takes the jump off
its condition and hangs a new node over the three. On a graph whose two copies of the edges agree
this is known node by node. -/
namespace GmlLift

open GmlLift.Graph Pass

/-! ## A node under another name -/

/-- Another name for one of the nodes that a node leads to or holds. -/
def Node.moved (old new : NodeId) (n : Node) : Node :=
  { n with
    succs := rename old new n.succs
    children := n.children.map fun c => if c == some old then some new else c }

/-- The node leads to another one or holds it in a slot. -/
def Node.Names (n : Node) (t : NodeId) : Prop := t ∈ n.succs ∨ some t ∈ n.children

theorem Node.swap_of_not_mem {old new : NodeId} {cs : List (Option NodeId)} (h : some old ∉ cs) :
    cs.map (fun c => if c == some old then some new else c) = cs := by
  refine (List.map_congr_left fun c hc => ?_).trans (List.map_id cs)
  have hne : c ≠ some old := fun he => h (he ▸ hc)
  exact if_neg (by simpa using hne)

theorem Node.moved_of_not_names {n : Node} {old : NodeId} (h : ¬ n.Names old) (new : NodeId) :
    n.moved old new = n := by
  rw [moved, rename_of_not_mem fun hm => h (.inl hm), swap_of_not_mem fun hm => h (.inr hm)]

/-- Under the other name the old one does not come up. -/
theorem Node.names_moved {n : Node} {old new t : NodeId} (h : (n.moved old new).Names t) :
    t = new ∨ t ≠ old ∧ n.Names t := by
  rcases h with h | h
  · obtain ⟨s, hs, rfl⟩ := List.mem_map.mp h
    split
    · exact .inl rfl
    · rename_i hne
      exact .inr ⟨hne, .inl hs⟩
  · obtain ⟨c, hc, he⟩ := List.mem_map.mp h
    split at he
    · cases he
      exact .inl rfl
    · rename_i hne
      subst he
      exact .inr ⟨by simpa using hne, .inr hc⟩

/-! ## Edges and slots of one node -/

namespace Graph

variable {g : Graph}

theorem face_setChild {n : NodeId} (hn : n < g.nodes.size) (slot : Nat) {child : Option NodeId}
    (hc : ∀ c, child = some c → c < g.nodes.size) (x : NodeId) : (g.setChild n slot child).face x =
      let y := if x = n then { g.face x with children := withSlot slot child (g.face x).children }
        else g.face x
      if child = some x then { y with parent := some n } else y := by
  have hslot := face_writeSlot hn slot child x
  cases child with
  | none => exact hslot
  | some c =>
    rw [setChild, face_setParent (by simpa [writeSlot] using hc c rfl), hslot]
    by_cases hx : x = c
    · rw [if_pos hx, if_pos (congrArg some hx.symm)]
    · rw [if_neg hx, if_neg fun h => hx (Option.some.inj h).symm]

/-- A node gives its place to another one, under whatever it hangs. -/
theorem face_replaceInParent {old new : NodeId} (hs : g.Sound) (hold : old < g.nodes.size)
    (hnew : new < g.nodes.size) (hloop : (g.face old).parent ≠ some old)
    (hfresh : (g.face old).parent ≠ some new)
    (hheld : ∀ x, some old ∈ (g.face x).children → (g.face old).parent = some x) (x : NodeId) :
    (g.replaceInParent old new).face x =
      if x = old then { g.face x with parent := some new }
      else if x = new then { g.face x with parent := (g.face old).parent }
      else { g.face x with
        children := (g.face x).children.map fun c => if c == some old then some new else c } := by
  cases hp : (g.face old).parent with
  | none =>
    rw [face_replaceInParent_of_none hold hnew hp]
    have hswap : (g.face x).children.map (fun c => if c == some old then some new else c) =
        (g.face x).children := Node.swap_of_not_mem fun hm => by
      rw [hheld x hm] at hp
      cases hp
    rw [hswap]
  | some q =>
    rw [hp] at hloop hfresh
    rw [face_replaceInParent_of_some hold hnew (hs.parents old q hp) hp (fun h => hloop (h ▸ rfl))
      fun h => hfresh (h ▸ rfl)]
    by_cases hx : x = q
    · rw [if_pos hx]
    · have hswap : (g.face x).children.map (fun c => if c == some old then some new else c) =
          (g.face x).children := Node.swap_of_not_mem fun hm => by
        rw [hheld x hm] at hp
        exact hx (Option.some.inj hp)
      rw [if_neg hx, hswap]

end Graph

/-! ## A new node in the place of another one -/

namespace Graph

variable {g : Graph}

/-- A new node takes over the edges into another one and its place in its parent. -/
def displace (old : NodeId) (n : Node) (g : Graph) : Graph :=
  ((g.add n).redirectPredecessors old g.nodes.size fun _ => true).replaceInParent old g.nodes.size

@[simp] theorem size_displace (old : NodeId) (n : Node) :
    (g.displace old n).nodes.size = g.nodes.size + 1 := by
  simp [displace]

theorem face_displace (hs : g.Sound) {old : NodeId} (hold : old < g.nodes.size)
    (hloop : (g.face old).parent ≠ some old)
    (hheld : ∀ x, some old ∈ (g.face x).children → (g.face old).parent = some x)
    (kind : NodeKind) (start stop slots : Nat) (x : NodeId) :
    (g.displace old (.ofKind kind start stop slots)).face x =
      if x = old then { (g.face x).moved old g.nodes.size with parent := some g.nodes.size }
      else if x = g.nodes.size then
        { Node.ofKind kind start stop slots with parent := (g.face old).parent }
      else (g.face x).moved old g.nodes.size := by
  have hne : old ≠ g.nodes.size := Nat.ne_of_lt hold
  have hs₁ : (g.add (.ofKind kind start stop slots)).Sound :=
    hs.add rfl rfl rfl fun _ hc => List.eq_of_mem_replicate hc
  have hnew : g.nodes.size < (g.add (.ofKind kind start stop slots)).nodes.size := by
    rw [size_add]
    exact Nat.lt_succ_self _
  have hs₂ := hs₁.redirectPredecessors old hnew fun _ => true
  have hface : ∀ x, ((g.add (.ofKind kind start stop slots)).redirectPredecessors old g.nodes.size
      fun _ => true).face x = if x = g.nodes.size then .ofKind kind start stop slots
        else { g.face x with succs := rename old g.nodes.size (g.face x).succs } := fun x => by
    rw [hs₁.face_redirectPredecessors hne, if_pos rfl, face_add]
    split <;> rfl
  have hparent : (((g.add (.ofKind kind start stop slots)).redirectPredecessors old g.nodes.size
      fun _ => true).face old).parent = (g.face old).parent := by
    rw [hface, if_neg hne]
  rw [displace, face_replaceInParent hs₂ (by simpa using Nat.lt_succ_of_lt hold)
    (by simp) (by rwa [hparent]) ?_ (fun y hy => ?_), hparent, hface]
  · by_cases hx : x = old
    · rw [if_pos hx, if_pos hx, if_neg (hx ▸ hne), Node.moved, Node.swap_of_not_mem]
      exact fun hm => hloop (hx ▸ hheld x hm)
    · rw [if_neg hx, if_neg hx]
      split <;> rfl
  · rw [hparent]
    exact fun h => Nat.lt_irrefl _ (hs.parents old _ h)
  · rw [hparent]
    rw [hface] at hy
    split at hy
    · cases List.eq_of_mem_replicate hy
    · exact hheld y hy

end Graph

theorem Node.start_mapInstrs (f : List Instr → List Instr) (n : Node) :
    (n.mapInstrs f).start = n.start := by
  unfold Node.mapInstrs
  split <;> rfl

theorem Node.isJump_mapInstrs (f : List Instr → List Instr) (n : Node) :
    (n.mapInstrs f).isJump = n.isJump := by
  obtain ⟨start, stop, preds, succs, parent, children, unreachable, kind⟩ := n
  cases kind <;> rfl

namespace Branch

variable {g : Graph}

/-! ## Hanging the conditional -/

/-- The node of a conditional in place of its condition, over the condition and the branches. -/
def hang (condition onTrue : NodeId) (onFalse : Option NodeId) (meet : NodeId) (start stop : Nat)
    (g : Graph) : Graph :=
  let node := g.nodes.size
  ((((g.displace condition (.ofKind .branch start stop 3)).connect node meet).setChild node
    Slot.condition (some condition)).setChild node Slot.onTrue (some onTrue)).setChild node
    Slot.onFalse onFalse

section

variable {condition onTrue meet : NodeId} {onFalse : Option NodeId} {start stop : Nat}

theorem face_hang (hs : g.Sound) (hc : condition < g.nodes.size) (ht : onTrue < g.nodes.size)
    (hf : ∀ b, onFalse = some b → b < g.nodes.size)
    (hloop : (g.face condition).parent ≠ some condition)
    (hheld : ∀ x, some condition ∈ (g.face x).children → (g.face condition).parent = some x)
    (x : NodeId) : (hang condition onTrue onFalse meet start stop g).face x =
      let node := g.nodes.size
      if x = node then
        { start, stop, kind := .branch, succs := [meet], parent := (g.face condition).parent
          children := [some condition, some onTrue, onFalse] }
      else if x = condition ∨ x = onTrue ∨ onFalse = some x then
        { (g.face x).moved condition node with parent := some node }
      else (g.face x).moved condition node := by
  have hnode : g.nodes.size < (g.displace condition (.ofKind .branch start stop 3)).nodes.size := by
    simp
  have hlt : ∀ {n}, n < g.nodes.size → n < g.nodes.size + 1 := Nat.lt_succ_of_lt
  have hchild : ∀ {n : NodeId}, n < g.nodes.size → ∀ c, some n = some c →
      c < (g.displace condition (.ofKind .branch start stop 3)).nodes.size := by
    rintro n hn c hc
    cases hc
    simpa using hlt hn
  rw [hang, face_setChild (by simp) _ (by simpa using fun b hb => hlt (hf b hb)),
    face_setChild (by simp) _ (by simpa using hchild ht),
    face_setChild (by simp) _ (by simpa using hchild hc),
    face_connect hnode, face_displace hs hc hloop hheld]
  dsimp only
  by_cases hx : x = g.nodes.size
  · have hcn : ¬ condition = x := fun h => Nat.lt_irrefl _ (h.trans hx ▸ hc)
    have htn : ¬ onTrue = x := fun h => Nat.lt_irrefl _ (h.trans hx ▸ ht)
    have hfn : ¬ onFalse = some x := fun h => Nat.lt_irrefl _ (hx ▸ hf x h)
    simp only [hx, if_true]
    rw [if_neg (by simpa [hx] using hfn), if_neg (by simpa [hx] using htn),
      if_neg (by simpa [hx] using hcn), if_neg (by simpa [hx] using Ne.symm hcn)]
    rfl
  · simp only [hx, if_false, Option.some.injEq]
    by_cases hxc : x = condition
    · subst hxc
      simp
    · simp only [hxc, if_false, false_or, if_neg (Ne.symm hxc)]
      by_cases hxt : x = onTrue
      · simp [hxt]
      · simp [hxt, Ne.symm hxt]

end

/-! ## Cutting the edges of the branches -/

/-- A node without its edge to the meeting point, and without the jump that makes it. -/
def cutNode (meet : NodeId) (meetStart : Nat) (n : Node) : Node :=
  { (if n.instrs.getLast?.any fun i => i.opcode == .b && i.target? == some meetStart
      then n.mapInstrs fun is => is.take (is.length - 1) else n) with succs := n.succs.erase meet }

section

variable (meet : NodeId) (meetStart : Nat) (n : Node)

theorem children_cutNode : (cutNode meet meetStart n).children = n.children := by
  unfold cutNode
  split
  · exact Node.children_mapInstrs ..
  · rfl

theorem start_cutNode : (cutNode meet meetStart n).start = n.start := by
  unfold cutNode
  split
  · exact Node.start_mapInstrs ..
  · rfl

theorem isJump_cutNode : (cutNode meet meetStart n).isJump = n.isJump := by
  unfold cutNode
  split
  · exact Node.isJump_mapInstrs ..
  · rfl

variable {meet meetStart n}

theorem names_of_cutNode {t : NodeId} (h : (cutNode meet meetStart n).Names t) : n.Names t := by
  rcases h with h | h
  · exact .inl (List.mem_of_mem_erase h)
  · rw [children_cutNode] at h
    exact .inr h

end

section

variable {meet : NodeId} {meetStart : Nat}

theorem cutEdge_keeps (p : NodeId) (hs : g.Sound) : (cutEdge meet meetStart p g).Sound ∧
    (cutEdge meet meetStart p g).nodes.size = g.nodes.size := by
  unfold cutEdge
  split
  · exact ⟨(hs.mapInstrs p _).disconnect p meet, by simp [stripLast]⟩
  · exact ⟨hs.disconnect p meet, size_disconnect ..⟩

theorem face_cutEdge {p : NodeId} (hp : p < g.nodes.size) (x : NodeId) :
    (cutEdge meet meetStart p g).face x =
      if x = p then cutNode meet meetStart (g.face x) else g.face x := by
  have hlast : g.endsInJump p .b meetStart = (g.face p).instrs.getLast?.any fun i =>
      i.opcode == .b && i.target? == some meetStart := rfl
  rw [cutEdge, face_disconnect, hlast]
  by_cases hx : x = p
  · subst hx
    rw [if_pos rfl, if_pos rfl, cutNode]
    split
    · rw [stripLast, face_mapInstrs hp, if_pos rfl, Node.succs_mapInstrs]
    · rfl
  · rw [if_neg hx, if_neg hx]
    split
    · rw [stripLast, face_mapInstrs hp, if_neg hx]
    · rfl

/-- The predecessors of a meeting point, cut off it one by one. -/
def cutEdges (meet : NodeId) (meetStart : Nat) (ps : List NodeId) (g : Graph) : Graph :=
  ps.foldl (fun g p => cutEdge meet meetStart p g) g

theorem cutEdges_keeps (ps : List NodeId) (hs : g.Sound) : (cutEdges meet meetStart ps g).Sound ∧
    (cutEdges meet meetStart ps g).nodes.size = g.nodes.size := by
  induction ps generalizing g with
  | nil => exact ⟨hs, rfl⟩
  | cons p ps ih =>
    obtain ⟨hs', hsize⟩ : (cutEdge meet meetStart p g).Sound ∧ _ := cutEdge_keeps p hs
    obtain ⟨hs'', hsize'⟩ := ih hs'
    exact ⟨hs'', hsize'.trans hsize⟩

theorem face_cutEdges {ps : List NodeId} (hs : g.Sound) (hps : ∀ p ∈ ps, p < g.nodes.size)
    (hnodup : ps.Nodup) (x : NodeId) : (cutEdges meet meetStart ps g).face x =
      if x ∈ ps then cutNode meet meetStart (g.face x) else g.face x := by
  induction ps generalizing g with
  | nil => simp [cutEdges]
  | cons p ps ih =>
    obtain ⟨hp, hnodup⟩ := List.nodup_cons.mp hnodup
    obtain ⟨hs', hsize⟩ : (cutEdge meet meetStart p g).Sound ∧ _ := cutEdge_keeps p hs
    have hrest := ih hs' (fun q hq => by rw [hsize]; exact hps q (List.mem_cons_of_mem _ hq)) hnodup
    rw [cutEdges, List.foldl_cons, ← cutEdges, hrest, face_cutEdge (hps p List.mem_cons_self)]
    by_cases hx : x = p
    · subst hx
      rw [if_neg hp, if_pos rfl, if_pos List.mem_cons_self]
    · simp [hx]

theorem run_each_cutEdge (ps : List NodeId) (g : Graph) :
    (each (fun p => modify (cutEdge meet meetStart p)) ps).run g =
      .ok () (cutEdges meet meetStart ps g) := by
  induction ps generalizing g with
  | nil => rfl
  | cons p ps ih =>
    rw [each, run_modify_bind, ih]
    rfl

end

/-! ## The fold -/

/-- The predecessors of the meeting point on a conditional that starts at its condition. -/
def joining (condition meet : NodeId) (g : Graph) : List NodeId :=
  (g.node meet).preds.filter fun p => p != condition &&
    (g.node condition).start ≤ (g.node p).start && (g.node p).start < (g.node meet).start

/-- The true branch, as a node of a graph that has an empty one where the branch has no code. -/
def withTrue (onTrue meet : NodeId) (g : Graph) : Graph :=
  if onTrue = meet then g.add (.ofKind .empty (g.node meet).start (g.node meet).start 0) else g

def trueNode (onTrue meet : NodeId) (g : Graph) : NodeId :=
  if onTrue = meet then g.nodes.size else onTrue

/-- The graph once the edges of the branches and of the condition are cut. -/
def parted (condition onTrue meet : NodeId) (g : Graph) : Graph :=
  ((cutEdges meet (g.node meet).start (joining condition meet g)
    (withTrue onTrue meet g)).stripLast condition 1).disconnectSuccessors condition

section

variable {condition onTrue onFalse : NodeId}

theorem run_trueBranch (onTrue meet : NodeId) (g : Graph) :
    (trueBranch onTrue meet (g.node meet).start).run g =
      .ok (trueNode onTrue meet g) (withTrue onTrue meet g) := by
  unfold trueBranch trueNode withTrue
  split <;> rfl

theorem run_elseBranch {meet meetStart : Nat} {jumped : Bool} (h : onFalse = meet → jumped = false)
    (g : Graph) : (elseBranch onFalse meet meetStart jumped).run g =
      .ok (if onFalse = meet then none else some onFalse) g := by
  unfold elseBranch
  by_cases he : onFalse = meet
  · rw [if_neg (not_not.mpr he), if_pos he, h he]
    rfl
  · rw [if_pos he, if_neg he]
    rfl

/-- The graph with the conditional in place. -/
def folded (condition onTrue onFalse meet : NodeId) (g : Graph) : Graph :=
  hang condition (trueNode onTrue meet g) (if onFalse = meet then none else some onFalse) meet
    (g.node condition).start (g.node meet).start (parted condition onTrue meet g)

/-- A conditional is folded where its branches come together. No branch may jump over an else that
is not there. -/
theorem fold_run (hsuccs : (g.node condition).succs = [onTrue, onFalse])
    (hjumped : onFalse = meet g onTrue onFalse → ∀ p ∈ joining condition onFalse g,
      g.endsInJump p .b (g.node onFalse).start = false) :
    (fold condition).run g =
      .ok (parted condition onTrue (meet g onTrue onFalse) g).nodes.size
        (folded condition onTrue onFalse (meet g onTrue onFalse) g) := by
  have hways : (Pass.require (.layout .conditional (g.node condition).start .notTwoWay)
      (twoWay? g condition)).run g = .ok (onTrue, onFalse) g := by
    rw [twoWay?, hsuccs]
    rfl
  rw [fold, run_get_bind]
  dsimp only
  rw [run_bind_ok hways]
  dsimp only
  generalize meet g onTrue onFalse = meet at hjumped ⊢
  rw [run_bind_ok (run_trueBranch onTrue meet g), run_bind_ok (run_elseBranch ?_ _),
    run_bind_ok (run_each_cutEdge _ _), run_modify_bind, run_modify_bind, run_add_bind]
  · rfl
  · rintro rfl
    exact List.any_eq_false.mpr fun p hp => by simpa using hjumped rfl p hp

end

/-! ## Each node after the fold -/

section

variable {condition onTrue onFalse meet : NodeId}

theorem face_withTrue (onTrue meet x : NodeId) : (withTrue onTrue meet g).face x =
    if onTrue = meet ∧ x = g.nodes.size
      then .ofKind .empty (g.node meet).start (g.node meet).start 0 else g.face x := by
  unfold withTrue
  by_cases he : onTrue = meet
  · rw [if_pos he, face_add]
    by_cases hx : x = g.nodes.size
    · rw [if_pos hx, if_pos ⟨he, hx⟩]
      rfl
    · rw [if_neg hx, if_neg fun h => hx h.2]
  · rw [if_neg he, if_neg fun h => he h.1]

theorem sound_withTrue (hs : g.Sound) (onTrue meet : NodeId) : (withTrue onTrue meet g).Sound := by
  unfold withTrue
  split
  · exact hs.add rfl rfl rfl fun _ hc => List.eq_of_mem_replicate hc
  · exact hs

theorem size_withTrue (onTrue meet : NodeId) : (withTrue onTrue meet g).nodes.size =
    g.nodes.size + if onTrue = meet then 1 else 0 := by
  unfold withTrue
  split
  · exact size_add ..
  · rfl

theorem trueNode_lt (ht : onTrue < g.nodes.size) :
    trueNode onTrue meet g < g.nodes.size + if onTrue = meet then 1 else 0 := by
  unfold trueNode
  split
  · exact Nat.lt_succ_self _
  · exact ht

theorem mem_joining {x : NodeId} (hs : g.Sound) : x ∈ joining condition meet g ↔
    meet ∈ (g.node x).succs ∧ x ≠ condition ∧ (g.node condition).start ≤ (g.node x).start ∧
      (g.node x).start < (g.node meet).start := by
  have hdual : x ∈ (g.node meet).preds ↔ meet ∈ (g.node x).succs := by
    rw [← List.count_pos_iff, ← List.count_pos_iff, hs.dual]
  rw [joining, List.mem_filter, hdual]
  simp [and_assoc]

/-- A predecessor is there once if it leads nowhere else twice. -/
theorem nodup_joining (hs : g.Sound)
    (hone : ∀ x ∈ joining condition meet g, (g.node x).succs = [meet]) :
    (joining condition meet g).Nodup := by
  refine List.nodup_iff_count_le_one.mpr fun x => ?_
  by_cases hx : x ∈ joining condition meet g
  · refine Nat.le_trans (List.Sublist.count_le x List.filter_sublist) ?_
    exact Nat.le_of_eq (by rw [← hs.dual, hone x hx, List.count_singleton_self])
  · rw [List.count_eq_zero_of_not_mem hx]
    exact Nat.zero_le 1

theorem size_folded (condition onTrue onFalse meet : NodeId) (g : Graph) :
    (folded condition onTrue onFalse meet g).nodes.size =
      (parted condition onTrue meet g).nodes.size + 1 := by
  rw [folded, hang, size_setChild, size_setChild, size_setChild, size_connect, size_displace]

theorem sound_parted (hs : g.Sound) : (parted condition onTrue meet g).Sound :=
  (((cutEdges_keeps _ (sound_withTrue hs onTrue meet)).1).mapInstrs condition _).disconnectSuccessors
    condition

theorem size_parted (hs : g.Sound) : (parted condition onTrue meet g).nodes.size =
    g.nodes.size + if onTrue = meet then 1 else 0 := by
  rw [parted, size_disconnectSuccessors, stripLast, size_mapInstrs,
    (cutEdges_keeps _ (sound_withTrue hs onTrue meet)).2, size_withTrue]

variable (hs : g.Sound) (hc : condition < g.nodes.size) (hnodup : (joining condition meet g).Nodup)
include hs hc hnodup

theorem face_parted (x : NodeId) : (parted condition onTrue meet g).face x =
    if x = condition then
      { (g.face x).mapInstrs (fun is => is.take (is.length - 1)) with succs := [] }
    else if x ∈ joining condition meet g then cutNode meet (g.node meet).start (g.face x)
    else (withTrue onTrue meet g).face x := by
  have hsize := size_withTrue (g := g) onTrue meet
  have hjoining : ∀ p ∈ joining condition meet g, p < g.nodes.size := fun p hp =>
    hs.lt_of_mem_preds (List.mem_filter.mp hp).1
  obtain ⟨hs', hsize'⟩ : (cutEdges meet (g.node meet).start (joining condition meet g)
    (withTrue onTrue meet g)).Sound ∧ _ := cutEdges_keeps _ (sound_withTrue hs onTrue meet)
  have hcut : ∀ y < g.nodes.size, y < (withTrue onTrue meet g).nodes.size := fun y hy =>
    hsize ▸ Nat.lt_add_right _ hy
  have hface : ∀ {y}, y < g.nodes.size → (withTrue onTrue meet g).face y = g.face y := fun hy => by
    rw [face_withTrue, if_neg fun h => Nat.ne_of_lt hy h.2]
  rw [parted, face_disconnectSuccessors, stripLast,
    face_mapInstrs (hsize' ▸ hcut condition hc),
    face_cutEdges (sound_withTrue hs onTrue meet) (fun p hp => hcut p (hjoining p hp)) hnodup]
  by_cases hx : x = condition
  · subst hx
    rw [if_pos rfl, if_pos rfl, if_pos rfl, if_neg fun h => ((mem_joining hs).mp h).2.1 rfl, hface hc]
  · rw [if_neg hx, if_neg hx, if_neg hx]
    split
    · rename_i hm
      rw [hface (hjoining x hm)]
    · rfl

variable (ht : onTrue < g.nodes.size) (hf : onFalse < g.nodes.size)
  (hloop : (g.face condition).parent ≠ some condition)
  (hheld : ∀ x, some condition ∈ (g.face x).children → (g.face condition).parent = some x)
include ht hf hloop hheld

/-- What the fold makes of any node. -/
theorem face_folded (x : NodeId) : (folded condition onTrue onFalse meet g).face x =
    let node := (parted condition onTrue meet g).nodes.size
    if x = node then
      { start := (g.node condition).start, stop := (g.node meet).start, kind := .branch
        succs := [meet], parent := (g.face condition).parent
        children := [some condition, some (trueNode onTrue meet g),
          if onFalse = meet then none else some onFalse] }
    else
      let y := ((parted condition onTrue meet g).face x).moved condition node
      if x = condition ∨ x = trueNode onTrue meet g ∨
          (if onFalse = meet then none else some onFalse) = some x
        then { y with parent := some node } else y := by
  have hparted : ∀ y, (parted condition onTrue meet g).face y = _ := face_parted hs hc hnodup
  have hle : g.nodes.size ≤ (parted condition onTrue meet g).nodes.size := by
    rw [size_parted hs]
    exact Nat.le_add_right _ _
  have hparent : ((parted condition onTrue meet g).face condition).parent =
      (g.face condition).parent := by
    rw [hparted, if_pos rfl]
    exact Node.parent_mapInstrs ..
  have hchildren : ∀ x, some condition ∈ ((parted condition onTrue meet g).face x).children →
      some condition ∈ (g.face x).children := by
    intro x hx
    rw [hparted, face_withTrue] at hx
    split at hx
    · rwa [Node.children_mapInstrs] at hx
    · split at hx
      · rwa [children_cutNode] at hx
      · split at hx
        · cases List.eq_of_mem_replicate hx
        · exact hx
  rw [folded, face_hang (sound_parted hs) (Nat.lt_of_lt_of_le hc hle) ?_ ?_ ?_ fun y hy => ?_]
  · rw [hparent]
  · rw [size_parted hs]
    exact trueNode_lt ht
  · intro b hb
    split at hb
    · cases hb
    · cases hb
      exact Nat.lt_of_lt_of_le hf hle
  · rwa [hparent]
  · rw [hparent]
    exact hheld y (hchildren y hy)

end

end Branch
end GmlLift
