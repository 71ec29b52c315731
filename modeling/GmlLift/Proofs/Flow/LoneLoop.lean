import GmlLift.Proofs.Flow.Acyclic
import GmlLift.Proofs.Flow.Planted

/-! # Folding the only loop

When a single block closes or opens a loop, the pass folds that one loop. If nothing inside breaks or
continues, its node takes over the edges into the head, leads on behind the loop and holds the head
and the body; what else changes is the code and the edges that the loop itself is made of. -/
namespace GmlLift

open GmlLift.Graph Pass

variable {g : Graph}

/-! ## Slots and parents, exactly -/

theorem Graph.children_replaceInParent_eq (old new i : NodeId) :
    ((g.replaceInParent old new).node i).children =
      if (g.node old).parent = some i then
        (g.node i).children.map fun c => if c == some old then some new else c
      else (g.node i).children := by
  unfold replaceInParent
  generalize (g.node old).parent = parent
  cases parent with
  | none => simp
  | some p =>
    rw [children_setParent, node_modifyNode]
    by_cases hi : p = i
    · subst hi
      rw [if_pos rfl]
      split
      · rw [children_setParent]
      · rename_i hlt
        have hnone : g.node p = default := by
          refine node_of_size_le (Nat.le_of_not_lt fun h => hlt ⟨rfl, ?_⟩)
          simpa using h
        rw [children_setParent, hnone]
        rfl
    · rw [if_neg fun h => hi h.1.symm, if_neg fun h => hi (Option.some.inj h), children_setParent]

theorem Graph.parent_of_bare {x y : Node} (h : x.bare = y.bare) : x.parent = y.parent := by
  have he := congrArg Node.parent h
  exact he

/-! ## Slots filled in a row -/

namespace Graph

variable {g : Graph} {n : NodeId}

theorem setChildren_cons (slot : Nat) (c : NodeId) (cs : List NodeId) :
    ((c :: cs).zipIdx slot).foldl (fun g (child, slot) => g.setChild n slot (some child)) g =
      (cs.zipIdx (slot + 1)).foldl (fun g (child, slot) => g.setChild n slot (some child))
        (g.setChild n slot (some c)) := rfl

/-- Writing the first of the slots that are left. -/
theorem withSlot_append (done : List NodeId) (c : NodeId) (left : Nat) :
    withSlot done.length (some c) (done.map some ++ List.replicate (left + 1) none) =
      (done ++ [c]).map some ++ List.replicate left none := by
  have hroom : done.length + 1 - (done.map some ++ List.replicate (left + 1) none).length = 0 := by
    simp
  rw [withSlot, hroom, List.replicate_zero, List.append_nil, List.set_append_right _ _ (by simp),
    List.length_map, Nat.sub_self, List.replicate_succ, List.set_cons_zero]
  simp

theorem children_setChildrenFrom (hn : n < g.nodes.size) (done : List NodeId) {cs : List NodeId}
    (h : (g.node n).children = done.map some ++ List.replicate cs.length none) :
    (((cs.zipIdx done.length).foldl (fun g (child, slot) => g.setChild n slot (some child)) g).node
      n).children = (done ++ cs).map some := by
  induction cs generalizing g done with
  | nil => simpa using h
  | cons c cs ih =>
    have hwritten : ((g.setChild n done.length (some c)).node n).children =
        (done ++ [c]).map some ++ List.replicate cs.length none := by
      rw [children_setChild_self hn, h, List.length_cons, withSlot_append]
    have hlength : (done ++ [c]).length = done.length + 1 := by simp
    rw [setChildren_cons, ← hlength, ih (by simpa using hn) _ hwritten, List.append_assoc]
    rfl

/-- Children fill the empty slots of a node. -/
theorem children_setChildren_self (hn : n < g.nodes.size) {cs : List NodeId}
    (h : (g.node n).children = List.replicate cs.length none) :
    ((g.setChildren n cs).node n).children = cs.map some :=
  children_setChildrenFrom hn [] h

/-- What a child in one slot leaves alone, children in many do. -/
theorem setChildren_keeps {β : Type} (read : Graph → β)
    (h : ∀ g slot c, read (g.setChild n slot (some c)) = read g) (cs : List NodeId) :
    read (g.setChildren n cs) = read g :=
  foldl_keeps read (fun g (c, slot) => h g slot c) _ _

end Graph

namespace Loops

variable (c : Candidate) (node exit body : NodeId) (inside : Node → Bool)

theorem gist_splice (x : NodeId) : (splice c node exit body inside g).gist x = g.gist x := by
  rw [gist, node_splice]
  change (spliced c node exit body inside g).gist x = _
  simp [spliced, seated, joined, parted]

/-- Neither the head nor what a `break` leads to is led to from inside. -/
def Quiet (c : Candidate) (inside : Node → Bool) (g : Graph) : Prop :=
  ∀ x, inside (g.node x) = true → ∀ t, breakTarget? c = some t ∨ t = c.head → t ∉ (g.node x).succs

variable {c node exit body inside}

/-- Redirecting edges that are not there. -/
theorem face_redirect_of_quiet (hs : g.Sound) {old new : NodeId} (hne : old ≠ new)
    {p : Node → Bool} (h : ∀ x, p (g.node x) = true → old ∉ (g.node x).succs) (x : NodeId) :
    (g.redirectPredecessors old new p).face x = g.face x := by
  rw [hs.face_redirectPredecessors hne]
  split
  · rename_i hx
    rw [succs_face, rename_of_not_mem (h x hx)]
    rfl
  · rfl

theorem face_moveExits (hs : g.Sound) (hexit : exit < g.nodes.size)
    (hin : ∀ n m : Node, n.start = m.start → inside n = inside m) (hquiet : Quiet c inside g)
    (hne : ∀ t, breakTarget? c = some t ∨ t = c.head → t ≠ exit) (x : NodeId) :
    (moveExits c exit inside g).face x = g.face x := by
  have hhead : ∀ g' : Graph, g'.Sound → (∀ x, g'.face x = g.face x) → ∀ x,
      (if c.kind = .whileLoop then g'.redirectPredecessors c.head exit inside else g').face x =
        g.face x := by
    intro g' hs' hface x
    split
    · rw [face_redirect_of_quiet hs' (hne _ (.inr rfl)) fun x hx => ?_, hface]
      have hstart : (g'.node x).start = (g.node x).start := by rw [← start_face, hface, start_face]
      rw [← succs_face, hface]
      exact hquiet x (hin _ _ hstart ▸ hx) _ (.inr rfl)
    · exact hface x
  unfold moveExits
  cases hbreak : breakTarget? c with
  | none => exact hhead g hs (fun _ => rfl) x
  | some target =>
    refine hhead _ (hs.redirectPredecessors target hexit inside) (fun x => ?_) x
    exact face_redirect_of_quiet hs (hne _ (.inl hbreak)) (fun x hx => hquiet x hx _ (.inl hbreak)) x

section

variable (hs : g.Sound) (hnode : node < g.nodes.size) (hexit : exit < g.nodes.size)
  (hin : ∀ n m : Node, n.start = m.start → inside n = inside m) (hquiet : Quiet c inside g)
  (hne : ∀ t, breakTarget? c = some t ∨ t = c.head → t ≠ exit)
include hs hnode hexit hin hquiet hne

/-- The graph before the loop's node goes in differs in the parent of the exit. -/
theorem face_parted (x : NodeId) : (parted c node exit inside g).face x =
    if x = exit then { g.face x with parent := some node } else g.face x := by
  have hsucc : ∀ x, ((g.setParent exit (some node)).node x).succs = (g.node x).succs := by simp
  have hstart : ∀ x, ((g.setParent exit (some node)).node x).start = (g.node x).start := fun x => by
    rw [← gist_start, gist_setParent, gist_start]
  rw [parted, face_moveExits (hs.setParent exit fun p hp => by cases hp; exact hnode)
    (by simpa using hexit) hin (fun x hx t ht => ?_) hne, face_setParent hexit]
  rw [hsucc]
  exact hquiet x (hin _ _ (hstart x) ▸ hx) t ht

variable (body) in
/-- Edges into the head from outside go to the loop's node, which leads on behind the loop. -/
theorem succs_splice (hhead : c.head ≠ node) (x : NodeId) :
    ((splice c node exit body inside g).node x).succs =
      (if inside (g.node x) then (g.node x).succs else rename c.head node (g.node x).succs) ++
        if x = node then [c.next] else [] := by
  have hparted := face_parted hs hnode hexit hin hquiet hne
  have hsound : (parted c node exit inside g).Sound := moveExits_sound
    (hs.setParent exit fun p hp => by cases hp; exact hnode) c (by simpa using hexit) inside
  have hsize : (parted c node exit inside g).nodes.size = g.nodes.size := by simp [parted]
  have hsuccs : ∀ x, ((parted c node exit inside g).node x).succs = (g.node x).succs := fun x => by
    rw [← succs_face, hparted]
    split <;> rfl
  have hstart : ∀ x, ((parted c node exit inside g).node x).start = (g.node x).start := fun x => by
    rw [← start_face, hparted]
    split <;> rfl
  rw [node_splice, spliced, ((seated_keeps c node exit body).2.2 x).2, joined,
    succs_connect (by simpa [hsize] using hnode), hsound.succs_redirectPredecessors hhead,
    hin _ _ (hstart x), hsuccs]
  cases inside (g.node x) <;> rfl

end

/-- Edges in a `while`: those that leave it or go back to its head lead to its exit, those into the
head from outside to its node, which leads on behind it. -/
theorem succs_splice_while (hk : c.kind = .whileLoop) (hw : c.withExit = none) (hs : g.Sound)
    (hnode : node < g.nodes.size) (hexit : exit < g.nodes.size)
    (hin : ∀ n m : Node, n.start = m.start → inside n = inside m) (hnext : c.next ≠ exit)
    (hback : c.head ≠ exit) (hhead : c.head ≠ node) (x : NodeId) :
    ((splice c node exit body inside g).node x).succs =
      (if inside (g.node x) then rename c.head exit (rename c.next exit (g.node x).succs)
        else rename c.head node (g.node x).succs) ++ if x = node then [c.next] else [] := by
  have hs₁ : (g.setParent exit (some node)).Sound := hs.setParent exit fun p hp => by
    cases hp
    exact hnode
  have hs₂ := hs₁.redirectPredecessors c.next (by simpa using hexit) inside
  have hbreak : breakTarget? c = some c.next := by
    rw [breakTarget?, hw]
    exact if_neg (by rw [hk]; decide)
  have hparted : parted c node exit inside g = (((g.setParent exit (some node)).redirectPredecessors
      c.next exit inside).redirectPredecessors c.head exit inside) := by
    rw [parted, moveExits, hbreak]
    exact if_pos hk
  have hs₃ : (parted c node exit inside g).Sound := by
    rw [hparted]
    exact hs₂.redirectPredecessors c.head (by simpa using hexit) inside
  have hsize : (parted c node exit inside g).nodes.size = g.nodes.size := by simp [parted]
  have hstart : ∀ x, ((parted c node exit inside g).node x).start = (g.node x).start ∧
      (((g.setParent exit (some node)).redirectPredecessors c.next exit inside).node x).start =
        (g.node x).start := fun x => by
    rw [← gist_start, ← gist_start, ← gist_start, parted, gist_moveExits,
      gist_redirectPredecessors, gist_setParent]
    exact ⟨rfl, rfl⟩
  have hplace : ∀ x, ((g.setParent exit (some node)).node x).start = (g.node x).start := fun x => by
    rw [← gist_start, gist_setParent, gist_start]
  have hsuccs : ((parted c node exit inside g).node x).succs = if inside (g.node x) then
      rename c.head exit (rename c.next exit (g.node x).succs) else (g.node x).succs := by
    rw [hparted, hs₂.succs_redirectPredecessors hback, hs₁.succs_redirectPredecessors hnext,
      hin _ _ (hstart x).2, hin _ _ (hplace x), succs_setParent]
    split <;> rfl
  rw [node_splice, spliced, ((seated_keeps c node exit body).2.2 x).2, joined,
    succs_connect (by simpa [hsize] using hnode), hs₃.succs_redirectPredecessors hhead,
    hin _ _ (hstart x).1, hsuccs]
  cases inside (g.node x) <;> rfl

variable (node inside) in
/-- Before the slots of the loop's node are written, no slots have changed, nor the parent of the
head. -/
theorem joined_parted_keeps (hexit : c.head ≠ exit) (x : NodeId) :
    ((joined c node inside (parted c node exit inside g)).node x).children = (g.node x).children ∧
      ((joined c node inside (parted c node exit inside g)).node c.head).parent =
        (g.node c.head).parent := by
  have hbare : ∀ g : Graph, ((moveExits c exit inside g).node c.head).bare =
      (g.node c.head).bare := by
    intro g
    unfold moveExits
    cases breakTarget? c <;> dsimp only <;> split <;> simp [bare_redirectPredecessors]
  constructor
  · rw [((joined_keeps c node inside).2.2 x).2, (parted_pruned c node exit inside).children]
  · refine (parent_of_bare ((bare_connect ..).trans (bare_redirectPredecessors ..))).trans
      ((parent_of_bare (hbare _)).trans ?_)
    rw [setParent, node_modifyNode, if_neg fun h => hexit h.1]

/-- The loop's node takes the place of the head in the slots of its parent. -/
theorem children_splice_eq {x : NodeId} (hx : x ≠ node) (hexit : c.head ≠ exit) :
    ((splice c node exit body inside g).node x).children =
      if (g.node c.head).parent = some x then
        (g.node x).children.map fun d => if d == some c.head then some node else d
      else (g.node x).children := by
  have hw : ∀ g : Graph, ((g.writeSlot node Slot.loopExit (some exit)).node x).children =
      (g.node x).children := fun g => by
    rw [writeSlot, node_modifyNode, if_neg fun hi => hx hi.1]
  obtain ⟨hchildren, hparent⟩ := joined_parted_keeps node inside hexit x
  rw [node_splice, spliced, seated, children_setChild_of_ne hx, children_setChild_of_ne hx,
    children_setChild_of_ne hx, hw, children_replaceInParent_eq, hparent, hchildren]

/-- The slots of the loop's node. -/
theorem children_splice_self (hnode : node < g.nodes.size)
    (hparent : (g.node c.head).parent ≠ some node) (hexit : c.head ≠ exit)
    (hslots : (g.node node).children = List.replicate 4 none) :
    ((splice c node exit body inside g).node node).children =
      [some c.head, some c.tail, some exit, some body] := by
  obtain ⟨hchildren, hhead⟩ := joined_parted_keeps node inside hexit node
  have hsize : (joined c node inside (parted c node exit inside g)).nodes.size = g.nodes.size := by
    rw [(joined_keeps c node inside).1, (parted_pruned c node exit inside).size]
  have hw : ∀ g : Graph, node < g.nodes.size →
      ((g.writeSlot node Slot.loopExit (some exit)).node node).children =
        withSlot Slot.loopExit (some exit) (g.node node).children := fun g hg => by
    rw [← children_face, face_writeSlot hg, if_pos rfl]
    rfl
  rw [node_splice, spliced, seated, children_setChild_self (by simpa [hsize] using hnode),
    children_setChild_self (by simpa [hsize] using hnode),
    children_setChild_self (by simpa [hsize] using hnode), hw _ (by simpa [hsize] using hnode),
    children_replaceInParent_eq, hhead, if_neg hparent, hchildren, hslots]
  rfl

/-! ## The candidate -/

theorem candidatesIn_append_of_none {heads : List Nat} {bs rest : List NodeId}
    (h : ∀ b ∈ bs, (g.lastInstr? b).bind kind? = none) :
    candidatesIn g heads (bs ++ rest) = candidatesIn g heads rest := by
  induction bs with
  | nil => rfl
  | cons b bs ih =>
    have hb : ((g.lastInstr? b).bind fun last => (kind? last).map (last, ·)) = none := by
      have hb := h b (by simp)
      cases hlast : g.lastInstr? b with
      | none => rfl
      | some last =>
        rw [hlast] at hb
        change kind? last = none at hb
        simp [hb]
    rw [List.cons_append, candidatesIn, hb]
    exact ih fun b hb => h b (by simp [hb])

/-- The loop of a block, as the pass looks for it. -/
def candidateAt (g : Graph) (kind : LoopKind) (block : NodeId) (address target : Nat) :
    Except FlowError Candidate :=
  if kind = .withLoop then withCandidate g block address target
  else jumpCandidate g kind block address target

/-- A single block closes or opens a loop. -/
theorem candidates_of_lone {before after : List NodeId} {block : NodeId} {i : Instr}
    {kind : LoopKind} {target : Nat} (hblocks : g.blocks = before ++ block :: after)
    (hnone : ∀ b ∈ before ++ after, (g.lastInstr? b).bind kind? = none)
    (hlast : g.lastInstr? block = some i) (hkind : kind? i = some kind)
    (htarget : i.target? = some target) {c : Candidate}
    (hc : candidateAt g kind block i.address target = .ok c) : candidates g = .ok [c] := by
  have hfound : candidatesIn g [] g.blocks.reverse = .ok [c] := by
    have hrest : ∀ heads, candidatesIn g heads before.reverse = .ok [] := fun heads => by
      rw [← List.append_nil before.reverse, candidatesIn_append_of_none fun b hb =>
        hnone b (List.mem_append_left _ (List.mem_reverse.mp hb))]
      rfl
    have hblock : ((g.lastInstr? block).bind fun last => (kind? last).map (last, ·)) =
        some (i, kind) := by
      rw [hlast, Option.bind_some, hkind]
      rfl
    rw [hblocks, List.reverse_append, List.reverse_cons, List.append_assoc,
      candidatesIn_append_of_none fun b hb => hnone b (List.mem_append_right _
        (List.mem_reverse.mp hb)), List.singleton_append, candidatesIn, hblock]
    dsimp only
    rw [htarget]
    dsimp only
    rw [if_neg fun h => List.not_mem_nil h.2]
    unfold candidateAt at hc
    split at hc <;> rename_i hwith
    · rw [if_pos hwith, hc, ok_bind, hrest]
      rfl
    · rw [if_neg hwith, hc, ok_bind, hrest]
      rfl
  rw [candidates, hfound]
  exact congrArg Except.ok (List.mergeSort_singleton ..)

theorem findLoops_of_lone {c : Candidate} (hc : candidates g = .ok [c]) {n : NodeId} {g' : Graph}
    (h : (fold c).run g = .ok n g') : findLoops.run g = .ok [n] g' := by
  rw [findLoops, run_get_bind, hc]
  change ([c].mapM fold).run g = _
  rw [List.mapM_cons, run_bind_ok h]
  rfl

/-- What folding a loop leaves of a graph whose code and edges of the loop itself are gone: its node
after all others and its exit after that. -/
structure Spliced (c : Candidate) (info : LoopInfo) (body : NodeId) (inside : Node → Bool)
    (g g' : Graph) : Prop where
  size : g'.nodes.size = g.nodes.size + 2
  fragments : g'.fragments = g.fragments
  kind_node : (g'.node g.nodes.size).kind = .loop info
  succs_node : (g'.node g.nodes.size).succs = [c.next]
  children_node : (g'.node g.nodes.size).children =
    [some c.head, some c.tail, some (g.nodes.size + 1), some body]
  kind_exit : (g'.node (g.nodes.size + 1)).kind = .empty
  kind : ∀ x < g.nodes.size, (g'.node x).kind = (g.node x).kind
  succs : ∀ x < g.nodes.size, (g'.node x).succs =
    if inside (g.node x) then (g.node x).succs else rename c.head g.nodes.size (g.node x).succs
  children : ∀ x < g.nodes.size, (g'.node x).children =
    if (g.node c.head).parent = some x then
      (g.node x).children.map fun d => if d == some c.head then some g.nodes.size else d
    else (g.node x).children

/-- The part of a region that a node stands in. -/
def within (start stop : Nat) (n : Node) : Bool := start ≤ n.start && n.start < stop

theorem within_congr (start stop : Nat) (n m : Node) (h : n.start = m.start) :
    within start stop n = within start stop m := by
  rw [within, h]
  rfl

theorem fragments_redirectPredecessors (old new : NodeId) (p : Node → Bool) :
    (g.redirectPredecessors old new p).fragments = g.fragments :=
  foldl_keeps (·.fragments) (fun g a => fragments_replaceSuccessor g a old new) _ _

/-- What no edit of a node changes, nor the list of loops, putting in a loop's node leaves. -/
theorem splice_reads {β : Type} (read : Graph → β)
    (hmodify : ∀ g n f, read (modifyNode g n f) = read g)
    (hloops : ∀ g ls, read { g with loops := ls } = read g) (c : Candidate)
    (node exit body : NodeId) (inside : Node → Bool) :
    read (splice c node exit body inside g) = read g := by
  have hconnect : ∀ (g : Graph) a b, read (g.connect a b) = read g := fun g a b =>
    (hmodify ..).trans (hmodify ..)
  have hredirect : ∀ (g : Graph) old new p, read (g.redirectPredecessors old new p) = read g := by
    intro g old new p
    refine foldl_keeps read (fun g a => ?_) _ _
    unfold replaceSuccessor
    split
    · exact (hmodify ..).trans ((hmodify ..).trans (hmodify ..))
    · rfl
  have hmove : ∀ g : Graph, read (moveExits c exit inside g) = read g := by
    intro g
    unfold moveExits
    cases breakTarget? c <;> dsimp only <;> split <;> simp only [hredirect]
  have hparent : ∀ (g : Graph) old new, read (g.replaceInParent old new) = read g := by
    intro g old new
    unfold replaceInParent
    cases (g.node old).parent with
    | none => exact (hmodify ..).trans (hmodify ..)
    | some p => exact (hmodify ..).trans ((hmodify ..).trans (hmodify ..))
  have hslot : ∀ (g : Graph) n slot d, read (g.setChild n slot (some d)) = read g := fun g n slot d =>
    (hmodify ..).trans (hmodify ..)
  have hwrite : ∀ (g : Graph) n slot child, read (g.writeSlot n slot child) = read g :=
    fun g n slot child => hmodify ..
  have hset : ∀ (g : Graph) n p, read (g.setParent n p) = read g := fun g n p => hmodify ..
  simp only [splice, hloops, hslot, hwrite, hparent, hconnect, hredirect, hmove, hset]

/-- A graph with a loop's node and its exit, before either is put in place. -/
def withLoop (info : LoopInfo) (start stop : Nat) (g : Graph) : Graph :=
  (g.add (.ofKind (.loop info) start stop 4)).add (.ofKind .empty stop stop 0)

section

variable (info : LoopInfo) (start stop : Nat)

@[simp] theorem size_withLoop : (withLoop info start stop g).nodes.size = g.nodes.size + 2 := by
  simp [withLoop]

theorem sound_withLoop (hs : g.Sound) : (withLoop info start stop g).Sound := by
  refine (hs.add rfl rfl rfl ?_).add rfl rfl rfl ?_
  · exact fun _ h => List.eq_of_mem_replicate h
  · exact fun _ h => List.eq_of_mem_replicate h

theorem node_withLoop_of_lt {x : NodeId} (hx : x < g.nodes.size) :
    (withLoop info start stop g).node x = g.node x := by
  have hne : x ≠ g.nodes.size + 1 := Nat.ne_of_lt (Nat.lt_succ_of_lt hx)
  rw [withLoop, node_add, size_add, if_neg hne, node_add, if_neg (Nat.ne_of_lt hx)]

theorem node_withLoop_loop :
    (withLoop info start stop g).node g.nodes.size = .ofKind (.loop info) start stop 4 := by
  rw [withLoop, node_add, size_add, if_neg (Nat.ne_of_lt (Nat.lt_succ_self _)), node_add,
    if_pos rfl]

theorem node_withLoop_exit :
    (withLoop info start stop g).node (g.nodes.size + 1) = .ofKind .empty stop stop 0 := by
  rw [withLoop, node_add, size_add, if_pos rfl]

/-- What the two new nodes show as a missing node does, putting them in leaves at every node. -/
theorem reads_withLoop {β : Type} (read : Node → β)
    (hloop : read (.ofKind (.loop info) start stop 4) = read default)
    (hexit : read (.ofKind .empty stop stop 0) = read default) (x : NodeId) :
    read ((withLoop info start stop g).node x) = read (g.node x) := by
  rcases Nat.lt_or_ge x g.nodes.size with hlt | hge
  · rw [node_withLoop_of_lt info start stop hlt]
  · rw [node_of_size_le hge, withLoop, node_add, node_add]
    split
    · exact hexit
    · split
      · exact hloop
      · rw [node_of_size_le hge]

theorem succs_withLoop (x : NodeId) :
    ((withLoop info start stop g).node x).succs = (g.node x).succs :=
  reads_withLoop info start stop (·.succs) rfl rfl x

theorem instrs_withLoop (x : NodeId) :
    (withLoop info start stop g).instrs x = g.instrs x :=
  reads_withLoop info start stop (·.instrs) rfl rfl x

end

theorem fold_run_of_strip {c : Candidate} {info : LoopInfo} {body : NodeId} {g₁ : Graph}
    (hstrip : (strip c).run g = .ok (info, body) g₁) : (fold c).run g = .ok g₁.nodes.size
      (splice c g₁.nodes.size (g₁.nodes.size + 1) body
        (within (g.node c.head).start (g.node c.next).start)
        (withLoop info (g.node c.head).start (g.node c.next).start g₁)) := by
  rw [fold, run_get_bind, run_bind_ok hstrip]
  dsimp only
  rw [run_add_bind, run_add_bind, run_modify_bind, size_add]
  rfl

/-- Folding a loop whose inside neither breaks nor continues. -/
theorem fold_of_strip {c : Candidate} {info : LoopInfo} {body : NodeId} {g₁ : Graph}
    (hstrip : (strip c).run g = .ok (info, body) g₁) (hs : g₁.Sound) (hhead : c.head < g₁.nodes.size)
    (hbreak : ∀ t, breakTarget? c = some t → t < g₁.nodes.size)
    (hquiet : Quiet c (within (g.node c.head).start (g.node c.next).start) g₁) :
    ∃ g', (fold c).run g = .ok g₁.nodes.size g' ∧
      Spliced c info body (within (g.node c.head).start (g.node c.next).start) g₁ g' := by
  refine ⟨_, fold_run_of_strip hstrip, ?_⟩
  generalize (g.node c.head).start = start at *
  generalize (g.node c.next).start = stop at *
  have hquiet₂ : Quiet c (within start stop) (withLoop info start stop g₁) := by
    intro x hx t ht
    rw [succs_withLoop]
    by_cases hlt : x < g₁.nodes.size
    · rw [node_withLoop_of_lt info start stop hlt] at hx
      exact hquiet x hx t ht
    · rw [node_of_size_le (Nat.le_of_not_lt hlt)]
      exact List.not_mem_nil
  have hne : ∀ t, breakTarget? c = some t ∨ t = c.head → t ≠ g₁.nodes.size + 1 := by
    intro t ht
    have hlt : t < g₁.nodes.size := by
      rcases ht with ht | rfl
      · exact hbreak t ht
      · exact hhead
    exact Nat.ne_of_lt (Nat.lt_succ_of_lt hlt)
  have hsize := size_withLoop (g := g₁) info start stop
  have hnode : g₁.nodes.size < (withLoop info start stop g₁).nodes.size := by omega
  have hexit : g₁.nodes.size + 1 < (withLoop info start stop g₁).nodes.size := by omega
  have hsuccs := succs_splice body (sound_withLoop info start stop hs) hnode hexit
    (within_congr start stop) hquiet₂ hne (Nat.ne_of_lt hhead)
  have hloop := node_withLoop_loop (g := g₁) info start stop
  have hempty := node_withLoop_exit (g := g₁) info start stop
  have hsame := fun x => node_withLoop_of_lt (g := g₁) (x := x) info start stop
  have hfragments : (withLoop info start stop g₁).fragments = g₁.fragments := rfl
  generalize withLoop info start stop g₁ = g₂ at *
  have hkind : ∀ x, ((splice c g₁.nodes.size (g₁.nodes.size + 1) body (within start stop) g₂).node
      x).kind = (g₂.node x).kind := fun x => by
    rw [← gist_kind, gist_splice, gist_kind]
  refine ⟨?_, ?_, ?_, ?_, ?_, ?_, fun x hx => ?_, fun x hx => ?_, fun x hx => ?_⟩
  · rw [(splice_keeps ..).1, hsize]
  · rw [splice_reads (·.fragments) (fun _ _ _ => rfl) fun _ _ => rfl, hfragments]
  · rw [hkind, hloop]
    rfl
  · rw [hsuccs, hloop, if_pos rfl]
    cases within start stop (Node.ofKind (.loop info) start stop 4) <;> rfl
  · refine children_splice_self hnode ?_ (hne _ (.inr rfl)) (by rw [hloop]; rfl)
    rw [hsame _ hhead]
    exact fun h => Nat.lt_irrefl _ (hs.parents _ _ h)
  · rw [hkind, hempty]
    rfl
  · rw [hkind, hsame x hx]
  · rw [hsuccs, hsame x hx, if_neg (Nat.ne_of_lt hx), List.append_nil]
  · rw [children_splice_eq (Nat.ne_of_lt hx) (hne _ (.inr rfl)), hsame _ hhead, hsame x hx]

theorem Spliced.settled {c : Candidate} {info : LoopInfo} {body : NodeId} {inside : Node → Bool}
    {g' : Graph} (h : Spliced c info body inside g g') (hg : g.Settled) : g'.Settled := by
  intro x i hi
  rcases Nat.lt_or_ge x g.nodes.size with hlt | hge
  · refine hg x i ?_
    rw [instrs, Node.instrs, ← h.kind x hlt]
    exact hi
  · have hnone : g'.instrs x = [] := by
      rw [instrs, Node.instrs]
      rcases Nat.lt_or_eq_of_le hge with hgt | rfl
      · rcases Nat.lt_or_eq_of_le (Nat.succ_le_of_lt hgt) with hlt' | rfl
        · have hsize := h.size
          have hnode : g'.node x = default := node_of_size_le (by
            rw [hsize]
            exact hlt')
          rw [hnode]
          rfl
        · rw [h.kind_exit]
      · rw [h.kind_node]
    rw [hnone] at hi
    cases hi

/-! ## A loop's own code and edges -/

section

variable {c : Candidate}

/-- The graph of a `while` without the jump back. -/
def openTail (c : Candidate) (g : Graph) : Graph := (g.stripLast c.tail 1).disconnect c.tail c.head

/-- The graph without the last instructions of a block and the edges that it leads to. -/
def cutBlock (block : NodeId) (count : Nat) (g : Graph) : Graph :=
  (g.stripLast block count).disconnectSuccessors block

/-- What the place of a loop's blocks says of it. -/
def placed (c : Candidate) (g : Graph) : LoopInfo :=
  { kind := c.kind, continueAddress := (g.node c.tail).start
    breakAddress := some (g.node c.next).start }

theorem strip_while (hk : c.kind = .whileLoop) {condition body : NodeId}
    (hcondition : whileCondition? (openTail c g) (g.node c.head).start
      ((g.node c.tail).start + 1) (g.node c.next).start = some condition)
    (hbody : ((openTail c g).node condition).succs.head? = some body) :
    (strip c).run g = .ok ({ placed c g with
      continueAddress := (g.node c.head).start
      stepAddress := if (g.node c.tail).start ≠ (g.node c.head).start
        then some (g.node c.tail).start else none
      hasCondition := true }, body) (cutBlock condition 1 (openTail c g)) := by
  rw [strip, run_get_bind]
  dsimp only
  rw [hk]
  dsimp only
  rw [run_modify_bind, run_modify_bind, run_get_bind]
  split
  · rename_i hnone
    cases hnone.symm.trans hcondition
  · rename_i found hfound
    cases hfound.symm.trans hcondition
    change ((Pass.require _ ((openTail c g).node condition).succs.head?) >>= _).run _ = _
    rw [hbody, placed, hk]
    rfl

/-- A `while` without a condition. -/
theorem strip_endless (hk : c.kind = .whileLoop)
    (hcondition : whileCondition? (openTail c g) (g.node c.head).start
      ((g.node c.tail).start + 1) (g.node c.next).start = none) :
    (strip c).run g = .ok ({ placed c g with
      continueAddress := (g.node c.head).start
      stepAddress := if (g.node c.tail).start ≠ (g.node c.head).start
        then some (g.node c.tail).start else none }, c.head) (openTail c g) := by
  rw [strip, run_get_bind]
  dsimp only
  rw [hk]
  dsimp only
  rw [run_modify_bind, run_modify_bind, run_get_bind]
  split
  · rw [placed, hk]
    rfl
  · rename_i found hfound
    cases hfound.symm.trans hcondition

theorem strip_doUntil (hk : c.kind = .doUntil) :
    (strip c).run g = .ok (placed c g, c.head) (cutBlock c.tail 1 g) := by
  rw [strip, run_get_bind]
  dsimp only
  rw [hk]
  dsimp only
  rw [run_modify_bind, run_modify_bind, placed, hk]
  rfl

theorem strip_repeat (hk : c.kind = .repeatLoop) {before : NodeId} (hbefore : c.before = some before)
    (hcheck : isCounterCheck g before = true) (htail : 5 ≤ (g.instrs c.tail).length) :
    (strip c).run g = .ok (placed c g, c.head)
      (dropCounter c.next (cutBlock c.tail 5 ((g.stripLast before 4).disconnect before c.next))) := by
  have hfault : (!isCounterCheck g before || decide ((g.instrs c.tail).length < 5)) = false := by
    simp [hcheck, Nat.not_lt.mpr htail]
  rw [strip, run_get_bind]
  dsimp only
  rw [hk, hbefore]
  dsimp only [Pass.require]
  rw [placed, hk]
  change (if _ then _ else _ : Pass (LoopInfo × NodeId)).run g = _
  rw [if_neg (by rw [hfault]; simp)]
  rfl

theorem strip_with (hk : c.kind = .withLoop) {before : NodeId} (hbefore : c.before = some before)
    (hexit : c.withExit = none) :
    (strip c).run g = .ok ({ placed c g with breakAddress := none }, c.head)
      (cutBlock c.tail 1 ((g.stripLast before 1).disconnect before c.tail)) := by
  rw [strip, run_get_bind]
  dsimp only
  rw [hk, hbefore, hexit, placed, hk]
  rfl

theorem strip_withExit (hk : c.kind = .withLoop) {before jump drop : NodeId}
    (hbefore : c.before = some before) (hexit : c.withExit = some (jump, drop)) :
    let stripped := cutBlock drop 1 (cutBlock jump 1
      (cutBlock c.tail 1 ((g.stripLast before 1).disconnect before c.tail)))
    (strip c).run g = .ok ({ placed c g with
      breakAddress := some (stripped.node drop).start }, c.head) stripped := by
  rw [strip, run_get_bind]
  dsimp only
  rw [hk, hbefore, hexit, placed, hk]
  rfl

end

end Loops

end GmlLift
