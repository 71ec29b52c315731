import Mathlib.Data.List.Perm.Subperm
import Mathlib.Logic.Relation
import GmlLift.Proofs.Build.Visits

/-! # How deep building nests

A chain never visits a node twice, but a composite builds the chains of its children inside its own
visit, and nothing keeps such a chain from leading back to the composite. Where no node lies inside
itself in this way, nodes nest no deeper than there are nodes; where one does, building it never
comes to an end. -/
namespace GmlLift

open Relation

namespace Graph

/-- The nodes on the chains that a visit of a node builds. -/
def inner (g : Graph) (n : NodeId) : List NodeId :=
  Visits.below g (Visits.chain g fun m => [m]) (g.node n)

/-- One node is on a chain of another. -/
def Nests (g : Graph) (n m : NodeId) : Prop := m ∈ g.inner n

/-- Nodes that building comes to, the root among them. -/
def Reached (g : Graph) (n : NodeId) : Prop := ∃ r, g.root? = some r ∧ ReflTransGen g.Nests r n

/-- A node that its own chains lead back to, at any depth. -/
def InsideItself (g : Graph) (n : NodeId) : Prop := TransGen g.Nests n n

end Graph

namespace Build

/-- Build a node with something else in the place of what nests `depth` deep. -/
def nodeFrom (ctx : Context) (bottom : NodeId → Builder (List Stmt)) :
    (depth : Nat) → NodeId → Builder (List Stmt)
  | 0, n => bottom n
  | depth + 1, n => visit ctx (chain ctx.graph (nodeFrom ctx bottom depth)) (ctx.graph.node n)

/-- Build the root entry with something else in the place of what nests `depth` deep. -/
def rootFrom (graph : Graph) (game : Game) (settings : Settings)
    (bottom : NodeId → Builder (List Stmt)) (depth : Nat) :
    Except BuildError (List Stmt × State) := do
  match graph.root? with
  | none => throw (.malformed .noRoot)
  | some root =>
    let n := graph.node root
    match n.kind with
    | .fragment entry argumentCount _ =>
      let ctx : Context := { graph, game, settings }
      let build : Builder (List Stmt) := do
        let body ← chain graph (nodeFrom ctx bottom depth) (child n Slot.head)
        finish settings
        return body
      build.run { frame := { entry, argumentCount } }
    | _ => throw (.malformed .rootNotFragment)

/-- The failure that stands at the bottom of what is built. -/
def endless (g : Graph) (n : NodeId) : Builder (List Stmt) :=
  throw (.malformed (.endless (g.node n).start))

theorem nodeFrom_endless (ctx : Context) (depth : Nat) :
    nodeFrom ctx (endless ctx.graph) depth = node ctx depth := by
  induction depth with
  | zero => rfl
  | succ depth ih =>
    funext n
    rw [nodeFrom, ih]
    rfl

theorem rootFrom_endless (g : Graph) (game : Game) (settings : Settings) :
    rootFrom g game settings (endless g) (depthBound g) = root g game settings := by
  have hnode : nodeFrom ⟨g, game, settings⟩ (endless g) (depthBound g) =
      node ⟨g, game, settings⟩ (depthBound g) := nodeFrom_endless ⟨g, game, settings⟩ _
  unfold rootFrom
  simp only [hnode]
  rfl

/-! ## What a visit asks for -/

section

variable {ctx : Context} {chain chain' : Option NodeId → Builder (List Stmt)}

theorem operands_congr {address : Nat} {ns : List NodeId}
    (h : ∀ n ∈ ns, chain (some n) = chain' (some n)) :
    operands chain address ns = operands chain' address ns := by
  induction ns with
  | nil => rfl
  | cons n ns ih =>
    simp only [operands]
    rw [h n (by simp), ih fun m hm => h m (by simp [hm])]

theorem cases_congr {address : Nat} {values : List Expr} {ns : List NodeId}
    (h : ∀ n ∈ ns, chain (ctx.graph.node n).succs.head? = chain' (ctx.graph.node n).succs.head?) :
    cases ctx chain address values ns = cases ctx chain' address values ns := by
  induction ns with
  | nil => rfl
  | cons n ns ih =>
    simp only [cases]
    rw [h n (by simp), ih fun m hm => h m (by simp [hm])]

theorem optionalBody_congr {head : Option NodeId} (h : chain head = chain' head) :
    optionalBody chain head = optionalBody chain' head := by
  cases head with
  | none => rfl
  | some head => simp only [optionalBody, h]

/-- A visit asks for the chains below the node and for no other. -/
theorem visit_congr (path : Option NodeId → List NodeId) {n : Node}
    (h : ∀ start, (∀ m ∈ path start, m ∈ Visits.below ctx.graph path n) →
      chain start = chain' start) : visit ctx chain n = visit ctx chain' n := by
  unfold visit
  cases hn : n.kind with
  | block is => rfl
  | fragment entry argumentCount blocks =>
    have hhead := h (child n Slot.head) fun m hm => by rw [Visits.below, hn]; exact hm
    dsimp only
    rw [function, function, hhead]
  | loop info =>
    have hhead := h (child n Slot.loopHead) fun m hm => by
      rw [Visits.below, hn]
      exact List.mem_append_left _ hm
    dsimp only
    unfold loop
    cases hk : info.kind with
    | whileLoop =>
      cases hc : info.hasCondition with
      | false => simp only [hhead, Bool.false_eq_true, if_false]
      | true =>
        have hbody := h (child n Slot.loopBody) fun m hm => by
          rw [Visits.below, hn]
          refine List.mem_append_right _ ?_
          rw [if_pos ⟨hk, hc⟩]
          exact hm
        simp only [hhead, hbody]
    | doUntil | repeatLoop | withLoop => simp only [hhead]
  | branch =>
    have hcondition := h (child n Slot.condition) fun m hm => by
      rw [Visits.below, hn]
      exact List.mem_append_left _ hm
    have htrue := h (child n Slot.onTrue) fun m hm => by
      rw [Visits.below, hn]
      exact List.mem_append_right _ (List.mem_append_left _ hm)
    have hfalse := h (child n Slot.onFalse) fun m hm => by
      rw [Visits.below, hn]
      exact List.mem_append_right _ (List.mem_append_right _ hm)
    simp only [branch, hcondition, htrue, hfalse, optionalBody_congr hfalse]
  | shortCircuit op =>
    have heach : ∀ c ∈ n.children.filterMap id, chain (some c) = chain' (some c) := by
      intro c hc
      refine h (some c) fun m hm => ?_
      rw [Visits.below, hn]
      exact List.mem_flatMap.mpr ⟨c, hc, hm⟩
    dsimp only
    rw [operands_congr heach]
  | staticInit | nullish =>
    have hhead := h (child n Slot.head) fun m hm => by rw [Visits.below, hn]; exact hm
    simp only [hhead]
  | tryCatch name =>
    have hbody := h (child n Slot.tryBody) fun m hm => by
      rw [Visits.below, hn]
      exact List.mem_append_left _ hm
    have hcatch := h (child n Slot.catchBody) fun m hm => by
      rw [Visits.below, hn]
      exact List.mem_append_right _ (List.mem_append_left _ hm)
    have hfinally := h (child n Slot.finallyBody) fun m hm => by
      rw [Visits.below, hn]
      exact List.mem_append_right _ (List.mem_append_right _ hm)
    simp only [hbody, optionalBody_congr hcatch, optionalBody_congr hfinally]
  | switch values =>
    have heach : ∀ c ∈ n.children.filterMap id,
        chain (ctx.graph.node c).succs.head? = chain' (ctx.graph.node c).succs.head? := by
      intro c hc
      refine h _ fun m hm => ?_
      rw [Visits.below, hn]
      exact List.mem_flatMap.mpr ⟨c, hc, hm⟩
    simp only [cases_congr heach]
  | switchCase _ | breakJump | continueJump | empty => rfl

theorem lift_ok_bind {α β : Type} (a : α) (f : α → Builder β) :
    (StateT.lift (Except.ok a) >>= f : Builder β) = f a := rfl

/-- A chain asks for visits of the nodes on it and of no other. -/
theorem chainFrom_congr {g : Graph} {visit visit' : NodeId → Builder (List Stmt)} {fuel : Nat}
    {seen : List NodeId} {start : Option NodeId}
    (h : ∀ n ∈ Visits.chainFrom g (fun m => [m]) fuel seen start, visit n = visit' n) :
    chainFrom g visit fuel seen start = chainFrom g visit' fuel seen start := by
  induction fuel generalizing seen start with
  | zero => rfl
  | succ fuel ih =>
    cases start with
    | none => rfl
    | some n =>
      unfold Visits.chainFrom at h
      unfold chainFrom
      split
      · rfl
      · rename_i hgo
        rw [if_neg hgo] at h
        rw [h n (by simp)]
        congr 1
        funext out
        cases hnext : next g n with
        | error e => rfl
        | ok following =>
          rw [hnext] at h
          rw [lift_ok_bind, lift_ok_bind, ih fun m hm => h m (List.mem_append_right _ hm)]

end

/-! ## Nodes that do not lie inside themselves -/

section

variable {g : Graph}

theorem lt_size_of_nests {n m : NodeId} (h : g.Nests n m) : n < g.nodes.size := by
  by_contra hle
  have hnone : g.nodes.get? n = none := Array.getElem?_eq_none (Nat.le_of_not_lt hle)
  rw [Graph.Nests, Graph.inner, Graph.node, hnone] at h
  cases h

/-- There are no more different nodes than slots. -/
theorem length_le_size {ns : List NodeId} (hnodup : ns.Nodup) (h : ∀ n ∈ ns, n < g.nodes.size) :
    ns.length ≤ g.nodes.size := by
  have hsub : ns ⊆ List.range g.nodes.size := fun n hn => List.mem_range.mpr (h n hn)
  simpa using (List.subperm_of_subset hnodup hsub).length_le

/-- The nodes around one that does not lie inside itself are different from it and from one another,
so before the depth passes their number building is at a node that nests nothing. -/
theorem nodeFrom_eq {ctx : Context} {bottom bottom' : NodeId → Builder (List Stmt)}
    {n : NodeId} (hn : ∀ m, ReflTransGen ctx.graph.Nests n m → ¬ ctx.graph.InsideItself m)
    {around : List NodeId} (hnodup : around.Nodup)
    (haround : ∀ a ∈ around, a < ctx.graph.nodes.size ∧ TransGen ctx.graph.Nests a n)
    {depth depth' : Nat} (hdepth : ctx.graph.nodes.size < depth + around.length)
    (hdepth' : ctx.graph.nodes.size < depth' + around.length) :
    nodeFrom ctx bottom depth n = nodeFrom ctx bottom' depth' n := by
  have hlength := length_le_size hnodup fun a ha => (haround a ha).1
  induction depth generalizing n around depth' with
  | zero => omega
  | succ depth ih =>
    cases depth' with
    | zero => omega
    | succ depth' =>
      have hnew : n ∉ around := fun hm => hn n .refl (haround n hm).2
      simp only [nodeFrom]
      refine visit_congr (Visits.chain ctx.graph fun m => [m]) fun start hstart =>
        chainFrom_congr fun m hm => ?_
      have hnests : ctx.graph.Nests n m := hstart m hm
      have hlt := lt_size_of_nests hnests
      have haround' : ∀ a ∈ n :: around,
          a < ctx.graph.nodes.size ∧ TransGen ctx.graph.Nests a m := by
        intro a ha
        rcases List.mem_cons.mp ha with rfl | ha
        · exact ⟨hlt, .single hnests⟩
        · exact ⟨(haround a ha).1, (haround a ha).2.tail hnests⟩
      have hnodup' : (n :: around).Nodup := List.nodup_cons.mpr ⟨hnew, hnodup⟩
      have hcount : (n :: around).length = around.length + 1 := rfl
      exact ih (fun k hk => hn k (.head hnests hk)) hnodup' haround' (by omega) (by omega)
        (length_le_size hnodup' fun a ha => (haround' a ha).1)

end

/-- Where no node that building comes to lies inside itself, nodes nest no deeper than there are
nodes: whatever stands below that depth is never asked for. -/
theorem rootFrom_eq_root {g : Graph} (h : ∀ n, g.Reached n → ¬ g.InsideItself n) (game : Game)
    (settings : Settings) (bottom : NodeId → Builder (List Stmt)) {depth : Nat}
    (hdepth : g.nodes.size < depth) :
    rootFrom g game settings bottom depth = root g game settings := by
  have hbound : g.nodes.size < depthBound g := by
    unfold depthBound
    exact Nat.lt_of_lt_of_le (Nat.lt_succ_self _) (Nat.le_mul_of_pos_right _ (Nat.succ_pos _))
  rw [← rootFrom_endless]
  unfold rootFrom
  cases hroot : g.root? with
  | none => rfl
  | some r =>
    have hsame : ∀ n ∈ Visits.chain g (fun m => [m]) (child (g.node r) Slot.head),
        (g.node r).isFragment = true →
        nodeFrom ⟨g, game, settings⟩ bottom depth n =
          nodeFrom ⟨g, game, settings⟩ (endless g) (depthBound g) n := by
      intro n hn hk
      have hnests : g.Nests r n := by
        unfold Node.isFragment at hk
        split at hk
        · rename_i hkind
          rw [Graph.Nests, Graph.inner, Visits.below, hkind]
          exact hn
        · cases hk
      exact nodeFrom_eq (fun m hm => h m ⟨r, hroot, .head hnests hm⟩) .nil (by simp) hdepth hbound
    dsimp only
    split
    · rename_i entry argumentCount blocks hk
      have hchain : chain g (nodeFrom ⟨g, game, settings⟩ bottom depth)
          (child (g.node r) Slot.head) =
          chain g (nodeFrom ⟨g, game, settings⟩ (endless g) (depthBound g))
            (child (g.node r) Slot.head) :=
        chainFrom_congr fun n hn => hsame n hn (by rw [Node.isFragment, hk])
      rw [hchain]
    · rfl

/-- No node lies inside itself where each ranks above those it nests. -/
theorem not_insideItself_of_rank {g : Graph} (rank : NodeId → Nat)
    (h : ∀ n ∈ List.range g.nodes.size, ∀ m ∈ g.inner n, rank m < rank n) (n : NodeId) :
    ¬ g.InsideItself n := by
  have hdown : ∀ m, TransGen g.Nests n m → rank m < rank n := by
    intro m hm
    induction hm with
    | single hm => exact h _ (List.mem_range.mpr (lt_size_of_nests hm)) _ hm
    | tail _ hm ih =>
      have := h _ (List.mem_range.mpr (lt_size_of_nests hm)) _ hm
      omega
  exact fun hn => Nat.lt_irrefl _ (hdown n hn)

theorem rootFrom_eq_root_twoCalls : ∃ g, analyze twoCalls (Game.handlerLayout {}) = .ok g ∧
    (∀ n, g.Reached n → ¬ g.InsideItself n) ∧ g.nodes.size = 7 ∧
    ∀ bottom, rootFrom g {} {} bottom 8 = root g {} {} := by
  have hrun : ((analyze twoCalls (Game.handlerLayout {})).toOption.any fun g =>
      decide (g.nodes.size = 7 ∧ ∀ n ∈ List.range g.nodes.size, ∀ m ∈ g.inner n,
        [0, 0, 0, 0, 0, 2, 1].getD m 0 < [0, 0, 0, 0, 0, 2, 1].getD n 0)) = true := by
    decide +kernel
  obtain ⟨g, hg, hfacts⟩ := ok_of_any hrun
  obtain ⟨hsize, hrank⟩ := of_decide_eq_true hfacts
  have hacyclic : ∀ n, g.Reached n → ¬ g.InsideItself n := fun n _ =>
    not_insideItself_of_rank _ hrank n
  exact ⟨g, hg, hacyclic, hsize, fun bottom =>
    rootFrom_eq_root hacyclic {} {} bottom (by omega)⟩

/-! ## A node that lies inside itself -/

section

variable {g : Graph} {visit : NodeId → Builder (List Stmt)} {fuel : Nat} {seen : List NodeId}
  {n : NodeId}

/-- A builder that does nothing. -/
def Idle (b : Builder (List Stmt)) : Prop := ∀ s, b s = .ok ([], s)

/-- A builder that runs into the bottom. -/
def Sinks {α : Type} (b : Builder α) : Prop := ∀ s, ∃ a, b s = .error (.malformed (.endless a))

theorem Sinks.bind {α β : Type} {b : Builder α} (h : Sinks b) (f : α → Builder β) :
    Sinks (b >>= f) := by
  intro s
  obtain ⟨a, ha⟩ := h s
  exact ⟨a, by change (b s >>= _) = _; rw [ha]; rfl⟩

theorem Idle.bind_sinks {α : Type} {b : Builder (List Stmt)} (h : Idle b)
    {f : List Stmt → Builder α} (hf : Sinks (f [])) : Sinks (b >>= f) := by
  intro s
  obtain ⟨a, ha⟩ := hf s
  exact ⟨a, by change (b s >>= _) = _; rw [h s]; exact ha⟩

theorem Idle.bind {b : Builder (List Stmt)} (h : Idle b) {f : List Stmt → Builder (List Stmt)}
    (hf : Idle (f [])) : Idle (b >>= f) := by
  intro s
  change (b s >>= _) = _
  rw [h s]
  exact hf s

theorem idle_pure : Idle (pure []) := fun _ => rfl

theorem idle_execute (game : Game) : Idle (execute game []) := by
  intro s
  change Except.ok ([], { s with executed := s.executed ++ [] }) = _
  rw [List.append_nil]

theorem chainFrom_eq (hgo : (seen.contains n || isCase (g.node n)) = false)
    {following : Option NodeId} (hnext : next g n = .ok following) :
    chainFrom g visit (fuel + 1) seen (some n) = (do
      let out ← visit n
      return out ++ (← chainFrom g visit fuel (n :: seen) following)) := by
  rw [chainFrom, if_neg (by rw [hgo]; simp), hnext]
  rfl

theorem chainFrom_none : chainFrom g visit fuel seen none = pure [] := by cases fuel <;> rfl

theorem Idle.chainFrom_sinks (hv : Idle (visit n))
    (hgo : (seen.contains n || isCase (g.node n)) = false) {following : Option NodeId}
    (hnext : next g n = .ok following)
    (hrest : Sinks (chainFrom g visit fuel (n :: seen) following)) :
    Sinks (chainFrom g visit (fuel + 1) seen (some n)) := by
  rw [chainFrom_eq hgo hnext]
  exact hv.bind_sinks (hrest.bind _)

theorem Sinks.chainFrom (hv : Sinks (visit n))
    (hgo : (seen.contains n || isCase (g.node n)) = false) :
    Sinks (chainFrom g visit (fuel + 1) seen (some n)) := by
  rw [Build.chainFrom, if_neg (by rw [hgo]; simp)]
  exact hv.bind _

end

/-- A `try` whose `catch` goes back to before the hook once its statics are set. -/
def catchAtHook : CodeEntry := .ofInstrs "catch_at_hook"
  [⟨0, .push, none, .int32, .double, .int32 64⟩, ⟨8, .conv, none, .int32, .var, .none⟩,
    ⟨12, .push, none, .int32, .double, .int32 52⟩, ⟨20, .conv, none, .int32, .var, .none⟩,
    ⟨24, .call, none, .int32, .double, .call Hook.try_ 2⟩, ⟨32, .popz, none, .var, .double, .none⟩,
    ⟨36, .call, none, .int32, .double, .call Hook.unhook 0⟩,
    ⟨44, .popz, none, .var, .double, .none⟩, ⟨48, .b, none, .double, .double, .branch 16⟩,
    ⟨52, .extended, some .hasStatic, .int16, .double, .none⟩,
    ⟨56, .bt, none, .double, .double, .branch (-56)⟩, ⟨60, .b, none, .double, .double, .branch 4⟩,
    ⟨64, .exit, none, .int32, .double, .none⟩]

/-- Nodes that building keeps going round: the `catch` of a statement leads to an initializer, that
back to the block before the statement, and the block to the statement again. -/
structure GoesRound (g : Graph) (before guard try_ body handler : NodeId) : Prop where
  size : 4 ≤ g.nodes.size
  distinct : [handler, guard, before, try_].Nodup
  hollow : ∀ n ∈ [before, body, handler], (g.node n).kind = .block []
  static : (g.node guard).kind = .staticInit ∧ child (g.node guard) Slot.head = none
  handled : ∃ name, (g.node try_).kind = .tryCatch name
  tryBody : child (g.node try_) Slot.tryBody = some body
  catchBody : child (g.node try_) Slot.catchBody = some handler
  after_body : (g.node body).succs = []
  after_handler : (g.node handler).succs = [guard]
  after_guard : (g.node guard).succs = [before]
  after_before : (g.node before).succs = [try_]

namespace GoesRound

variable {g : Graph} {before guard try_ body handler : NodeId}
  (h : GoesRound g before guard try_ body handler)
include h

theorem idle_visit (game : Game) (settings : Settings) (chain : Option NodeId → Builder (List Stmt))
    (hnone : Idle (chain none)) {n : NodeId} (hn : n ∈ [guard, before, body, handler]) :
    Idle (visit ⟨g, game, settings⟩ chain (g.node n)) := by
  rcases List.mem_cons.mp hn with rfl | hn
  · rw [visit, h.static.1]
    dsimp only
    rw [h.static.2]
    exact hnone.bind idle_pure
  · rw [visit, h.hollow n hn]
    exact idle_execute game

theorem isCase_eq {n : NodeId} (hn : n ∈ [try_, guard, before, body, handler]) :
    isCase (g.node n) = false := by
  rcases List.mem_cons.mp hn with rfl | hn
  · obtain ⟨name, hk⟩ := h.handled
    rw [isCase, hk]
  · rcases List.mem_cons.mp hn with rfl | hn
    · rw [isCase, h.static.1]
    · rw [isCase, h.hollow n hn]

/-- However deep building goes, it comes to the statement again. -/
theorem sinks_try (game : Game) (settings : Settings) (depth : Nat) :
    Sinks (nodeFrom ⟨g, game, settings⟩ (endless g) depth try_) := by
  obtain ⟨size, hsize⟩ : ∃ size, g.nodes.size = size + 3 :=
    ⟨_, (Nat.sub_add_cancel (Nat.le_of_succ_le h.size)).symm⟩
  obtain ⟨name, hk⟩ := h.handled
  have hbody : ∀ visit, chain g visit (some body) = (do return (← visit body) ++ []) := by
    intro visit
    have hnext : next g body = .ok none := by rw [next, h.after_body]
    rw [chain, chainFrom_eq (by simp [h.isCase_eq]) hnext, chainFrom_none]
    rfl
  have hdistinct := h.distinct
  simp only [List.nodup_cons, List.mem_cons, List.not_mem_nil, or_false, not_or] at hdistinct
  obtain ⟨⟨hg, hb, ht⟩, ⟨hb', ht'⟩, ht'', -⟩ := hdistinct
  induction depth with
  | zero => exact fun s => ⟨_, rfl⟩
  | succ depth ih =>
    rw [nodeFrom, visit, hk]
    dsimp only
    rw [h.tryBody, h.catchBody]
    cases depth with
    | zero =>
      refine Sinks.bind ?_ _
      rw [hbody]
      exact Sinks.bind (fun s => ⟨_, rfl⟩) _
    | succ depth =>
      have hidle : ∀ n ∈ [guard, before, body, handler],
          Idle (nodeFrom ⟨g, game, settings⟩ (endless g) (depth + 1) n) := fun n hn =>
        h.idle_visit game settings _ (fun s => rfl) hn
      refine Idle.bind_sinks ?_ (Sinks.bind (Sinks.bind ?_ _) _)
      · rw [hbody]
        exact (hidle body (by simp)).bind idle_pure
      · -- the chain of the handler passes the initializer and the block, and is at the statement
        have hcase := fun n hn => @isCase_eq _ _ _ _ _ _ h n hn
        have hguard : next g handler = .ok (some guard) := by rw [next, h.after_handler]
        have hbefore : next g guard = .ok (some before) := by rw [next, h.after_guard]
        have htry : next g before = .ok (some try_) := by rw [next, h.after_before]
        rw [chain, hsize]
        refine (hidle handler (by simp)).chainFrom_sinks (by simp [hcase]) hguard ?_
        refine (hidle guard (by simp)).chainFrom_sinks (by simp [hcase, Ne.symm hg]) hbefore ?_
        refine (hidle before (by simp)).chainFrom_sinks
          (by simp [hcase, Ne.symm hb, Ne.symm hb']) htry ?_
        exact ih.chainFrom (by simp [hcase, Ne.symm ht, Ne.symm ht', Ne.symm ht''])

end GoesRound

/-- The kind of a node, as far as it is looked at here. -/
def shape (n : Node) : Nat := match n.kind with
  | .block [] => 0
  | .staticInit => 1
  | .tryCatch _ => 2
  | .fragment .. => 3
  | _ => 4

theorem kind_of_shape (n : Node) : (shape n = 0 → n.kind = .block []) ∧
    (shape n = 1 → n.kind = .staticInit) ∧ (shape n = 2 → ∃ name, n.kind = .tryCatch name) ∧
    (shape n = 3 → ∃ entry argumentCount blocks, n.kind = .fragment entry argumentCount blocks) := by
  unfold shape
  split <;> rename_i hk <;> simp [hk]

/-- Building the code never comes to an end: it is at the bottom whatever the depth. -/
theorem rootFrom_catchAtHook : ∃ g, analyze catchAtHook (Game.handlerLayout {}) = .ok g ∧
    ∀ game settings depth, ∃ a,
      rootFrom g game settings (endless g) depth = .error (.malformed (.endless a)) := by
  have hrun : ((analyze catchAtHook (Game.handlerLayout {})).toOption.any fun g =>
      decide (g.nodes.size = 9 ∧ g.root? = some 6 ∧
        [0, 1, 2, 6, 7, 8].map (fun n => shape (g.node n)) = [0, 0, 0, 3, 1, 2] ∧
        [1, 2, 7, 0].map (fun n => (g.node n).succs) = [[], [7], [0], [8]] ∧
        [6, 7, 8].map (fun n => (g.node n).children) =
          [[some 0], [none], [some 1, some 2, none]])) = true := by
    decide +kernel
  obtain ⟨g, hg, hfacts⟩ := ok_of_any hrun
  obtain ⟨hsize, hroot, hshapes, hsuccs, hchildren⟩ := of_decide_eq_true hfacts
  simp only [List.map_cons, List.map_nil, List.cons.injEq, and_true] at hshapes hsuccs hchildren
  obtain ⟨h₀, h₁, h₂, h₆, h₇, h₈⟩ := hshapes
  obtain ⟨hafter₁, hafter₂, hafter₇, hafter₀⟩ := hsuccs
  obtain ⟨hslots₆, hslots₇, hslots₈⟩ := hchildren
  have hollow : ∀ {n : NodeId}, shape (g.node n) = 0 → (g.node n).kind = .block [] := fun hn =>
    (kind_of_shape _).1 hn
  have hround : GoesRound g 0 7 8 1 2 := by
    refine ⟨by omega, by decide, ?_, ⟨(kind_of_shape _).2.1 h₇, ?_⟩, (kind_of_shape _).2.2.1 h₈, ?_,
      ?_, hafter₁, hafter₂, hafter₇, hafter₀⟩
    · simp [hollow h₀, hollow h₁, hollow h₂]
    · rw [child, hslots₇]; rfl
    · rw [child, hslots₈]; rfl
    · rw [child, hslots₈]; rfl
  refine ⟨g, hg, fun game settings depth => ?_⟩
  obtain ⟨entry, argumentCount, blocks, hk⟩ := (kind_of_shape _).2.2.2 h₆
  have hsinks : Sinks (chain g (nodeFrom ⟨g, game, settings⟩ (endless g) depth) (some 0)) := by
    have hcase := fun n hn => @GoesRound.isCase_eq _ _ _ _ _ _ hround n hn
    have htry := hround.sinks_try game settings depth
    rw [chain, hsize]
    cases depth with
    | zero => exact Sinks.chainFrom (fun s => ⟨_, rfl⟩) (by simp [hcase])
    | succ depth =>
      have hidle := hround.idle_visit game settings
        (chain g (nodeFrom ⟨g, game, settings⟩ (endless g) depth)) (fun s => rfl) (n := 0) (by simp)
      have hnext : next g 0 = .ok (some 8) := by rw [next, hafter₀]
      exact Idle.chainFrom_sinks hidle (by simp [hcase]) hnext (htry.chainFrom (by simp [hcase]))
  have hhead : child (g.node 6) Slot.head = some 0 := by rw [child, hslots₆]; rfl
  unfold rootFrom
  rw [hroot]
  dsimp only
  rw [hk]
  dsimp only
  rw [hhead]
  exact (hsinks.bind _) _

end Build

end GmlLift
