import GmlLift.Flow.Blocks
import GmlLift.Proofs.Flow.Edges
import GmlLift.Proofs.Flow.Outcome

/-! # The graph of basic blocks

Connecting blocks adds edges and nothing else, so the blocks stay as they were cut. -/
namespace GmlLift

open GmlLift.Graph

namespace Blocks

variable {g : Graph}

/-- What a graph has besides its edges and the marks of dead code. -/
structure Wired (base g : Graph) : Prop where
  sound : g.Sound
  size : g.nodes.size = base.nodes.size
  blocks : g.blocks = base.blocks
  fragments : g.fragments = base.fragments
  start : ∀ i, (g.node i).start = (base.node i).start
  stop : ∀ i, (g.node i).stop = (base.node i).stop
  kind : ∀ i, (g.node i).kind = (base.node i).kind

variable {base : Graph}

theorem Wired.connect (h : Wired base g) {a b : NodeId} (ha : a ∈ base.blocks)
    (hb : b ∈ base.blocks) : Wired base (g.connect a b) where
  sound := h.sound.connect (h.sound.blocks a (h.blocks ▸ ha)) (h.sound.blocks b (h.blocks ▸ hb))
  size := (size_connect ..).trans h.size
  blocks := h.blocks
  fragments := h.fragments
  start i := by rw [← gist_start, gist_connect, gist_start, h.start]
  stop i := by rw [← gist_stop, gist_connect, gist_stop, h.stop]
  kind i := by rw [← gist_kind, gist_connect, gist_kind, h.kind]

theorem Wired.setUnreachable (h : Wired base g) (n : NodeId) (b : Bool) :
    Wired base (g.setUnreachable n b) := by
  have hnode : ∀ i, ((g.setUnreachable n b).node i).start = (g.node i).start ∧
      ((g.setUnreachable n b).node i).stop = (g.node i).stop ∧
      ((g.setUnreachable n b).node i).kind = (g.node i).kind := fun i => by
    rw [Graph.setUnreachable, node_modifyNode]
    split <;> exact ⟨rfl, rfl, rfl⟩
  refine ⟨?_, (size_modifyNode ..).trans h.size, h.blocks, h.fragments, ?_, ?_, ?_⟩
  · exact h.sound.modifyNode rfl rfl (fun p hp => h.sound.parents n p hp)
      fun c hc => h.sound.children n c hc
  · exact fun i => (hnode i).1.trans (h.start i)
  · exact fun i => (hnode i).2.1.trans (h.stop i)
  · exact fun i => (hnode i).2.2.trans (h.kind i)

theorem Wired.wire (h : Wired base g) {block : NodeId} (hb : block ∈ base.blocks) :
    Wired base (wire g block) := by
  have connectAll : ∀ (ts : List NodeId) (g : Graph), Wired base g → (∀ t ∈ ts, t ∈ base.blocks) →
      Wired base (ts.foldl (fun g t => g.connect block t) g) := by
    intro ts
    induction ts with
    | nil => intro g hg _; exact hg
    | cons t ts ih =>
      intro g hg hts
      exact ih _ (hg.connect hb (hts t (by simp))) fun x hx => hts x (by simp [hx])
  refine connectAll _ g h fun t ht => ?_
  obtain ⟨address, _, hfound⟩ := List.mem_filterMap.mp ht
  exact h.blocks ▸ List.mem_of_find?_eq_some hfound

theorem Wired.wireAll (h : Wired base g) {bs : List NodeId} (hbs : ∀ b ∈ bs, b ∈ base.blocks) :
    Wired base (bs.foldl Blocks.wire g) := by
  induction bs generalizing g with
  | nil => exact h
  | cons b bs ih => exact ih (h.wire (hbs b (by simp))) fun x hx => hbs x (by simp [hx])

theorem Wired.chainDead (h : Wired base g) {bs : List NodeId} (hbs : ∀ b ∈ bs, b ∈ base.blocks) :
    Wired base (chainDead g bs) := by
  induction bs generalizing g with
  | nil => exact h
  | cons a bs ih =>
    cases bs with
    | nil => exact h
    | cons b rest =>
      refine ih ?_ fun x hx => hbs x (List.mem_cons_of_mem _ hx)
      split
      · exact (h.setUnreachable b true).connect (hbs a (by simp)) (hbs b (by simp))
      · exact h

theorem nodesFrom_ofKind {stop start : Nat} {groups : List (List Instr)} {n : Node}
    (h : n ∈ nodesFrom stop start groups) :
    ∃ is start stop, n = .ofKind (.block is) start stop 0 := by
  induction groups generalizing start with
  | nil => exact ⟨_, _, _, List.mem_singleton.mp h⟩
  | cons group groups ih =>
    cases groups with
    | nil =>
      rcases List.mem_cons.mp h with rfl | h
      · exact ⟨_, _, _, rfl⟩
      · exact ⟨_, _, _, List.mem_singleton.mp h⟩
    | cons next groups =>
      rcases List.mem_cons.mp h with rfl | h
      · exact ⟨_, _, _, rfl⟩
      · exact ih h

theorem nodesOf_ofKind {points : List Nat} {code : CodeEntry} {n : Node}
    (h : n ∈ nodesOf points code) : ∃ is start stop, n = .ofKind (.block is) start stop 0 := by
  unfold nodesOf at h
  split at h
  · exact ⟨_, _, _, List.mem_singleton.mp h⟩
  · exact nodesFrom_ofKind h

theorem node_islands (nodes : List Node) (length : Nat) (i : NodeId) :
    (islands nodes length).node i = (nodes[i]?).getD default := by
  simp [islands, node, Slots.get?]

theorem size_islands (nodes : List Node) (length : Nat) :
    (islands nodes length).nodes.size = nodes.length := by
  simp [islands, Slots.size]

theorem map_node_islands (nodes : List Node) (length : Nat) :
    (islands nodes length).blocks.map (islands nodes length).node = nodes := by
  refine List.ext_getElem? fun i => ?_
  by_cases hi : i < nodes.length
  · simp [islands, Graph.node, Slots.get?, hi]
  · simp [islands, hi]

theorem islands_sound {nodes : List Node} (length : Nat)
    (h : ∀ n ∈ nodes, ∃ is start stop, n = .ofKind (.block is) start stop 0) :
    (islands nodes length).Sound := by
  have plain : ∀ i, ((islands nodes length).node i).succs = [] ∧
      ((islands nodes length).node i).preds = [] ∧ ((islands nodes length).node i).parent = none ∧
      ((islands nodes length).node i).children = [] := fun i => by
    rw [node_islands]
    cases hi : nodes[i]? with
    | none => exact ⟨rfl, rfl, rfl, rfl⟩
    | some n =>
      obtain ⟨_, _, _, rfl⟩ := h n (List.mem_of_getElem? hi)
      exact ⟨rfl, rfl, rfl, rfl⟩
  refine ⟨fun a b => ?_, fun n p hp => ?_, fun n c hc => ?_, fun b hb => ?_⟩
  · rw [(plain a).1, (plain b).2.1]; rfl
  · rw [(plain n).2.2.1] at hp; cases hp
  · rw [(plain n).2.2.2] at hc; cases hc
  · rw [size_islands]; exact List.mem_range.mp hb

theorem islands_wired (points : List Nat) (code : CodeEntry) :
    Wired (islands (nodesOf points code) code.length)
      (islands (nodesOf points code) code.length) :=
  ⟨islands_sound code.length fun _ hn => nodesOf_ofKind hn, rfl, rfl, rfl, fun _ => rfl,
    fun _ => rfl, fun _ => rfl⟩

end Blocks

open Blocks

/-- The blocks of an entry as they were cut, connected. -/
theorem findBlocks_wired {code : CodeEntry} {g : Graph} (h : findBlocks code = .ok g) :
    CodeEntry.endOf code.instrs = code.length ∧
      ∃ points, Wired (islands (nodesOf points code) code.length) g := by
  unfold findBlocks at h
  dsimp only at h
  split at h
  · cases h
  · rename_i hlength
    obtain ⟨points, _, h⟩ := ok_of_bind h
    split at h
    · cases h
    · cases h
      exact ⟨Classical.not_not.mp hlength, points,
        ((islands_wired points code).wireAll fun _ hb => hb).chainDead fun _ hb => hb⟩

theorem findBlocks_sound {code : CodeEntry} {g : Graph} (h : findBlocks code = .ok g) : g.Sound :=
  let ⟨_, _, hw⟩ := findBlocks_wired h
  hw.sound

end GmlLift
