import GmlLift.Flow.Nullish
import GmlLift.Flow.StaticInit
import GmlLift.Proofs.Flow.Edited
import GmlLift.Proofs.Flow.Lookup
import GmlLift.Proofs.Flow.Outcome

/-! # Passes as runs of edits

Each pass that folds a construct is followed from its first edit to the last, on the paths where it
returns and on those where it stops: whatever graph it leaves is one that `Edited` allows. -/
namespace GmlLift

open GmlLift.Graph Pass

variable {craft : Craft} {base g : Graph}

@[simp] theorem Graph.size_setParent (g : Graph) (n : NodeId) (parent : Option NodeId) :
    (g.setParent n parent).nodes.size = g.nodes.size := size_modifyNode ..

@[simp] theorem Graph.size_replaceInParent (g : Graph) (old new : NodeId) :
    (g.replaceInParent old new).nodes.size = g.nodes.size := by
  unfold replaceInParent
  generalize (g.node old).parent = parent
  cases parent <;> simp

@[simp] theorem Graph.size_setChild (g : Graph) (n : NodeId) (slot : Nat) (child : Option NodeId) :
    (g.setChild n slot child).nodes.size = g.nodes.size := by
  unfold setChild
  cases child <;> simp [setParent]

@[simp] theorem Graph.size_setUnreachable (g : Graph) (n : NodeId) (b : Bool) :
    (g.setUnreachable n b).nodes.size = g.nodes.size := size_modifyNode ..

@[simp] theorem Graph.size_stripLast (g : Graph) (n : NodeId) (count : Nat) :
    (g.stripLast n count).nodes.size = g.nodes.size := size_mapInstrs ..

@[simp] theorem Graph.size_stripFirst (g : Graph) (n : NodeId) (count : Nat) :
    (g.stripFirst n count).nodes.size = g.nodes.size := size_mapInstrs ..

namespace Edited

theorem lt_of_mem_blocks (h : Edited craft base g) (hs : base.Sound) {b : NodeId}
    (hb : b ∈ g.blocks) : b < g.nodes.size := (h.sound hs).blocks b hb

/-- A composite put between a block and what follows it. -/
theorem insertBetween (h : Edited craft base g) (kind : NodeKind)
    (hk : kind.addable craft = true) (block next : NodeId) (hb : block < g.nodes.size)
    (hn : next < g.nodes.size) (start stop slots : Nat) :
    Edited craft base (((g.add (.ofKind kind start stop slots)).connect block
      g.nodes.size).connect g.nodes.size next) := by
  have h₁ := h.add kind hk start stop slots
  have hnew : ((g.add (.ofKind kind start stop slots)).gist g.nodes.size).isBlock = false := by
    rw [gist_add]
    cases kind <;> first | rfl | cases hk
  refine (h₁.connect _ _ ?_ ?_ (.inr ⟨h.size_le, hnew⟩)).connect _ _ ?_ ?_ (.inl h.size_le)
  · simpa using Nat.lt_succ_of_lt hb
  · simp
  · simp
  · simpa using Nat.lt_succ_of_lt hn

/-- A slot of a new node other than the first slot of a gate. -/
theorem setChild_plain (h : Edited craft base g) (n : NodeId) (slot : Nat) (child : Option NodeId)
    (hn : n < g.nodes.size) (hnew : base.nodes.size ≤ n)
    (hc : ∀ c, child = some c → c < g.nodes.size) (hp : slot = 0 → (g.gist n).isGate = false) :
    Edited craft base (g.setChild n slot child) :=
  h.setChild n slot child hn hnew hc fun _ _ hslot hg => by rw [hp hslot] at hg; cases hg

/-- Consecutive slots of a new node, other than the first slot of a gate. -/
theorem setChildrenFrom (h : Edited craft base g) {n : NodeId} (slot : Nat)
    (children : List NodeId) (hn : n < g.nodes.size) (hnew : base.nodes.size ≤ n)
    (hc : ∀ c ∈ children, c < g.nodes.size)
    (hp : slot = 0 → (g.gist n).isGate = false) :
    Edited craft base ((children.zipIdx slot).foldl
      (fun g (child, slot) => g.setChild n slot (some child)) g) := by
  induction children generalizing slot g with
  | nil => exact h
  | cons child children ih =>
    rw [List.zipIdx_cons, List.foldl_cons]
    refine ih (h.setChild_plain _ _ _ hn hnew (fun c he => ?_) hp) (slot + 1) (by simpa using hn)
      (fun c hm => by simpa using hc c (by simp [hm])) fun he => by cases he
    cases he
    exact hc child (by simp)

end Edited

/-- A graph in the course of a pass, while it has `size` nodes. -/
def Steady (craft : Craft) (base : Graph) (size : Nat) (g : Graph) : Prop :=
  Edited craft base g ∧ g.nodes.size = size

namespace Steady

variable {size : Nat}

theorem stripLast (h : Steady craft base size g) (n : NodeId) (count : Nat) :
    Steady craft base size (g.stripLast n count) :=
  ⟨h.1.stripLast n count, by simpa using h.2⟩

theorem disconnectSuccessors (h : Steady craft base size g) (n : NodeId) :
    Steady craft base size (g.disconnectSuccessors n) :=
  ⟨h.1.disconnectSuccessors n, by simpa using h.2⟩

theorem lt_of_mem_blocks (h : Steady craft base size g) (hs : base.Sound) {b : NodeId}
    (hb : b ∈ g.blocks) : b < size := h.2 ▸ h.1.lt_of_mem_blocks hs hb

end Steady

/-! ## Static initializers -/

namespace StaticInit

theorem dropMarker_edited (h : Edited .staticInits base g) (block : NodeId) (target : Nat) :
    Edited .staticInits base (dropMarker block target g) := by
  unfold dropMarker
  split
  · split
    · exact h.stripLast _ 1
    · exact h
  · exact h

@[simp] theorem size_dropMarker (block : NodeId) (target : Nat) :
    (dropMarker block target g).nodes.size = g.nodes.size := by
  unfold dropMarker
  split
  · split <;> simp
  · rfl

theorem fold_edited (hs : base.Sound) (h : Edited .staticInits base g) {block : NodeId}
    (hb : block < base.nodes.size) :
    Ends (fold block) g (fun _ => Edited .staticInits base) (Edited .staticInits base) := by
  have hblock : block < g.nodes.size := Nat.lt_of_lt_of_le hb h.size_le
  unfold fold
  rw [ends_bind, ends_get]
  split
  · exact h
  · rename_i jump _
    simp only [ends_bind, ends_get, ends_modify, ends_pure, ends_require, ends_add]
    refine ⟨fun target _ => ⟨fun next hnext => ?_, fun _ => h⟩, fun _ => h⟩
    have hn := h.lt_of_mem_blocks hs (blockAt?_mem hnext)
    have h₁ := dropMarker_edited ((h.stripLast block 2).disconnectSuccessors block) block target
    have h₂ := h₁.disconnectPredecessors next fun n =>
      decide ((g.node block).stop ≤ n.start) && decide (n.start < target)
    have h₃ := h₂.insertBetween .staticInit rfl block next
      (by simpa using hblock) (by simpa using hn) (g.node block).stop target 1
    refine h₃.setChild_plain _ _ _ (by simp) (by simpa using h.size_le) (fun c hc => ?_)
      fun _ => by simp only [gist_connect, gist_add]; rfl
    split at hc
    · have := h₁.lt_of_mem_blocks hs (blockAt?_mem hc)
      simpa using Nat.lt_succ_of_lt this
    · cases hc

end StaticInit

theorem findStaticInits_edited (hs : g.Sound) :
    Ends findStaticInits g (fun _ => Edited .staticInits g) (Edited .staticInits g) := by
  unfold findStaticInits
  rw [ends_bind, ends_get]
  exact ends_collect (fun n hn g' h => StaticInit.fold_edited hs h (hs.blocks n hn)) .refl

/-! ## Nullish expressions -/

namespace Nullish

theorem fold_edited (hs : base.Sound) (h : Edited .nullish base g) {block : NodeId}
    (hb : block < base.nodes.size) :
    Ends (fold block) g (fun _ => Edited .nullish base) (Edited .nullish base) := by
  have hblock : block < g.nodes.size := Nat.lt_of_lt_of_le hb h.size_le
  unfold fold
  rw [ends_bind, ends_get]
  split
  · exact h
  · rename_i jump _
    simp only [ends_bind, ends_require]
    refine ⟨fun target _ => ⟨fun right hright => ?_, fun _ => h⟩, fun _ => h⟩
    obtain ⟨hright, -⟩ := Option.filter_eq_some_iff.mp hright
    have hr := h.lt_of_mem_blocks hs (blockAt?_mem hright)
    split
    · exact h
    · simp only [ends_bind, ends_modify, ends_pure, ends_require, ends_add]
      refine ⟨fun next hnext => ?_, fun _ => h⟩
      have hn := h.lt_of_mem_blocks hs (blockAt?_mem hnext)
      have h₁ := ((h.stripLast block 2).stripFirst right 1).disconnectSuccessors block
      have h₂ := h₁.disconnectPredecessors next fun n =>
        decide ((g.node block).stop ≤ n.start) && decide (n.start < target)
      have h₃ := h₂.insertBetween .nullish rfl block next
        (by simpa using hblock) (by simpa using hn) (g.node block).stop target 1
      refine h₃.setChild_plain _ _ _ (by simp) (by simpa using h.size_le) (fun c hc => ?_)
        fun _ => by simp only [gist_connect, gist_add]; rfl
      cases hc
      simpa using Nat.lt_succ_of_lt hr

end Nullish

theorem findNullish_edited (hs : g.Sound) :
    Ends findNullish g (fun _ => Edited .nullish g) (Edited .nullish g) := by
  unfold findNullish
  rw [ends_bind, ends_get]
  exact ends_collect (fun n hn g' h => Nullish.fold_edited hs h (hs.blocks n hn)) .refl

end GmlLift
