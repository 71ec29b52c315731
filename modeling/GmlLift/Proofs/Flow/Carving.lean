import GmlLift.Flow.Fragments
import GmlLift.Proofs.Flow.Folds

/-! # Fragments take the blocks apart

While fragments are carved, the blocks gone through so far are listed under fragments, each block
once and each list in the order of the blocks. -/
namespace GmlLift

open GmlLift.Graph Pass

variable {base g g' : Graph} {fs done : List NodeId}

theorem Node.isBlock_of_isFragment {n : Node} (h : n.isFragment = true) : n.isBlock = false := by
  unfold Node.isFragment at h
  split at h
  · rename_i hk; rw [Node.isBlock, hk]
  · cases h

theorem Node.isGate_of_isFragment {n : Node} (h : n.isFragment = true) : n.isGate = false := by
  unfold Node.isFragment at h
  split at h
  · rename_i hk; rw [Node.isGate, hk]
  · cases h

theorem Graph.blocks_setChild (g : Graph) (n : NodeId) (slot : Nat) (child : Option NodeId) :
    (g.setChild n slot child).blocks = g.blocks := by
  unfold Graph.setChild
  cases child <;> rfl

theorem Graph.fragments_setChild (g : Graph) (n : NodeId) (slot : Nat) (child : Option NodeId) :
    (g.setChild n slot child).fragments = g.fragments := by
  unfold Graph.setChild
  cases child <;> rfl

theorem Graph.fragments_replaceInParent (g : Graph) (old new : NodeId) :
    (g.replaceInParent old new).fragments = g.fragments := by
  unfold Graph.replaceInParent
  cases (g.node old).parent <;> rfl

/-- The blocks listed under a fragment. -/
def Graph.listed (g : Graph) (f : NodeId) : List NodeId := match (g.gist f).kind with
  | .fragment _ _ blocks => blocks
  | _ => []

/-- One block more in one of several distinct lists is one block more in all of them together. -/
theorem flatMap_perm_cons {lists lists' : NodeId → List NodeId} {fs : List NodeId} {f x : NodeId}
    (hn : fs.Nodup) (hf : f ∈ fs) (hx : (lists' f).Perm (x :: lists f))
    (hother : ∀ k ∈ fs, k ≠ f → lists' k = lists k) :
    (fs.flatMap lists').Perm (x :: fs.flatMap lists) := by
  induction fs with
  | nil => cases hf
  | cons a fs ih =>
    obtain ⟨ha, hn⟩ := List.nodup_cons.mp hn
    simp only [List.flatMap_cons]
    rcases List.mem_cons.mp hf with rfl | hf
    · have hrest : ∀ k ∈ fs, lists' k = lists k := fun k hk =>
        hother k (by simp [hk]) fun he => ha (he ▸ hk)
      rw [List.flatMap_def, List.map_congr_left hrest, ← List.flatMap_def]
      exact hx.append_right _
    · rw [hother a (by simp) fun he => ha (he ▸ hf)]
      exact ((ih hn hf fun k hk => hother k (by simp [hk])).append_left _).trans List.perm_middle

/-- The graph when the blocks of `done` have been listed under the fragments of `fs`. -/
structure Carving (base : Graph) (fs done : List NodeId) (g : Graph) : Prop where
  edited : Edited .fragments base g
  blocks : g.blocks = base.blocks
  fragments : g.fragments = base.fragments ++ fs
  fragment : ∀ f ∈ fs, (g.gist f).isFragment = true
  nodup : fs.Nodup
  perm : (fs.flatMap g.listed).Perm done
  order : ∀ f ∈ fs, (g.listed f).Sublist done

namespace Carving

theorem lt_of_isFragment {f : NodeId} (hf : (g.gist f).isFragment = true) : f < g.nodes.size := by
  by_cases hlt : f < g.nodes.size
  · exact hlt
  · rw [gist, node_of_size_le (Nat.le_of_not_lt hlt)] at hf
    cases hf

/-- An edit that leaves the fragments and their lists alone. -/
theorem keep (h : Carving base fs done g) (he : Edited .fragments base g') (hb : g'.blocks = g.blocks)
    (hf : g'.fragments = g.fragments)
    (hk : ∀ f, (g.gist f).isFragment = true → (g'.gist f).kind = (g.gist f).kind) :
    Carving base fs done g' := by
  have hlisted : ∀ f ∈ fs, g'.listed f = g.listed f := fun f hm => by
    rw [listed, hk f (h.fragment f hm), listed]
  refine ⟨he, hb.trans h.blocks, hf.trans h.fragments, fun f hm => ?_, h.nodup, ?_, fun f hm => ?_⟩
  · have := h.fragment f hm
    rw [Node.isFragment, hk f this]
    exact this
  · rw [List.flatMap_def, List.map_congr_left hlisted, ← List.flatMap_def]
    exact h.perm
  · exact hlisted f hm ▸ h.order f hm

/-- Cutting code changes nothing about a fragment. -/
theorem kind_mapInstrs (n f : NodeId) (is : List Instr → List Instr)
    (hf : (g.gist f).isFragment = true) : ((g.mapInstrs n is).gist f).kind = (g.gist f).kind := by
  simp only [gist, Graph.mapInstrs, node_modifyNode]
  split
  · unfold Node.mapInstrs
    split
    · rename_i hk
      simp only [gist, Node.isFragment, hk] at hf
      cases hf
    · rfl
  · rfl

theorem stripLast (h : Carving base fs done g) (n : NodeId) (count : Nat) :
    Carving base fs done (g.stripLast n count) :=
  h.keep (h.edited.stripLast n count) rfl rfl fun f hf => kind_mapInstrs n f _ hf

theorem disconnectSuccessors (h : Carving base fs done g) (n : NodeId) :
    Carving base fs done (g.disconnectSuccessors n) :=
  h.keep (h.edited.disconnectSuccessors n) (blocks_disconnectSuccessors g n)
    (fragments_disconnectSuccessors g n) fun f _ => by rw [gist_disconnectSuccessors]

theorem add (h : Carving base fs done g) (entry : CodeEntry) (start stop : Nat) :
    Carving base fs done (g.add (Fragments.nodeOf entry start stop)) :=
  h.keep (h.edited.add _ rfl start stop 1) rfl rfl fun f hf => by
    rw [gist_add_of_lt _ _ (lt_of_isFragment hf)]

/-- A new fragment without blocks. -/
theorem push (h : Carving base fs done g) {f : NodeId} (hf : f ∉ fs)
    (hk : (g.gist f).isFragment = true) (hl : g.listed f = []) :
    Carving base (fs ++ [f]) done { g with fragments := g.fragments ++ [f] } where
  edited := h.edited.setFragments rfl _
  blocks := h.blocks
  fragments := by rw [h.fragments, List.append_assoc]
  fragment k hm := by
    rcases List.mem_append.mp hm with hm | hm
    · exact h.fragment k hm
    · rw [List.mem_singleton.mp hm]; exact hk
  nodup := List.nodup_append.mpr ⟨h.nodup, by simp, fun a ha b hb => by
    rw [List.mem_singleton.mp hb]; exact fun he => hf (he ▸ ha)⟩
  perm := by
    change ((fs ++ [f]).flatMap g.listed).Perm done
    rw [List.flatMap_append, List.flatMap_singleton, hl, List.append_nil]
    exact h.perm
  order k hm := by
    change (g.listed k).Sublist done
    rcases List.mem_append.mp hm with hm | hm
    · exact h.order k hm
    · rw [List.mem_singleton.mp hm, hl]
      exact List.nil_sublist _

/-- A block listed under a fragment becomes the last of its list. -/
theorem listed_listBlock {f : NodeId} (hk : (g.gist f).isFragment = true) (block : NodeId) :
    (Fragments.listBlock f block g).listed f = g.listed f ++ [block] ∧
      ((Fragments.listBlock f block g).gist f).isFragment = true ∧
      (∀ k, k ≠ f → (Fragments.listBlock f block g).gist k = g.gist k) ∧
      ∀ k, ((Fragments.listBlock f block g).gist k).start = (g.gist k).start ∧
        ((Fragments.listBlock f block g).gist k).stop = (g.gist k).stop := by
  have hlt := lt_of_isFragment hk
  unfold Fragments.listBlock
  split
  · rename_i entry argc blocks hfk
    generalize hg : g.modifyNode f _ = g'
    refine ⟨?_, ?_, fun k hne => ?_, fun k => ?_⟩
    · rw [← hg, listed, gist, node_modifyNode, if_pos ⟨rfl, hlt⟩, listed, gist, hfk]
    · rw [← hg, gist, node_modifyNode, if_pos ⟨rfl, hlt⟩]
      rfl
    · rw [← hg, gist, node_modifyNode, if_neg (fun he => hne he.1), gist]
    · rw [← hg, gist_start, gist_stop, node_modifyNode]
      split <;> exact ⟨rfl, rfl⟩
  · rename_i hno
    rw [gist, Node.isFragment] at hk
    split at hk
    · rename_i hfk; exact absurd hfk (hno _ _ _)
    · cases hk

/-- A block listed under a fragment is gone through. -/
theorem listBlock (h : Carving base fs done g) {f : NodeId} (hf : f ∈ fs) (block : NodeId) :
    Carving base fs (done ++ [block]) (Fragments.listBlock f block g) := by
  obtain ⟨hself, hkind, hother, -⟩ := listed_listBlock (h.fragment f hf) block
  have hedited : Edited .fragments base (Fragments.listBlock f block g) ∧
      (Fragments.listBlock f block g).blocks = g.blocks ∧
      (Fragments.listBlock f block g).fragments = g.fragments := by
    unfold Fragments.listBlock
    split
    · rename_i entry argc blocks hfk
      refine ⟨h.edited.patch ?_, rfl, rfl⟩
      exact ⟨rfl, rfl, rfl, rfl, rfl, fun p hp => .inr hp, hfk ▸ .list rfl ..⟩
    · exact ⟨h.edited, rfl, rfl⟩
  generalize Fragments.listBlock f block g = g' at hself hkind hother hedited ⊢
  obtain ⟨hedited, hblocks, hfragments⟩ := hedited
  refine ⟨hedited, hblocks.trans h.blocks, hfragments.trans h.fragments, fun k hm => ?_, h.nodup, ?_,
    fun k hm => ?_⟩
  · by_cases hne : k = f
    · rw [hne]; exact hkind
    · rw [hother k hne]; exact h.fragment k hm
  · refine (flatMap_perm_cons h.nodup hf ?_ fun k _ hne => ?_).trans
      ((h.perm.cons block).trans (List.perm_append_singleton ..).symm)
    · rw [hself]; exact List.perm_append_singleton ..
    · rw [listed, hother k hne, listed]
  · by_cases hne : k = f
    · rw [hne, hself]; exact (h.order f hf).append_right _
    · rw [listed, hother k hne, ← listed]
      exact (h.order k hm).trans (List.sublist_append_left ..)

end Carving

namespace Fragments

theorem close_carving (h : Carving base fs done g) (fragment lastBlock : NodeId) :
    Ends (close fragment lastBlock) g (fun _ => Carving base fs done) (Edited .fragments base) := by
  unfold close
  rw [ends_bind, ends_get]
  split
  · exact h.edited
  · simp only [ends_bind, ends_modify]
    exact (h.stripLast lastBlock 1).disconnectSuccessors lastBlock

/-- Some fragment is open, and what is open is among the fragments. -/
def Open (fs stack : List NodeId) : Prop := stack ≠ [] ∧ ∀ f ∈ stack, f ∈ fs

theorem closeEnding_carving (h : Carving base fs done g) (previous : NodeId) (address : Nat)
    {stack : List NodeId} (ho : Open fs stack) :
    Ends (closeEnding previous address stack) g
      (fun stack g' => Carving base fs done g' ∧ Open fs stack) (Edited .fragments base) := by
  induction stack generalizing g with
  | nil => exact ⟨h, ho⟩
  | cons top stack ih =>
    cases stack with
    | nil => exact ⟨h, ho⟩
    | cons below rest =>
      simp only [closeEnding]
      rw [ends_bind, ends_get]
      split
      · simp only [ends_bind]
        refine (close_carving h top previous).mono (fun _ g' h' => ?_) fun _ he => he
        exact ih h' ⟨by simp, fun f hm => ho.2 f (by simp [List.mem_cons.mp hm])⟩
      · exact ⟨h, ho⟩

@[simp] theorem kind_setUnreachable (n i : NodeId) (b : Bool) :
    ((g.setUnreachable n b).gist i).kind = (g.gist i).kind := by
  rw [gist, setUnreachable, node_modifyNode, gist]
  split <;> rfl

theorem isGate_setUnreachable (n i : NodeId) (b : Bool) :
    ((g.setUnreachable n b).gist i).isGate = (g.gist i).isGate := by
  rw [Node.isGate, kind_setUnreachable, Node.isGate]

theorem kind_splice (previous block next fragment f : NodeId) :
    ((splice previous block next fragment g).gist f).kind = (g.gist f).kind := by
  simp only [splice, gist_setChild, kind_setUnreachable, gist_connect, gist_replaceSuccessor,
    gist_disconnect]

theorem blocks_splice (previous block next fragment : NodeId) :
    (splice previous block next fragment g).blocks = g.blocks := by
  simp only [splice, blocks_setChild, setUnreachable, connect, addPred, addSucc, blocks_modifyNode,
    blocks_replaceSuccessor]
  rfl

theorem fragments_splice (previous block next fragment : NodeId) :
    (splice previous block next fragment g).fragments = g.fragments := by
  simp only [splice, fragments_setChild, setUnreachable, connect, addPred, addSucc,
    fragments_modifyNode, fragments_replaceSuccessor]
  rfl

theorem splice_carving (h : Carving base fs done g) (previous block next fragment : NodeId)
    (hb : block < g.nodes.size) (hn : next < g.nodes.size) (hnew : base.nodes.size ≤ fragment)
    (hf : fragment < g.nodes.size) (hk : (g.gist fragment).isFragment = true) :
    Carving base fs done (splice previous block next fragment g) := by
  have h₁ := ((h.edited.disconnect previous block).replaceSuccessor previous next
    (by simpa using hf) hnew (by simpa using Node.isBlock_of_isFragment hk)).connect fragment next
    (by simpa using hf) (by simpa using hn) (.inl hnew)
  have h₂ := (h₁.setUnreachable block false).setChild_plain fragment Slot.head (some block)
    (by simpa using hf) hnew (fun c hc => by cases hc; simpa using hb) fun _ => by
      rw [isGate_setUnreachable]
      simpa using Node.isGate_of_isFragment hk
  exact h.keep h₂ (blocks_splice ..) (fragments_splice ..) fun f _ => kind_splice ..

theorem openAt_carving (hs : base.Sound) (h : Carving base fs done g) (entry : CodeEntry)
    (previous : NodeId) {block : NodeId} (hb : block ∈ base.blocks) :
    Ends (openAt entry previous block) g (fun f g' => Carving base (fs ++ [f]) done g')
      (Edited .fragments base) := by
  have hblock : block < g.nodes.size := Nat.lt_of_lt_of_le (hs.blocks _ hb) h.edited.size_le
  unfold openAt
  simp only [ends_bind, ends_get, ends_require, ends_modify, ends_add, ends_pure]
  refine ⟨fun skip _ => ⟨fun next hnext => ?_, fun _ => h.edited⟩, fun _ => h.edited⟩
  have hnext := h.edited.lt_of_mem_blocks hs (blockAt?_mem hnext)
  generalize hnode : nodeOf entry (g.node block).start skip = node
  have hsize : (g.stripLast previous 1).nodes.size = g.nodes.size := by simp
  have h₁ := hnode ▸ (h.stripLast previous 1).add entry (g.node block).start skip
  have hk : ((g.stripLast previous 1).add node).gist (g.stripLast previous 1).nodes.size =
      .ofKind (.fragment entry.name entry.argumentCount []) (g.node block).start skip 0 := by
    rw [gist_add, ← hnode]; rfl
  have hold : (g.stripLast previous 1).nodes.size ∉ fs := fun hm =>
    Nat.lt_irrefl _ (Carving.lt_of_isFragment ((h.stripLast previous 1).fragment _ hm))
  generalize g.stripLast previous 1 = g₁ at h₁ hk hold hsize ⊢
  have h₂ := splice_carving h₁ previous block next g₁.nodes.size
    (by simpa [hsize] using Nat.lt_succ_of_lt hblock)
    (by simpa [hsize] using Nat.lt_succ_of_lt hnext) (by simpa [hsize] using h.edited.size_le)
    (by simp) (by rw [hk]; rfl)
  refine h₂.push hold ?_ ?_
  · rw [Node.isFragment, kind_splice, hk]; rfl
  · rw [listed, kind_splice, hk]; rfl

theorem closeBefore_carving (h : Carving base fs done g) (previous : Option NodeId) (address : Nat)
    {stack : List NodeId} (ho : Open fs stack) :
    Ends (closeBefore previous address stack) g
      (fun stack g' => Carving base fs done g' ∧ Open fs stack) (Edited .fragments base) := by
  cases previous with
  | none => exact ⟨h, ho⟩
  | some p => exact closeEnding_carving h p address ho

theorem openBefore_carving (hs : base.Sound) (h : Carving base fs done g) (code : CodeEntry)
    (previous : Option NodeId) {block : NodeId} (hb : block ∈ base.blocks) (address : Nat)
    {stack : List NodeId} (ho : Open fs stack) :
    Ends (openBefore code previous block address stack) g
      (fun stack g' => ∃ fs, Carving base fs done g' ∧ Open fs stack) (Edited .fragments base) := by
  unfold openBefore
  split
  · rw [ends_map]
    refine (openAt_carving hs h _ _ hb).mono (fun f g' h' => ⟨fs ++ [f], h', ?_⟩) fun _ he => he
    refine ⟨by simp, fun k hk => ?_⟩
    rcases List.mem_cons.mp hk with rfl | hk
    · simp
    · exact List.mem_append_left _ (ho.2 k hk)
  · exact ⟨fs, h, ho⟩

/-- By the time all blocks have been gone through, all of them are listed. -/
theorem carve_carving (hs : base.Sound) (h : Carving base fs done g) (code : CodeEntry)
    (previous : Option NodeId) {stack rest : List NodeId} (ho : Open fs stack)
    (hrest : ∀ b ∈ rest, b ∈ base.blocks) :
    Ends (carve code previous stack rest) g
      (fun _ g' => ∃ fs, Carving base fs (done ++ rest) g') (Edited .fragments base) := by
  induction rest generalizing g fs done previous stack with
  | nil => exact ⟨fs, by rw [List.append_nil]; exact h⟩
  | cons block rest ih =>
    simp only [carve, ends_bind, ends_get, ends_modify]
    refine (closeBefore_carving h previous _ ho).mono (fun stack₁ g₁ ⟨h₁, ho₁⟩ => ?_) fun _ he => he
    refine (openBefore_carving hs h₁ code previous (hrest block (by simp)) _ ho₁).mono
      (fun stack₂ g₂ ⟨fs₂, h₂, ho₂⟩ => ?_) fun _ he => he
    obtain ⟨top, below, rfl⟩ := List.exists_cons_of_ne_nil ho₂.1
    have h₃ := h₂.listBlock (ho₂.2 top (by simp)) block
    have hnext := ih h₃ (some block) ho₂ fun b hb => hrest b (by simp [hb])
    rw [List.append_assoc] at hnext
    exact hnext

/-! ### The root -/

/-- The graph with a node for the root entry, which holds the first block and lists none yet. -/
def withRoot (code : CodeEntry) (g : Graph) : Graph :=
  { (g.add (nodeOf code 0 code.length)).setChild g.nodes.size Slot.head g.blocks.head? with
    fragments := ((g.add (nodeOf code 0 code.length)).setChild g.nodes.size Slot.head
      g.blocks.head?).fragments ++ [g.nodes.size] }

section

variable (code : CodeEntry)

theorem size_withRoot : (withRoot code g).nodes.size = g.nodes.size + 1 := by
  simp [withRoot]

theorem blocks_withRoot : (withRoot code g).blocks = g.blocks := by
  rw [withRoot, blocks_setChild, blocks_add]

theorem fragments_withRoot : (withRoot code g).fragments = g.fragments ++ [g.nodes.size] := by
  rw [withRoot, fragments_setChild]
  rfl

theorem gist_withRoot : (withRoot code g).gist g.nodes.size =
    .ofKind (.fragment code.name code.argumentCount []) 0 code.length 0 := by
  change ((g.add (nodeOf code 0 code.length)).setChild g.nodes.size Slot.head
    g.blocks.head?).gist g.nodes.size = _
  rw [gist_setChild, gist_add]
  rfl

theorem gist_withRoot_of_lt {i : NodeId} (hi : i < g.nodes.size) :
    (withRoot code g).gist i = g.gist i := by
  change ((g.add (nodeOf code 0 code.length)).setChild g.nodes.size Slot.head
    g.blocks.head?).gist i = _
  rw [gist_setChild, gist_add_of_lt _ _ hi]

/-- The root fragment is open before any block is gone through. -/
theorem withRoot_carving (hs : g.Sound) : Carving g [g.nodes.size] [] (withRoot code g) := by
  have hk : (g.add (nodeOf code 0 code.length)).gist g.nodes.size =
      .ofKind (.fragment code.name code.argumentCount []) 0 code.length 0 := gist_add ..
  have h₀ : Edited .fragments g (g.add (nodeOf code 0 code.length)) :=
    Edited.refl.add _ rfl 0 code.length 1
  have h₁ := h₀.setChild_plain g.nodes.size Slot.head g.blocks.head? (by simp) (Nat.le_refl _)
    (fun c hc => by simpa using Nat.lt_succ_of_lt (hs.blocks c (List.mem_of_head? hc)))
    fun _ => by rw [hk]; rfl
  have h₂ : Carving g [] [] ((g.add (nodeOf code 0 code.length)).setChild g.nodes.size
      Slot.head g.blocks.head?) :=
    ⟨h₁, blocks_setChild .., (fragments_setChild ..).trans (List.append_nil _).symm, by simp,
      by simp, .nil, by simp⟩
  refine h₂.push (by simp) ?_ ?_
  · rw [gist_setChild, hk]; rfl
  · rw [listed, gist_setChild, hk]; rfl

/-- The blocks are gone through from there, and only the root may be open behind the last. -/
theorem ends_findFragments {Q : Unit → Graph → Prop} {E : Graph → Prop} :
    Ends (findFragments code) g Q E ↔ Ends (carve code none [g.nodes.size] g.blocks)
      (withRoot code g) (fun open_ g' => if open_.length ≠ 1 then E g' else Q () g') E := by
  rw [← blocks_withRoot code]
  unfold findFragments
  simp only [ends_bind, ends_add, ends_modify, ends_get]
  refine ⟨fun h => h.mono (fun open_ g' h' => ?_) fun _ he => he,
    fun h => h.mono (fun open_ g' h' => ?_) fun _ he => he⟩
  · split at h'
    · rwa [if_pos ‹_›]
    · rwa [if_neg ‹_›]
  · split at h'
    · rwa [if_pos ‹_›]
    · rwa [if_neg ‹_›]

end

end Fragments

theorem findFragments_carving (hs : g.Sound) (code : CodeEntry) :
    Ends (findFragments code) g (fun _ g' => ∃ fs, Carving g fs g.blocks g') (Edited .fragments g) := by
  have hcarving := Fragments.withRoot_carving code hs
  have hopen : Fragments.Open [g.nodes.size] [g.nodes.size] := ⟨by simp, fun _ hf => hf⟩
  rw [Fragments.ends_findFragments]
  refine (Fragments.carve_carving hs hcarving code none hopen fun b hb => hb).mono
    (fun open_ g' ⟨fs, h'⟩ => ?_) fun _ he => he
  split
  · exact h'.edited
  · exact ⟨fs, h'⟩

theorem findFragments_edited (hs : g.Sound) (code : CodeEntry) :
    Ends (findFragments code) g (fun _ => Edited .fragments g) (Edited .fragments g) :=
  (findFragments_carving hs code).mono (fun _ _ ⟨_, h⟩ => h.edited) fun _ he => he

end GmlLift
