import GmlLift.Proofs.Flow.Phases
import GmlLift.Proofs.Flow.Tiling

/-! # The list of blocks in address order

Passes cut code off blocks at both ends and in the middle, and split blocks in two, but the blocks
go on to tile the code and the fragments go on to share them out. Looking a block up by address
therefore never misses. -/
namespace GmlLift

open GmlLift.Graph Pass

variable {code : CodeEntry} {craft : Craft} {base g g' : Graph}

/-! ## Blocks keep tiling the code -/

namespace Tiles

variable {stop start : Nat}

theorem start_le {ns : List Node} (h : Tiles stop start ns) {n : Node} (hn : n ∈ ns) :
    start ≤ n.start := by
  induction ns generalizing start with
  | nil => cases hn
  | cons m ns ih =>
    cases ns with
    | nil =>
      obtain ⟨h₁, h₂, _⟩ := h
      rw [List.mem_singleton.mp hn]
      omega
    | cons m' ns =>
      obtain ⟨h₁, h₂, h₃⟩ := h
      rcases List.mem_cons.mp hn with rfl | hn
      · omega
      · have := ih h₃ hn
        omega

/-- A block ends before any later block starts. -/
theorem pairwise {ns : List Node} (h : Tiles stop start ns) :
    ns.Pairwise fun n m => n.start < m.start ∧ n.stop ≤ m.start := by
  induction ns generalizing start with
  | nil => exact .nil
  | cons n ns ih =>
    cases ns with
    | nil => exact List.pairwise_singleton ..
    | cons m ns =>
      obtain ⟨h₁, h₂, h₃⟩ := h
      refine List.pairwise_cons.mpr ⟨fun k hk => ?_, ih h₃⟩
      have := h₃.start_le hk
      omega

/-- Where one block is cut in two, the halves tile what it did. -/
theorem insertAfter {ids : List NodeId} {n second : NodeId} {address : Nat}
    (h : Tiles stop start (ids.map g.node)) (hnodup : ids.Nodup) (hn : n ∈ ids)
    (hlow : (g.node n).start < address) (hhigh : address < (g.node n).stop)
    (hfirst : (g'.node n).start = (g.node n).start ∧ (g'.node n).stop = address)
    (hsecond : (g'.node second).start = address ∧ (g'.node second).stop = (g.node n).stop)
    (hother : ∀ i ∈ ids, i ≠ n → (g'.node i).start = (g.node i).start ∧
      (g'.node i).stop = (g.node i).stop) :
    Tiles stop start ((insertAfter n second ids).map g'.node) := by
  induction ids generalizing start with
  | nil => cases hn
  | cons b ids ih =>
    obtain ⟨hb, hnodup⟩ := List.nodup_cons.mp hnodup
    cases ids with
    | nil =>
      obtain ⟨h₁, h₂, h₃⟩ := h
      rw [List.mem_singleton.mp hn] at hlow hhigh
      omega
    | cons c ids =>
      obtain ⟨h₁, h₂, h₃⟩ := h
      rw [← List.map_cons] at h₃
      simp only [Graph.insertAfter]
      split
      · rename_i he
        obtain rfl : b = n := by simpa using he
        have hrest : Tiles stop (g.node b).stop ((c :: ids).map g'.node) := by
          refine h₃.congr ?_
          rw [List.map_map, List.map_map]
          refine List.map_congr_left fun i hi => ?_
          have := hother i (by simp [List.mem_cons.mp hi]) fun hne => hb (hne ▸ hi)
          simp [this]
        refine .cons (hfirst.1.trans h₁) (by omega) (.cons (hsecond.1.trans hfirst.2.symm) ?_ ?_)
        · omega
        · rw [hsecond.2]; exact hrest
      · rename_i he
        have hne : b ≠ n := by simpa using he
        have hb' := hother b (by simp) hne
        refine .cons (hb'.1.trans h₁) (by omega) ?_
        rw [hb'.2]
        refine ih h₃ hnodup ?_ fun i hi => hother i (by simp [List.mem_cons.mp hi])
        rcases List.mem_cons.mp hn with he | hn
        · exact absurd he.symm hne
        · exact hn

end Tiles

theorem Holds.of_gist {is : List Instr} {b : NodeId} (h : Holds is (g.gist b)) :
    Holds is (g.node b) := ⟨h.block, h.sublist, h.bounds⟩

namespace Graph.Tiled

theorem ascending (h : g.Tiled code) : g.Ascending g.blocks :=
  (List.pairwise_map.mp h.tiles.pairwise).imp And.left

theorem nodup (h : g.Tiled code) : g.blocks.Nodup := by
  refine h.ascending.imp ?_
  intro a b hlt he
  subst he
  exact Nat.lt_irrefl _ hlt

/-- An edit that leaves the list of blocks and their bounds alone and lets their code shrink. -/
theorem keep (h : g.Tiled code) (hb : g'.blocks = g.blocks)
    (hbounds : ∀ b ∈ g.blocks, (g'.node b).start = (g.node b).start ∧
      (g'.node b).stop = (g.node b).stop)
    (hcode : ∀ b ∈ g.blocks, (g'.node b).isBlock = true ∧
      (g'.node b).instrs.Sublist (g.node b).instrs) : g'.Tiled code := by
  refine ⟨h.tiles.congr ?_, fun b hm => ?_⟩
  · rw [hb, List.map_map, List.map_map]
    exact List.map_congr_left fun b hm => by simp [hbounds b hm]
  · rw [hb] at hm
    obtain ⟨hstart, hstop⟩ := hbounds b hm
    obtain ⟨hblock, hsub⟩ := hcode b hm
    have hold := h.holds b hm
    refine ⟨hblock, hsub.trans hold.sublist, fun i hi => ?_⟩
    rw [hstart, hstop]
    exact hold.bounds i (hsub.subset hi)

/-- The same for an edit that leaves every block as it was. -/
theorem keepGist (h : g.Tiled code) (hb : g'.blocks = g.blocks)
    (hg : ∀ b ∈ g.blocks, g'.gist b = g.gist b) : g'.Tiled code := by
  refine h.keep hb (fun b hm => ?_) fun b hm => ?_
  · rw [← gist_start, ← gist_stop, hg b hm, gist_start, gist_stop]
    exact ⟨rfl, rfl⟩
  · have hk : (g'.node b).kind = (g.node b).kind := by rw [← gist_kind, hg b hm, gist_kind]
    rw [Node.isBlock, Node.instrs, hk]
    exact ⟨(h.holds b hm).block, .refl _⟩

/-- The instruction before which a block is split stands inside the block, past its start. -/
theorem split_bounds (h : g.Tiled code) (hc : Contiguous 0 code.instrs) {n : NodeId}
    (hn : n ∈ g.blocks) {address k : Nat}
    (hk : (g.instrs n).findIdx? (fun i => i.address == address) = some (k + 1)) :
    (g.node n).start < address ∧ address < (g.node n).stop ∧
      (∀ i ∈ (g.instrs n).take (k + 1), (g.node n).start ≤ i.address ∧ i.address < address) ∧
      ∀ i ∈ (g.instrs n).drop (k + 1), address ≤ i.address ∧ i.address < (g.node n).stop := by
  have hold := h.holds n hn
  have hsorted : (g.instrs n).Pairwise fun i j => i.address < j.address :=
    hc.pairwise.sublist hold.sublist
  obtain ⟨hlt, hat, -⟩ := List.findIdx?_eq_some_iff_getElem.mp hk
  have hdrop := List.drop_eq_getElem_cons hlt
  generalize (g.instrs n)[k + 1] = x at hat hdrop
  have hat : x.address = address := by simpa using hat
  have hx : x ∈ g.instrs n := List.mem_of_mem_drop (hdrop ▸ List.mem_cons_self ..)
  rw [← List.take_append_drop (k + 1) (g.instrs n), hdrop, List.pairwise_append,
    List.pairwise_cons] at hsorted
  obtain ⟨_, ⟨hafter, _⟩, hbefore⟩ := hsorted
  have hlow : ∀ i ∈ (g.instrs n).take (k + 1), (g.node n).start ≤ i.address ∧ i.address < address :=
    fun i hi => ⟨(hold.bounds i (List.mem_of_mem_take hi)).1, hat ▸ hbefore i hi x (by simp)⟩
  refine ⟨?_, hat ▸ (hold.bounds x hx).2, hlow, fun i hi => ?_⟩
  · obtain ⟨i, hi⟩ := List.exists_mem_of_length_pos
      (show 0 < ((g.instrs n).take (k + 1)).length by rw [List.length_take]; omega)
    exact Nat.lt_of_le_of_lt (hlow i hi).1 (hlow i hi).2
  · refine ⟨?_, (hold.bounds i (List.mem_of_mem_drop hi)).2⟩
    rw [hdrop] at hi
    rcases List.mem_cons.mp hi with rfl | hi
    · exact Nat.le_of_eq hat.symm
    · exact hat ▸ Nat.le_of_lt (hafter i hi)

theorem halve (h : g.Tiled code) (hc : Contiguous 0 code.instrs) (hs : g.Sound) {n : NodeId}
    (hn : n ∈ g.blocks) {address k : Nat}
    (hk : (g.instrs n).findIdx? (fun i => i.address == address) = some (k + 1)) :
    (g.halve n address (k + 1)).Tiled code := by
  have hlt : n < g.nodes.size := hs.blocks n hn
  obtain ⟨hlow, hhigh, hfront, hback⟩ := h.split_bounds hc hn hk
  have hself := (gist_halve g n address (k + 1) n).trans
    (gist_cutBlock_self address (k + 1) hlt (h.holds n hn).block)
  have hnew := (gist_halve g n address (k + 1) g.nodes.size).trans
    (gist_cutBlock_new address (k + 1) hlt)
  have hother : ∀ i ∈ g.blocks, i ≠ n → (g.halve n address (k + 1)).gist i = g.gist i :=
    fun i hi hne => (gist_halve ..).trans
      (gist_cutBlock_of_ne address (k + 1) (hs.blocks i hi) hne)
  generalize hg' : g.halve n address (k + 1) = g' at hself hnew hother
  have hblocks : g'.blocks = insertAfter n g.nodes.size g.blocks := by rw [← hg', blocks_halve]
  refine ⟨?_, fun b hb => .of_gist ?_⟩
  · rw [hblocks]
    refine h.tiles.insertAfter h.nodup hn hlow hhigh ?_ ?_ fun i hi hne => ?_
    · rw [← gist_start, ← gist_stop, hself]; exact ⟨rfl, rfl⟩
    · rw [← gist_start, ← gist_stop, hnew]; exact ⟨rfl, rfl⟩
    · rw [← gist_start, ← gist_stop, hother i hi hne]; exact ⟨rfl, rfl⟩
  · have hcode := (h.holds n hn).sublist
    rw [hblocks] at hb
    rcases mem_insertAfter hb with rfl | hb
    · rw [hnew]
      exact ⟨rfl, (List.drop_sublist ..).trans hcode, hback⟩
    · by_cases hne : b = n
      · rw [hne, hself]
        exact ⟨rfl, (List.take_sublist ..).trans hcode, hfront⟩
      · rw [hother b hb hne]
        have hold := h.holds b hb
        exact ⟨hold.block, hold.sublist, hold.bounds⟩

theorem insertInFragment (h : g.Tiled code) (old new : NodeId) (fs : List NodeId) :
    (g.insertInFragment old new fs).Tiled code := by
  have same : ∀ b ∈ g.blocks, (g.insertInFragment old new fs).node b = g.node b := fun b hb => by
    rcases node_insertInFragment g old new fs b with he | ⟨_, _, _, hk, _⟩
    · exact he
    · have := (h.holds b hb).block
      rw [Node.isBlock, hk] at this
      cases this
  refine h.keep (blocks_insertInFragment ..) (fun b hb => ?_) fun b hb => ?_
  · rw [same b hb]; exact ⟨rfl, rfl⟩
  · rw [same b hb]; exact ⟨(h.holds b hb).block, .refl _⟩

theorem splitBlock (h : g.Tiled code) (hc : Contiguous 0 code.instrs) (hs : g.Sound) {n : NodeId}
    (hn : n ∈ g.blocks) (address : Nat) : (g.splitBlock n address).1.Tiled code := by
  rcases splitBlock_cases g n address with he | ⟨k, hk⟩
  · rw [he]; exact h
  · rw [splitBlock_eq hk]
    exact (h.halve hc hs hn hk).insertInFragment ..

end Graph.Tiled

/-- What edits do to a graph in which blocks tile the code, they do to a graph in which blocks still
tile it. -/
theorem Edited.tiled (h : Edited craft base g) (hs : base.Sound) (hc : Contiguous 0 code.instrs)
    (ht : base.Tiled code) : g.Tiled code := by
  induction h with
  | refl => exact ht
  | @patch g h n f hf ih =>
    refine ih.keep rfl (fun b hb => ?_) fun b hb => ?_
    · rw [node_modifyNode]
      split
      · rename_i hi; rw [hi.1]; exact ⟨hf.start, hf.stop⟩
      · exact ⟨rfl, rfl⟩
    · rw [node_modifyNode]
      split
      · rename_i hi; rw [hi.1]; exact hf.block (hi.1 ▸ (ih.holds b hb).block)
      · exact ⟨(ih.holds b hb).block, .refl _⟩
  | setLoops _ _ _ ih => exact ⟨ih.tiles, ih.holds⟩
  | setFragments _ _ _ ih => exact ⟨ih.tiles, ih.holds⟩
  | add h kind hk start stop slots ih =>
    exact ih.keepGist rfl fun b hb => gist_add_of_lt _ _ ((h.sound hs).blocks b hb)
  | connect _ a b _ _ _ ih => exact ih.keepGist rfl fun i _ => gist_connect ..
  | disconnect _ a b ih => exact ih.keepGist rfl fun i _ => gist_disconnect ..
  | disconnectSuccessors _ n ih =>
    exact ih.keepGist (blocks_disconnectSuccessors ..) fun i _ => gist_disconnectSuccessors ..
  | replaceSuccessor _ n old _ _ _ ih =>
    exact ih.keepGist (blocks_replaceSuccessor ..) fun i _ => gist_replaceSuccessor ..
  | writeSlot _ n slot child _ _ _ ih => exact ih.keepGist rfl fun i _ => gist_writeSlot ..
  | swapChild _ p old _ _ _ ih => exact ih.keepGist rfl fun i _ => gist_mapChildren ..
  | splitBlock h _ hb address ih => exact ih.splitBlock hc (h.sound hs) hb address

/-! ## Fragments keep sharing out the blocks -/

/-- Every block is listed under one fragment, once, and each list is in address order. -/
structure Graph.Shared (g : Graph) : Prop where
  fragment : ∀ f ∈ g.fragments, (g.gist f).isFragment = true
  nodup : g.fragments.Nodup
  perm : (g.fragments.flatMap g.listed).Perm g.blocks
  order : ∀ f ∈ g.fragments, g.Ascending (g.listed f)

theorem Graph.Ascending.congr {bs : List NodeId} (h : g.Ascending bs)
    (hs : ∀ b ∈ bs, (g'.node b).start = (g.node b).start) : g'.Ascending bs :=
  List.Pairwise.imp_of_mem (fun {a b} ha hb hlt => by rw [hs a ha, hs b hb]; exact hlt) h

/-- The fragment whose list takes in a new block, if any lists the block before it. -/
theorem Graph.insertInFragment_listed (g : Graph) {old : NodeId} (new : NodeId) {fs : List NodeId}
    (h : ∃ f ∈ fs, old ∈ g.listed f) : ∃ f ∈ fs, old ∈ g.listed f ∧
      (g.insertInFragment old new fs).listed f = Graph.insertAfter old new (g.listed f) ∧
      ((g.insertInFragment old new fs).gist f).isFragment = true ∧
      ∀ i, i ≠ f → (g.insertInFragment old new fs).gist i = g.gist i := by
  induction fs with
  | nil => obtain ⟨f, hf, _⟩ := h; cases hf
  | cons f fs ih =>
    have later : old ∉ g.listed f → ∃ f ∈ fs, old ∈ g.listed f := fun hno => by
      obtain ⟨k, hk, hm⟩ := h
      rcases List.mem_cons.mp hk with rfl | hk
      · exact absurd hm hno
      · exact ⟨k, hk, hm⟩
    have skip : old ∉ g.listed f → ∃ f' ∈ f :: fs, old ∈ g.listed f' ∧
        (g.insertInFragment old new fs).listed f' = Graph.insertAfter old new (g.listed f') ∧
        ((g.insertInFragment old new fs).gist f').isFragment = true ∧
        ∀ i, i ≠ f' → (g.insertInFragment old new fs).gist i = g.gist i := fun hno => by
      obtain ⟨f', hf', hrest⟩ := ih (later hno)
      exact ⟨f', List.mem_cons_of_mem _ hf', hrest⟩
    simp only [insertInFragment]
    split
    · rename_i entry argc blocks hk
      have hl : g.listed f = blocks := by rw [listed, gist_kind, hk]
      split
      · rename_i hc
        have hlt : f < g.nodes.size :=
          Carving.lt_of_isFragment (by rw [Node.isFragment, gist_kind, hk])
        have hself : (g.modifyNode f fun x =>
            { x with kind := .fragment entry argc (Graph.insertAfter old new blocks) }).gist f =
            { g.gist f with kind := .fragment entry argc (Graph.insertAfter old new blocks) } := by
          rw [gist, node_modifyNode, if_pos ⟨rfl, hlt⟩]; rfl
        refine ⟨f, by simp, by rw [hl]; simpa using hc, ?_, ?_, fun i hne => ?_⟩
        · rw [listed, hself, hl]
        · rw [hself]; rfl
        · rw [gist, node_modifyNode, if_neg fun he => hne he.1, gist]
      · rename_i hc
        exact skip (by rw [hl]; simpa using hc)
    · rename_i hno
      refine skip ?_
      rw [listed, gist_kind]
      split
      · rename_i hk; exact absurd hk (hno _ _ _)
      · simp

theorem Graph.insertAfter_perm {old new : NodeId} {bs : List NodeId} (h : old ∈ bs) :
    (Graph.insertAfter old new bs).Perm (new :: bs) := by
  induction bs with
  | nil => cases h
  | cons b bs ih =>
    simp only [Graph.insertAfter]
    split
    · exact List.Perm.swap ..
    · rename_i hne
      rcases List.mem_cons.mp h with rfl | h
      · simp at hne
      · exact ((ih h).cons b).trans (List.Perm.swap ..)

/-- A list in address order takes in a block that starts between two of its members. -/
theorem Graph.Ascending.insertAfter {old new : NodeId} {bs : List NodeId} (h : g.Ascending bs)
    (hold : old ∈ bs) (hlow : (g.node old).start < (g.node new).start)
    (hhigh : ∀ b ∈ bs, (g.node old).start < (g.node b).start →
      (g.node new).start < (g.node b).start) : g.Ascending (Graph.insertAfter old new bs) := by
  induction bs with
  | nil => cases hold
  | cons b bs ih =>
    obtain ⟨hb, hbs⟩ := List.pairwise_cons.mp h
    simp only [Graph.insertAfter]
    split
    · rename_i he
      obtain rfl : b = old := by simpa using he
      refine List.pairwise_cons.mpr ⟨fun c hc => ?_, List.pairwise_cons.mpr ⟨fun c hc => ?_, hbs⟩⟩
      · rcases List.mem_cons.mp hc with rfl | hc
        · exact hlow
        · exact hb c hc
      · exact hhigh c (by simp [hc]) (hb c hc)
    · rename_i hne
      have hmem : old ∈ bs := by
        rcases List.mem_cons.mp hold with rfl | hold
        · simp at hne
        · exact hold
      refine List.pairwise_cons.mpr ⟨fun c hc => ?_, ih hbs hmem fun c hc => hhigh c (by simp [hc])⟩
      rcases mem_insertAfter hc with rfl | hc
      · exact Nat.lt_trans (hb old hmem) hlow
      · exact hb c hc

/-- A block ends before any block with a higher start. -/
theorem Graph.Tiled.stop_le (h : g.Tiled code) {a b : NodeId} (ha : a ∈ g.blocks)
    (hb : b ∈ g.blocks) (hlt : (g.node a).start < (g.node b).start) :
    (g.node a).stop ≤ (g.node b).start := by
  have hpair := List.pairwise_map.mp h.tiles.pairwise
  generalize g.blocks = bs at ha hb hpair
  induction bs with
  | nil => cases ha
  | cons c bs ih =>
    obtain ⟨hc, hbs⟩ := List.pairwise_cons.mp hpair
    rcases List.mem_cons.mp ha with rfl | ha'
    · rcases List.mem_cons.mp hb with rfl | hb'
      · exact absurd hlt (Nat.lt_irrefl _)
      · exact (hc b hb').2
    · rcases List.mem_cons.mp hb with rfl | hb'
      · exact absurd hlt (Nat.lt_asymm (hc a ha').1)
      · exact ih ha' hb' hbs

namespace Graph.Shared

theorem mem_blocks (h : g.Shared) {f b : NodeId} (hf : f ∈ g.fragments) (hb : b ∈ g.listed f) :
    b ∈ g.blocks := h.perm.subset (List.mem_flatMap.mpr ⟨f, hf, hb⟩)

/-- An edit that leaves fragments and their lists alone, and blocks where they start. -/
theorem keep (h : g.Shared) (hb : g'.blocks = g.blocks) (hf : g'.fragments = g.fragments)
    (hk : ∀ f ∈ g.fragments, (g'.gist f).kind = (g.gist f).kind)
    (hs : ∀ b ∈ g.blocks, (g'.node b).start = (g.node b).start) : g'.Shared := by
  have hlisted : ∀ f ∈ g.fragments, g'.listed f = g.listed f := fun f hm => by
    rw [listed, hk f hm, listed]
  refine ⟨fun f hm => ?_, hf ▸ h.nodup, ?_, fun f hm => ?_⟩
  · rw [hf] at hm
    rw [Node.isFragment, hk f hm]
    exact h.fragment f hm
  · rw [hf, hb, List.flatMap_def, List.map_congr_left hlisted, ← List.flatMap_def]
    exact h.perm
  · rw [hf] at hm
    rw [hlisted f hm]
    exact (h.order f hm).congr fun b hmem => hs b (h.mem_blocks hm hmem)

theorem keepGist (h : g.Shared) (hb : g'.blocks = g.blocks) (hf : g'.fragments = g.fragments)
    (hg : ∀ i, g'.gist i = g.gist i) : g'.Shared :=
  h.keep hb hf (fun f _ => by rw [hg f]) fun b _ => by rw [← gist_start, hg b, gist_start]

/-- A block more after `n`, in the list of blocks and in the fragment that lists `n`. -/
theorem insertAfter (h : g.Shared) {n second : NodeId} (hn : n ∈ g.blocks)
    (hb : g'.blocks = Graph.insertAfter n second g.blocks) (hf : g'.fragments = g.fragments)
    (hk : ∀ f ∈ g.fragments, (g'.gist f).kind = (g.gist f).kind)
    (hs : ∀ b ∈ g.blocks, (g'.node b).start = (g.node b).start)
    (hlow : (g.node n).start < (g'.node second).start)
    (hhigh : ∀ b ∈ g.blocks, (g.node n).start < (g.node b).start →
      (g'.node second).start < (g.node b).start) :
    (g'.insertInFragment n second g.fragments).Shared := by
  have hlisted : ∀ f ∈ g.fragments, g'.listed f = g.listed f := fun f hm => by
    rw [listed, hk f hm, listed]
  obtain ⟨f, hfmem, hnf⟩ := List.mem_flatMap.mp (h.perm.symm.subset hn)
  obtain ⟨f₀, hf₀, hn₀, hgrown, hkind, hother⟩ :=
    insertInFragment_listed g' second ⟨f, hfmem, hlisted f hfmem ▸ hnf⟩
  rw [hlisted f₀ hf₀] at hn₀ hgrown
  have hrest : ∀ f ∈ g.fragments, f ≠ f₀ →
      (g'.insertInFragment n second g.fragments).listed f = g.listed f := fun f hm hne => by
    rw [listed, hother f hne, ← listed, hlisted f hm]
  have hfrag : (g'.insertInFragment n second g.fragments).fragments = g.fragments := by
    rw [fragments_insertInFragment, hf]
  have hstart : ∀ b ∈ g.blocks, ((g'.insertInFragment n second g.fragments).node b).start =
      (g.node b).start := fun b hm => by rw [start_insertInFragment, hs b hm]
  refine ⟨fun f hm => ?_, by rw [hfrag]; exact h.nodup, ?_, fun f hm => ?_⟩
  · rw [hfrag] at hm
    by_cases hne : f = f₀
    · rw [hne]; exact hkind
    · rw [hother f hne, Node.isFragment, hk f hm]
      exact h.fragment f hm
  · rw [hfrag, blocks_insertInFragment, hb]
    refine (flatMap_perm_cons h.nodup hf₀ ?_ hrest).trans
      ((h.perm.cons second).trans (insertAfter_perm hn).symm)
    rw [hgrown]
    exact insertAfter_perm hn₀
  · rw [hfrag] at hm
    have hmem : ∀ b ∈ g.listed f, b ∈ g.blocks := fun b hb => h.mem_blocks hm hb
    have hord := (h.order f hm).congr fun b hb => hstart b (hmem b hb)
    by_cases hne : f = f₀
    · subst hne
      rw [hgrown]
      refine hord.insertAfter hn₀ ?_ fun b hb => ?_
      · rw [hstart n hn, start_insertInFragment]; exact hlow
      · rw [hstart n hn, hstart b (hmem b hb), start_insertInFragment]
        exact hhigh b (hmem b hb)
    · rw [hrest f hm hne]; exact hord

theorem splitBlock (h : g.Shared) (ht : g.Tiled code) (hc : Contiguous 0 code.instrs) (hs : g.Sound)
    {n : NodeId} (hn : n ∈ g.blocks) (address : Nat) : (g.splitBlock n address).1.Shared := by
  rcases splitBlock_cases g n address with he | ⟨k, hk⟩
  · rw [he]; exact h
  obtain ⟨hlow, hhigh, -, -⟩ := ht.split_bounds hc hn hk
  have hlt : n < g.nodes.size := hs.blocks n hn
  have hblock := (ht.holds n hn).block
  have hgist : ∀ i, i < g.nodes.size → i ≠ n → (g.halve n address (k + 1)).gist i = g.gist i :=
    fun i hi hne => (gist_halve ..).trans (gist_cutBlock_of_ne address (k + 1) hi hne)
  have hsecond : ((g.halve n address (k + 1)).node g.nodes.size).start = address := by
    rw [← gist_start, gist_halve, gist_cutBlock_new address (k + 1) hlt]; rfl
  rw [splitBlock_eq hk]
  refine h.insertAfter hn (blocks_halve ..) (fragments_halve ..) (fun f hf => ?_) (fun b hb => ?_)
    (by rw [hsecond]; exact hlow) fun b hb hafter => ?_
  · have hne : f ≠ n := fun he => by
      have := Node.isBlock_of_isFragment (h.fragment f hf)
      rw [he] at this
      exact absurd (hblock.symm.trans this) (by simp)
    rw [hgist f (Carving.lt_of_isFragment (h.fragment f hf)) hne]
  · by_cases hne : b = n
    · rw [hne, ← gist_start, gist_halve, gist_cutBlock_self address (k + 1) hlt hblock]; rfl
    · rw [← gist_start, hgist b (hs.blocks b hb) hne, gist_start]
  · rw [hsecond]
    exact Nat.lt_of_lt_of_le hhigh (ht.stop_le hn hb hafter)

end Graph.Shared

/-- Edits that make no fragments leave the blocks shared out among those there are. -/
theorem Edited.shared (h : Edited craft base g) (hcraft : craft ≠ .fragments) (hs : base.Sound)
    (hc : Contiguous 0 code.instrs) (ht : base.Tiled code) (hsh : base.Shared) : g.Shared := by
  induction h with
  | refl => exact hsh
  | @patch g h n f hf ih =>
    refine ih.keep rfl rfl (fun k hm => ?_) fun b hb => ?_
    · rw [gist_kind, node_modifyNode]
      split
      · rename_i hi; rw [hi.1]; exact hf.fragment hcraft (hi.1 ▸ ih.fragment k hm)
      · rfl
    · rw [node_modifyNode]
      split
      · rename_i hi; rw [hi.1]; exact hf.start
      · rfl
  | setLoops _ _ _ ih => exact ⟨ih.fragment, ih.nodup, ih.perm, ih.order⟩
  | setFragments _ hc => exact absurd hc hcraft
  | @add g h kind hk start stop slots ih =>
    refine ih.keep rfl rfl (fun f hf => ?_) fun b hb => ?_
    · rw [gist_add_of_lt _ _ (Carving.lt_of_isFragment (ih.fragment f hf))]
    · rw [← gist_start, gist_add_of_lt _ _ ((h.sound hs).blocks b hb), gist_start]
  | connect _ a b _ _ _ ih => exact ih.keepGist rfl rfl fun i => gist_connect ..
  | disconnect _ a b ih => exact ih.keepGist rfl rfl fun i => gist_disconnect ..
  | disconnectSuccessors _ n ih =>
    exact ih.keepGist (blocks_disconnectSuccessors ..) (fragments_disconnectSuccessors ..)
      fun i => gist_disconnectSuccessors ..
  | replaceSuccessor _ n old _ _ _ ih =>
    exact ih.keepGist (blocks_replaceSuccessor ..) (fragments_replaceSuccessor ..)
      fun i => gist_replaceSuccessor ..
  | writeSlot _ n slot child _ _ _ ih => exact ih.keepGist rfl rfl fun i => gist_writeSlot ..
  | swapChild _ p old _ _ _ ih => exact ih.keepGist rfl rfl fun i => gist_mapChildren ..
  | splitBlock h _ hb address ih =>
    exact ih.splitBlock (h.tiled hs hc ht) hc (h.sound hs) hb address

/-! ## Runs of passes -/

theorem Edited.fragments_eq (h : Edited craft base g) (hcraft : craft ≠ .fragments) :
    g.fragments = base.fragments := by
  induction h with
  | refl => rfl
  | patch _ _ ih => exact ih
  | setLoops _ _ _ ih => exact ih
  | setFragments _ hc => exact absurd hc hcraft
  | add _ _ _ _ _ _ ih => exact ih
  | connect _ _ _ _ _ _ ih => exact ih
  | disconnect _ _ _ ih => exact ih
  | disconnectSuccessors _ _ ih => rw [fragments_disconnectSuccessors, ih]
  | replaceSuccessor _ _ _ _ _ _ ih => rw [fragments_replaceSuccessor, ih]
  | writeSlot _ _ _ _ _ _ _ ih => exact ih
  | swapChild _ _ _ _ _ _ ih => exact ih
  | @splitBlock g _ _ b _ address ih =>
    rcases splitBlock_cases g b address with he | ⟨k, hk⟩
    · rw [he, ih]
    · rw [splitBlock_eq hk, fragments_insertInFragment, fragments_halve, ih]

/-- The blocks of a graph, as they are listed, against the entry they were cut from. -/
structure Graph.BlockList (code : CodeEntry) (g : Graph) : Prop where
  ascending : g.blocks.Pairwise fun a b => (g.node a).start < (g.node b).start
  first : ∃ b, g.blocks.head? = some b ∧ (g.node b).start = 0
  adjacent : ∀ a b, [a, b] <:+: g.blocks → (g.node a).stop = (g.node b).start
  last : ∃ b, g.blocks.getLast? = some b ∧ (g.node b).start = code.length ∧
    (g.node b).stop = code.length ∧ g.instrs b = []
  instrs : ∀ b ∈ g.blocks, (g.instrs b).Sublist code.instrs ∧
    (g.instrs b).Pairwise (fun i j => i.address < j.address) ∧
    ∀ i ∈ g.instrs b, (g.node b).start ≤ i.address ∧ i.address < (g.node b).stop

theorem Tiles.adjacent {stop start : Nat} {ns : List Node} {n m : Node} (h : Tiles stop start ns)
    (hi : [n, m] <:+: ns) : n.stop = m.start := by
  induction ns generalizing start with
  | nil => exact h.elim
  | cons k ns ih =>
    cases ns with
    | nil => exact absurd hi.length_le (by simp)
    | cons k' ns =>
      obtain ⟨_, _, hrest⟩ := h
      rcases List.infix_cons_iff.mp hi with hp | hi
      · obtain ⟨t, ht⟩ := hp
        cases ht
        cases t with
        | nil => exact hrest.1.trans hrest.2.1.symm
        | cons => exact hrest.1.symm
      · exact ih hrest hi

theorem Tiles.last {stop start : Nat} {ns : List Node} (h : Tiles stop start ns) :
    ∃ n, ns.getLast? = some n ∧ n.start = stop ∧ n.stop = stop := by
  induction ns generalizing start with
  | nil => exact h.elim
  | cons n ns ih =>
    cases ns with
    | nil => exact ⟨n, rfl, h.2⟩
    | cons m ns => simpa using ih h.2.2

theorem Tiles.first {stop start : Nat} {ns : List Node} (h : Tiles stop start ns) :
    ∃ n, ns.head? = some n ∧ n.start = start := by
  match ns, h with
  | [n], h => exact ⟨n, rfl, h.2.1.trans h.1.symm⟩
  | n :: _ :: _, h => exact ⟨n, rfl, h.1⟩

theorem Graph.Tiled.blockList (h : g.Tiled code) (hc : Contiguous 0 code.instrs) :
    g.BlockList code := by
  obtain ⟨n, hn, hfirst⟩ := h.tiles.first
  obtain ⟨m, hm, hstart, hstop⟩ := h.tiles.last
  rw [List.head?_map, Option.map_eq_some_iff] at hn
  rw [List.getLast?_map, Option.map_eq_some_iff] at hm
  obtain ⟨b, hb, rfl⟩ := hn
  obtain ⟨c, hcl, rfl⟩ := hm
  refine ⟨h.ascending, ⟨b, hb, hfirst⟩, fun a b hi => h.tiles.adjacent (hi.map g.node),
    ⟨c, hcl, hstart, hstop, ?_⟩, fun b hb => ?_⟩
  · -- an instruction would stand both at or past the end and before it
    refine List.eq_nil_iff_forall_not_mem.mpr fun i hi => ?_
    have := (h.holds c (List.mem_of_getLast? hcl)).bounds i hi
    omega
  · have hold := h.holds b hb
    exact ⟨hold.sublist, hc.pairwise.sublist hold.sublist, hold.bounds⟩

/-- How far the carving of fragments has got. -/
inductive Stage where
  | whole
  | carved
  /-- Carving stopped with an error. -/
  | torn

/-- The graphs that passes in any order make of an entry's blocks, with fragments carved at most
once. -/
inductive Run (code : CodeEntry) : Stage → Graph → Prop
  | start {g : Graph} (h : findBlocks code = .ok g) : Run code .whole g
  | pass {stage : Stage} {g : Graph} (h : Run code stage g) (p : Phase) (hp : p.carves = false) :
      Run code stage (p.after g)
  | carve {g g' : Graph} (h : Run code .whole g) (entry : CodeEntry)
      (hr : (findFragments entry).run g = .ok () g') : Run code .carved g'
  | tear {g g' : Graph} {e : FlowError} (h : Run code .whole g) (entry : CodeEntry)
      (hr : (findFragments entry).run g = .error e g') : Run code .torn g'

namespace Run

variable {stage : Stage}

theorem sound (h : Run code stage g) : g.Sound := by
  induction h with
  | start h => exact findBlocks_sound h
  | pass _ p _ ih => exact (p.after_edited ih).sound ih
  | carve _ entry hr ih => exact ((findFragments_edited ih entry).of_ok hr).sound ih
  | tear _ entry hr ih => exact ((findFragments_edited ih entry).of_error hr).sound ih

theorem tiled (hc : Contiguous 0 code.instrs) (h : Run code stage g) : g.Tiled code := by
  induction h with
  | start h => exact findBlocks_tiled hc h
  | pass h p _ ih => exact (p.after_edited h.sound).tiled h.sound hc ih
  | carve h entry hr ih =>
    exact ((findFragments_edited h.sound entry).of_ok hr).tiled h.sound hc ih
  | tear h entry hr ih =>
    exact ((findFragments_edited h.sound entry).of_error hr).tiled h.sound hc ih

theorem fragments_whole (h : Run code .whole g) : g.fragments = [] := by
  generalize hstage : Stage.whole = stage at h
  induction h with
  | start h =>
    obtain ⟨_, _, hw⟩ := findBlocks_wired h
    exact hw.fragments
  | pass h p hp ih =>
    have hed := p.after_edited h.sound
    exact (hed.fragments_eq (Phase.craft_ne_fragments hp)).trans (ih hstage)
  | carve => cases hstage
  | tear => cases hstage

theorem shared (hc : Contiguous 0 code.instrs) (h : Run code .carved g) : g.Shared := by
  generalize hstage : Stage.carved = stage at h
  induction h with
  | start => cases hstage
  | pass h p hp ih =>
    have hed := p.after_edited h.sound
    exact hed.shared (Phase.craft_ne_fragments hp) h.sound hc (h.tiled hc) (ih hstage)
  | @carve g g' h entry hr _ =>
    obtain ⟨fs, hcarving⟩ := (findFragments_carving h.sound entry).of_ok hr
    have hfs : g'.fragments = fs := by rw [hcarving.fragments, h.fragments_whole, List.nil_append]
    have hasc := ((h.carve entry hr).tiled hc).ascending
    rw [hcarving.blocks] at hasc
    subst hfs
    exact ⟨hcarving.fragment, hcarving.nodup, by rw [hcarving.blocks]; exact hcarving.perm,
      fun f hf => hasc.sublist (hcarving.order f hf)⟩
  | tear => cases hstage

end Run

/-- In whatever order passes run, the blocks stay listed as they tile the code, a look-up by address
finds exactly the block that starts there, and carved fragments partition the list. -/
theorem blockList_of_run {stage : Stage} (hc : Contiguous 0 code.instrs) (h : Run code stage g) :
    g.BlockList code ∧
      (∀ address b, g.blockAt? address = some b ↔ b ∈ g.blocks ∧ (g.node b).start = address) ∧
      (stage = .carved → g.Shared) := by
  have ht := h.tiled hc
  refine ⟨ht.blockList hc, fun _ _ => blockAt?_eq_some_iff ht.ascending, ?_⟩
  rintro rfl
  exact h.shared hc

/-- A function embedded in an entry that jumps over it. -/
def nested : CodeEntry :=
  { name := "outer", length := 16, children := [{ name := "inner", length := 16, start := 4 }]
    instrs := [⟨0, .b, none, .double, .double, .branch 12⟩, ⟨4, .popz, none, .var, .double, .none⟩,
      ⟨8, .exit, none, .int32, .double, .none⟩, ⟨12, .exit, none, .int32, .double, .none⟩] }

theorem blockList_of_run_nested : ∃ g g', findBlocks nested = .ok g ∧
    (findFragments nested).run g = .ok () g' ∧ g'.fragments.map g'.listed = [[0, 2, 3], [1]] ∧
    let g := Phase.switches.after (Phase.loops.after g')
    g.BlockList nested ∧
      (∀ address b, g.blockAt? address = some b ↔ b ∈ g.blocks ∧ (g.node b).start = address) ∧
      g.Shared := by
  refine ⟨_, _, rfl, rfl, by decide, ?_⟩
  have hstart : Run nested .whole _ := .start rfl
  have hrun := ((hstart.carve nested rfl).pass .loops rfl).pass .switches rfl
  have hc : Contiguous 0 nested.instrs := ⟨rfl, rfl, rfl, rfl, trivial⟩
  obtain ⟨hlist, hfind, hshared⟩ := blockList_of_run hc hrun
  exact ⟨hlist, hfind, hshared rfl⟩

end GmlLift
