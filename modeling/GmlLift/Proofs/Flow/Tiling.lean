import GmlLift.Proofs.Flow.BlockGraph
import GmlLift.Proofs.Flow.Lookup

/-! # Blocks tile the code

Instructions that follow one another without gaps are cut into blocks that do so too, with an empty
block at the end of the code. -/
namespace GmlLift

/-- Instructions that follow one another without gaps from an address on. -/
def Contiguous : Nat → List Instr → Prop
  | _, [] => True
  | start, i :: rest => i.address = start ∧ Contiguous i.endAddress rest

instance Contiguous.decidable : (start : Nat) → (is : List Instr) → Decidable (Contiguous start is)
  | _, [] => inferInstanceAs (Decidable True)
  | start, i :: rest =>
    have := Contiguous.decidable i.endAddress rest
    inferInstanceAs (Decidable (i.address = start ∧ Contiguous i.endAddress rest))

/-- Where instructions that start at an address end. -/
def endFrom : Nat → List Instr → Nat
  | start, [] => start
  | _, i :: rest => endFrom i.endAddress rest

theorem Instr.address_lt_endAddress (i : Instr) : i.address < i.endAddress := by
  have : 0 < i.size := by
    unfold Instr.size
    repeat' split
    all_goals decide
  exact Nat.lt_add_of_pos_right this

namespace Contiguous

variable {start : Nat} {is js : List Instr}

theorem append : Contiguous start (is ++ js) ↔
    Contiguous start is ∧ Contiguous (endFrom start is) js := by
  induction is generalizing start with
  | nil => simp [Contiguous, endFrom]
  | cons i is ih => simp only [List.cons_append, Contiguous, endFrom, ih, and_assoc]

theorem le_endFrom (h : Contiguous start is) : start ≤ endFrom start is := by
  induction is generalizing start with
  | nil => exact Nat.le_refl _
  | cons i is ih =>
    have := i.address_lt_endAddress
    have hrest : i.endAddress ≤ endFrom i.endAddress is := ih h.2
    have hstart := h.1
    simp only [endFrom]
    omega

theorem lt_endFrom (h : Contiguous start is) (hne : is ≠ []) : start < endFrom start is := by
  cases is with
  | nil => exact absurd rfl hne
  | cons i is =>
    have := i.address_lt_endAddress
    have hrest : i.endAddress ≤ endFrom i.endAddress is := le_endFrom h.2
    have hstart := h.1
    simp only [endFrom]
    omega

/-- Every instruction stands between the two ends. -/
theorem bounds (h : Contiguous start is) {i : Instr} (hi : i ∈ is) :
    start ≤ i.address ∧ i.address < endFrom start is := by
  induction is generalizing start with
  | nil => cases hi
  | cons j is ih =>
    have hj := j.address_lt_endAddress
    have hrest : j.endAddress ≤ endFrom j.endAddress is := le_endFrom h.2
    have hstart := h.1
    simp only [endFrom]
    rcases List.mem_cons.mp hi with rfl | hi
    · omega
    · have := ih h.2 hi
      omega

theorem pairwise (h : Contiguous start is) : is.Pairwise fun i j => i.address < j.address := by
  induction is generalizing start with
  | nil => exact .nil
  | cons i is ih =>
    refine List.pairwise_cons.mpr ⟨fun j hj => ?_, ih h.2⟩
    have := i.address_lt_endAddress
    have := (h.2.bounds hj).1
    omega

end Contiguous

theorem endOf_eq_endFrom (start : Nat) {is : List Instr} (h : is ≠ []) :
    CodeEntry.endOf is = endFrom start is := by
  induction is generalizing start with
  | nil => exact absurd rfl h
  | cons i is ih =>
    cases is with
    | nil => rfl
    | cons j is =>
      have := ih i.endAddress (by simp)
      simpa [CodeEntry.endOf, endFrom] using this

/-- Code from the start ends where it ends also when there is none. -/
theorem endOf_eq_endFrom_zero (is : List Instr) : CodeEntry.endOf is = endFrom 0 is := by
  cases is with
  | nil => rfl
  | cons i is => exact endOf_eq_endFrom 0 (List.cons_ne_nil i is)

theorem endFrom_append (start : Nat) (is js : List Instr) :
    endFrom start (is ++ js) = endFrom (endFrom start is) js := by
  induction is generalizing start with
  | nil => rfl
  | cons i is ih => exact ih i.endAddress

/-- Blocks one after the other from `start` on, with an empty one at `stop`. -/
def Tiles (stop : Nat) : Nat → List Node → Prop
  | _, [] => False
  | start, [n] => start = stop ∧ n.start = stop ∧ n.stop = stop
  | start, n :: m :: rest => n.start = start ∧ start < n.stop ∧ Tiles stop n.stop (m :: rest)

theorem Tiles.cons {stop start : Nat} {n : Node} {ns : List Node} (hstart : n.start = start)
    (hlt : start < n.stop) (h : Tiles stop n.stop ns) : Tiles stop start (n :: ns) := by
  cases ns with
  | nil => exact h.elim
  | cons m ns => exact ⟨hstart, hlt, h⟩

/-- A block of an entry's own instructions, each within its bounds. -/
structure Holds (code : List Instr) (n : Node) : Prop where
  block : n.isBlock = true
  sublist : n.instrs.Sublist code
  bounds : ∀ i ∈ n.instrs, n.start ≤ i.address ∧ i.address < n.stop

namespace Blocks

theorem cut_flatten (points : List Nat) (is : List Instr) : (cut points is).flatten = is := by
  induction is with
  | nil => rfl
  | cons i is ih =>
    simp only [cut]
    cases hc : cut points is with
    | nil => rw [hc] at ih; simp at ih; simp [ih]
    | cons group groups =>
      rw [hc] at ih
      cases group with
      | nil => simpa using ih
      | cons j group =>
        dsimp only
        split <;> simpa using ih

theorem cut_ne_nil (points : List Nat) (is : List Instr) : ∀ group ∈ cut points is, group ≠ [] := by
  induction is with
  | nil => intro group h; cases h
  | cons i is ih =>
    simp only [cut]
    cases hc : cut points is with
    | nil => simp
    | cons group groups =>
      rw [hc] at ih
      cases group with
      | nil => exact absurd rfl (ih [] (by simp))
      | cons j group =>
        dsimp only
        split <;> simp_all

/-- Groups of instructions that follow one another make blocks that do so, each with the code of its
group. -/
theorem nodesFrom_tiles {code : List Instr} {stop start : Nat} {groups : List (List Instr)}
    (hne : groups ≠ []) (hg : ∀ group ∈ groups, group ≠ []) (hc : Contiguous start groups.flatten)
    (hstop : endFrom start groups.flatten = stop) (hsub : groups.flatten.Sublist code) :
    Tiles stop start (nodesFrom stop start groups) ∧
      ∀ n ∈ nodesFrom stop start groups, Holds code n := by
  induction groups generalizing start with
  | nil => exact absurd rfl hne
  | cons group groups ih =>
    rw [List.flatten_cons] at hc hstop hsub
    have hgroup := (Contiguous.append.mp hc).1
    have hlt := hgroup.lt_endFrom (hg group (by simp))
    cases groups with
    | nil =>
      rw [List.flatten_nil, List.append_nil] at hc hstop hsub
      subst hstop
      refine ⟨⟨rfl, hlt, rfl, rfl, rfl⟩, fun n hn => ?_⟩
      rcases List.mem_cons.mp hn with rfl | hn
      · exact ⟨rfl, hsub, fun i hi => hgroup.bounds hi⟩
      · rw [List.mem_singleton.mp hn]
        exact ⟨rfl, List.nil_sublist _, fun i hi => by cases hi⟩
    | cons next groups =>
      obtain ⟨j, next', rfl⟩ := List.exists_cons_of_ne_nil (hg next (by simp))
      have hrest := (Contiguous.append.mp hc).2
      have hj : j.address = endFrom start group := hrest.1
      rw [endFrom_append] at hstop
      rw [← hj] at hrest hstop hlt
      obtain ⟨htiles, hholds⟩ := ih (by simp) (fun g hm => hg g (List.mem_cons_of_mem _ hm)) hrest
        hstop ((List.sublist_append_right ..).trans hsub)
      refine ⟨.cons rfl hlt htiles, fun n hn => ?_⟩
      rcases List.mem_cons.mp hn with rfl | hn
      · refine ⟨rfl, (List.sublist_append_left ..).trans hsub, fun i hi => ?_⟩
        have := hgroup.bounds hi
        rw [← hj] at this
        exact this
      · exact hholds n hn

theorem nodesOf_tiles (points : List Nat) {code : CodeEntry} (hc : Contiguous 0 code.instrs)
    (hlength : CodeEntry.endOf code.instrs = code.length) :
    Tiles code.length 0 (nodesOf points code) ∧ ∀ n ∈ nodesOf points code, Holds code.instrs n := by
  have hflat := cut_flatten points code.instrs
  unfold nodesOf
  split
  · rename_i hcut
    rw [hcut, List.flatten_nil] at hflat
    rw [← hflat] at hlength
    refine ⟨⟨hlength, rfl, rfl⟩, fun n hn => ?_⟩
    rw [List.mem_singleton.mp hn]
    exact ⟨rfl, List.nil_sublist _, fun i hi => by cases hi⟩
  · rename_i hne
    have hsub : (cut points code.instrs).flatten.Sublist code.instrs := by
      simp [hflat]
    refine nodesFrom_tiles hne (cut_ne_nil points code.instrs) (hflat.symm ▸ hc) ?_ hsub
    rw [hflat, ← endOf_eq_endFrom 0 fun he => hne (by rw [he]; rfl)]
    exact hlength

end Blocks

/-- The blocks of a graph tile an entry's code. -/
structure Graph.Tiled (code : CodeEntry) (g : Graph) : Prop where
  tiles : Tiles code.length 0 (g.blocks.map g.node)
  holds : ∀ b ∈ g.blocks, Holds code.instrs (g.node b)

theorem Tiles.congr {stop start : Nat} {ns ms : List Node}
    (h : ns.map (fun n => (n.start, n.stop)) = ms.map fun n => (n.start, n.stop))
    (ht : Tiles stop start ns) : Tiles stop start ms := by
  induction ns generalizing start ms with
  | nil => exact ht.elim
  | cons n ns ih =>
    cases ms with
    | nil => cases h
    | cons m ms =>
      simp only [List.map_cons, List.cons.injEq, Prod.mk.injEq] at h
      obtain ⟨⟨hstart, hstop⟩, hrest⟩ := h
      cases ns with
      | nil =>
        cases ms with
        | nil => exact ⟨ht.1, hstart ▸ ht.2.1, hstop ▸ ht.2.2⟩
        | cons => cases hrest
      | cons n' ns => exact .cons (hstart ▸ ht.1) (hstop ▸ ht.2.1) (ih hrest (hstop ▸ ht.2.2))

theorem findBlocks_tiled {code : CodeEntry} {g : Graph} (hc : Contiguous 0 code.instrs)
    (h : findBlocks code = .ok g) : g.Tiled code := by
  obtain ⟨hlength, points, hw⟩ := findBlocks_wired h
  obtain ⟨htiles, hholds⟩ := Blocks.nodesOf_tiles points hc hlength
  generalize Blocks.nodesOf points code = nodes at htiles hholds hw
  have hnodes := Blocks.map_node_islands nodes code.length
  generalize Blocks.islands nodes code.length = base at hnodes hw
  subst hnodes
  refine ⟨htiles.congr ?_, fun b hb => ?_⟩
  · rw [hw.blocks, List.map_map, List.map_map]
    exact List.map_congr_left fun b _ => by simp [hw.start, hw.stop]
  · have := hholds _ (List.mem_map_of_mem (hw.blocks ▸ hb))
    refine ⟨?_, ?_, ?_⟩
    · rw [Node.isBlock, hw.kind]; exact this.block
    · rw [Node.instrs, hw.kind]; exact this.sublist
    · rw [Node.instrs, hw.kind, hw.start, hw.stop]; exact this.bounds

end GmlLift
