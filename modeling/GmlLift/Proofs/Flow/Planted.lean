import GmlLift.Proofs.Flow.Idle
import GmlLift.Proofs.Flow.Outline

/-! # The graph of laid out code under its root

Laid out code without embedded functions reaches the passes that fold constructs as the graph of its
blocks with one more node, that of the entry. Blocks are numbered in address order, so looking one up
is arithmetic. -/
namespace GmlLift

open GmlLift.Graph Cell

/-! ## Blocks in order -/

namespace Graph

variable {g : Graph} {m j : Nat}

theorem range_split (hj : j < m) :
    List.range m = List.range j ++ j :: List.range' (j + 1) (m - (j + 1)) := by
  have hsplit := List.range'_append_1 (s := 0) (m := j) (n := m - (j + 1) + 1)
  have htotal : j + (m - (j + 1) + 1) = m := by omega
  rw [Nat.zero_add, List.range'_succ, htotal] at hsplit
  rw [List.range_eq_range', List.range_eq_range', hsplit]

theorem bne_of_mem_range {x : Nat} (hx : x ∈ List.range j) : (x != j) = true := by
  simpa using Nat.ne_of_lt (List.mem_range.mp hx)

/-- A test that one number in a range passes. -/
theorem filter_range_of_lone {p : Nat → Bool} (hj : j < m) (hself : p j = true)
    (hother : ∀ x < m, x ≠ j → p x = false) : (List.range m).filter p = [j] := by
  have hbefore : (List.range j).filter p = [] := by
    refine List.filter_eq_nil_iff.mpr fun x hx => ?_
    have hlt := List.mem_range.mp hx
    rw [hother x (by omega) (by omega)]
    exact Bool.false_ne_true
  have hafter : (List.range' (j + 1) (m - (j + 1))).filter p = [] := by
    refine List.filter_eq_nil_iff.mpr fun x hx => ?_
    have hbounds := List.mem_range'_1.mp hx
    rw [hother x (by omega) (by omega)]
    exact Bool.false_ne_true
  rw [range_split hj, List.filter_append, hbefore, List.filter_cons_of_pos hself, hafter]
  rfl

theorem blocksAfter_range (h : g.blocks = List.range m) (hj : j < m) :
    g.blocksAfter j = List.range' (j + 1) (m - (j + 1)) := by
  rw [blocksAfter, h, range_split hj, List.dropWhile_append_of_pos fun x hx => bne_of_mem_range hx]
  simp

theorem blocksBefore_range (h : g.blocks = List.range m) (hj : j < m) :
    g.blocksBefore j = List.range j := by
  rw [blocksBefore, h, range_split hj, List.takeWhile_append_of_pos fun x hx => bne_of_mem_range hx]
  simp

theorem nextBlock?_range (h : g.blocks = List.range m) (hj : j + 1 < m) :
    g.nextBlock? j = some (j + 1) := by
  rw [nextBlock?, blocksAfter_range h (by omega)]
  obtain ⟨k, hk⟩ : ∃ k, m - (j + 1) = k + 1 := ⟨m - (j + 1) - 1, by omega⟩
  rw [hk, List.range'_succ]
  rfl

end Graph

/-- The blocks of a layout stand in a graph where their code does. -/
structure Stands (cells : List Cell) (g : Graph) : Prop where
  blocks : g.blocks = List.range (cells.length + 1)
  start : ∀ k ≤ cells.length, (g.node k).start = startOf cells k
  stop : ∀ k < cells.length, (g.node k).stop = startOf cells (k + 1)

/-- A mark of dead code does not move a block. -/
theorem Stands.setUnreachable {cells : List Cell} {g : Graph} (h : Stands cells g) (n : NodeId)
    (b : Bool) : Stands cells (g.setUnreachable n b) := by
  have hplace : ∀ x, ((g.setUnreachable n b).node x).start = (g.node x).start ∧
      ((g.setUnreachable n b).node x).stop = (g.node x).stop := fun x => by
    rw [Graph.setUnreachable, node_modifyNode]
    split <;> exact ⟨rfl, rfl⟩
  exact ⟨h.blocks, fun x hx => (hplace x).1.trans (h.start x hx),
    fun x hx => (hplace x).2.trans (h.stop x hx)⟩

namespace Stands

variable {cells : List Cell} {code : CodeEntry} {g : Graph} (h : Stands cells g)
  (hlaid : Sketches cells code)
include h hlaid

/-- Each block is found at its start. -/
theorem blockAt?_startOf {k : Nat} (hk : k ≤ cells.length) :
    g.blockAt? (startOf cells k) = some k := by
  have hascending : g.Ascending g.blocks := by
    rw [h.blocks, Ascending]
    refine (List.pairwise_lt_range).imp_of_mem fun hi hj hij => ?_
    rw [List.mem_range] at hi hj
    rw [h.start _ (by omega), h.start _ (by omega)]
    exact startOf_lt hlaid.contiguous_code hlaid.filled hij (by omega)
  exact (blockAt?_eq_some_iff hascending).mpr
    ⟨by rw [h.blocks, List.mem_range]; omega, h.start k hk⟩

/-- Each block is found at its end. -/
theorem blockEndingAt?_startOf {k : Nat} (hk : k < cells.length) :
    g.blockEndingAt? (startOf cells (k + 1)) = some k := by
  have hother : ∀ x ≤ cells.length, x ≠ k → ((g.node x).stop == startOf cells (k + 1) &&
      decide ((g.node x).start < startOf cells (k + 1))) = false := by
    intro x hx hne
    rcases Nat.lt_or_eq_of_le hx with hlt | rfl
    · have hstop : (g.node x).stop ≠ startOf cells (k + 1) := by
        rw [h.stop x hlt]
        intro he
        have hinj := startOf_inj hlaid.contiguous_code hlaid.filled (Nat.succ_le_of_lt hlt)
          (Nat.succ_le_of_lt hk) he
        exact hne (Nat.succ.inj hinj)
      simp [hstop]
    · have hstart : ¬ (g.node cells.length).start < startOf cells (k + 1) := by
        rw [h.start _ (Nat.le_refl _)]
        rcases Nat.lt_or_eq_of_le (Nat.succ_le_of_lt hk) with hlt | heq
        · exact Nat.not_lt.mpr (Nat.le_of_lt
            (startOf_lt hlaid.contiguous_code hlaid.filled hlt (Nat.le_refl _)))
        · rw [← heq]
          exact Nat.lt_irrefl _
      simp [hstart]
  have hself : ((g.node k).stop == startOf cells (k + 1) &&
      decide ((g.node k).start < startOf cells (k + 1))) = true := by
    rw [h.stop k hk, h.start k (Nat.le_of_lt hk)]
    simpa using startOf_lt_succ hlaid.contiguous_code hlaid.filled hk
  rw [blockEndingAt?, h.blocks, filter_range_of_lone (Nat.lt_succ_of_lt hk) hself fun x hx hne =>
    hother x (Nat.le_of_lt_succ hx) hne]
  rfl

end Stands

/-- The graph of laid out code with the node of its entry. -/
structure Planted (cells : List Cell) (code : CodeEntry) (g : Graph) : Prop where
  sound : g.Sound
  size : g.nodes.size = cells.length + 2
  blocks : g.blocks = List.range (cells.length + 1)
  fragments : g.fragments = [cells.length + 1]
  loops : g.loops = []
  codeLength : g.codeLength = startOf cells cells.length
  root : g.face (cells.length + 1) =
    { start := 0, stop := code.length, children := [some 0]
      kind := .fragment code.name code.argumentCount (List.range (cells.length + 1)) }
  face : ∀ j c, cells[j]? = some c → g.face j =
    { start := startOf cells j, stop := startOf cells (j + 1), kind := .block c.instrs
      succs := c.nexts ++ if Entered cells (j + 1) then [] else [j + 1]
      parent := if j = 0 then some (cells.length + 1) else none
      unreachable := decide (0 < j ∧ ¬ Entered cells j) }
  last : g.face cells.length =
    { start := startOf cells cells.length, stop := startOf cells cells.length
      kind := .block [], unreachable := decide (¬ Entered cells cells.length) }

theorem Outlined.planted {cells : List Cell} {code : CodeEntry} {base g : Graph}
    (h : Outlined cells base) (hne : cells ≠ []) (hg : Rooted code base g) :
    Planted cells code g := by
  have hpos : 0 < cells.length := List.length_pos_iff.mpr hne
  have hhead : base.blocks.head? = some 0 := by rw [h.blocks, List.head?_range]; simp
  have hsize : base.nodes.size = cells.length + 1 := h.size
  have hroot := hg.root
  rw [hsize, hhead, h.blocks] at hroot
  refine ⟨hg.sound, by rw [hg.size, hsize], hg.blocks.trans h.blocks, ?_, hg.loops.trans h.loops,
    hg.codeLength.trans h.codeLength, hroot, fun j c hj => ?_, ?_⟩
  · rw [hg.fragments, h.fragments, hsize]
    rfl
  · obtain ⟨hlt, -⟩ := List.getElem?_eq_some_iff.mp hj
    by_cases hzero : j = 0
    · subst hzero
      rw [hg.first 0 hhead, h.face 0 c hj, hsize]
      rfl
    · rw [hg.face j (by omega) (by rw [hhead]; simpa using Ne.symm hzero), h.face j c hj,
        if_neg hzero]
  · rw [hg.face cells.length (by omega) (by rw [hhead]; simpa using Nat.ne_of_lt hpos), h.last]
    simp [hpos]

/-- The first two steps of the analysis of code that is cut into the blocks of a layout. -/
theorem Sketches.exists_planted {cells : List Cell} {code : CodeEntry} (h : Sketches cells code)
    (hne : cells ≠ []) : ∃ base g, findBlocks code = .ok base ∧
      (findFragments code).run base = .ok () g ∧ Planted cells code g := by
  obtain ⟨base, hbase, houtlined⟩ := h.findBlocks_eq
  have hblocks : base.blocks = 0 :: (List.range cells.length).map Nat.succ := by
    rw [houtlined.blocks, List.range_succ_eq_map]
  obtain ⟨g, hg, hrooted⟩ := findFragments_of_no_entries h.entries houtlined.sound hblocks
  exact ⟨base, g, hbase, hg, houtlined.planted hne hrooted⟩

/-- The first two steps of the analysis of laid out code. -/
theorem exists_planted {cells : List Cell} {code : CodeEntry} (h : Outlines cells code)
    (hne : cells ≠ []) : ∃ base g, findBlocks code = .ok base ∧
      (findFragments code).run base = .ok () g ∧ Planted cells code g :=
  h.sketches.exists_planted hne

namespace Planted

variable {cells : List Cell} {code : CodeEntry} {g : Graph} (h : Planted cells code g)
include h

theorem start_eq {k : Nat} (hk : k ≤ cells.length) : (g.node k).start = startOf cells k := by
  rcases Nat.lt_or_eq_of_le hk with hk | rfl
  · have he := congrArg Node.start (h.face k _ (List.getElem?_eq_getElem hk))
    exact he
  · have he := congrArg Node.start h.last
    exact he

theorem stands : Stands cells g := by
  refine ⟨h.blocks, fun k hk => h.start_eq hk, fun k hk => ?_⟩
  have he := congrArg Node.stop (h.face k _ (List.getElem?_eq_getElem hk))
  exact he

/-- Each block is found at its start. -/
theorem blockAt?_start (hlaid : Sketches cells code) {k : Nat} (hk : k ≤ cells.length) :
    g.blockAt? (startOf cells k) = some k := h.stands.blockAt?_startOf hlaid hk

theorem blockAt?_startOf (hlaid : Outlines cells code) {k : Nat} (hk : k ≤ cells.length) :
    g.blockAt? (startOf cells k) = some k := h.blockAt?_start hlaid.sketches hk

end Planted

end GmlLift
