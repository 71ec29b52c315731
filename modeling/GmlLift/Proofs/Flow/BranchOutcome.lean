import GmlLift.Proofs.Flow.BranchRegions

/-! # The analysis of nested conditionals

The code of a tree of blocks that an `exit` ends is one region. The analysis leaves a chain of nodes
under the node of the entry, which holds the blocks of the tree. -/
namespace GmlLift

open GmlLift.Graph Cell Pass

namespace Cell

/-- Where blocks start depends on their code only. -/
theorem startOf_congr {as bs : List Cell} (h : as.map instrs = bs.map instrs) :
    startOf as = startOf bs := by
  have hcode : ∀ cs : List Cell, code cs = (cs.map instrs).flatten := fun cs => List.flatMap_def
  funext j
  rw [startOf, startOf, hcode, hcode, List.map_take, List.map_take, h]

end Cell

namespace Branch

/-- All blocks but the last one lead where they do wherever the last one leads. -/
theorem Nest.exists_init {s : Nest} {closing : Option Instr} (h : s.final = some closing) (j : Nat) :
    ∃ init is, ∀ out, s.cells j out = init ++ [⟨is, closing, out⟩] := by
  induction s generalizing j with
  | done => cases h
  | last is c =>
    cases h
    exact ⟨[], is, fun _ => rfl⟩
  | cond is skip onTrue onFalse rest _ _ ihr =>
    obtain ⟨init, is', hrest⟩ := ihr h (j + 1 + onTrue.count + onFalse.count)
    refine ⟨⟨is, some skip, [j + 1, j + 1 + onTrue.count]⟩ ::
      (onTrue.cells (j + 1) [j + 1 + onTrue.count + onFalse.count] ++
        (onFalse.cells (j + 1 + onTrue.count) [j + 1 + onTrue.count + onFalse.count] ++ init)),
      is', fun out => ?_⟩
    rw [Nest.cells, hrest]
    simp

namespace NestCode

variable {s : Nest} {code : CodeEntry} {g : Graph}

/-- The blocks of the code, of which the last one leads to the end. -/
def ends (s : Nest) : List Cell := s.cells 0 [s.count]

theorem startOf_ends (h : NestCode s code) : startOf (ends s) = startOf s.blocks := by
  obtain ⟨exit, hfinal, -⟩ := h.exits
  obtain ⟨init, is, hcells⟩ := Nest.exists_init hfinal 0
  rw [ends, Nest.blocks, hcells, hcells]
  exact startOf_congr (by simp [Cell.instrs])

theorem length_ends (s : Nest) : (ends s).length = s.count := Nest.length_cells ..

/-- Nothing leads behind the last block. -/
theorem not_entered_end (h : NestCode s code) : ¬ Entered s.blocks s.count := by
  obtain ⟨exit, hfinal, -⟩ := h.exits
  rintro ⟨d, hd, hmem⟩
  rcases Nest.mem_nexts hd hmem with hk | hk | ⟨hk, -⟩
  · cases hk
  · omega
  · rw [hfinal] at hk
    cases hk

theorem entered (h : NestCode s code) {i : Nat} (hi : 0 < i) (hlt : i < s.count) :
    Entered s.blocks i :=
  Nest.entered h.laid (placed s) hi (by rwa [Nat.zero_add])

/-- The blocks of the tree in the graph, before conditionals are folded. -/
theorem face_ends (h : NestCode s code) (hp : Planted s.blocks code g) {i : Nat} {c : Cell}
    (hc : (ends s)[i]? = some c) : g.face i =
      { start := startOf (ends s) i, stop := startOf (ends s) (i + 1), kind := .block c.instrs
        succs := c.nexts, parent := if i = 0 then some (s.count + 1) else none } := by
  obtain ⟨exit, hfinal, -⟩ := h.exits
  obtain ⟨init, is, hcells⟩ := Nest.exists_init hfinal 0
  have hends : ends s = init ++ [⟨is, some exit, [s.count]⟩] := hcells _
  have hblocks : s.blocks = init ++ [⟨is, some exit, []⟩] := hcells _
  have hcount : init.length + 1 = s.count := by
    rw [← length_ends s, hends]
    simp
  have hlength : s.blocks.length = s.count := Nest.length_cells ..
  have hreached : decide (0 < i ∧ ¬ Entered s.blocks i) = false := by
    obtain ⟨hlt, -⟩ := List.getElem?_eq_some_iff.mp hc
    rw [length_ends] at hlt
    exact decide_eq_false fun hi => hi.2 (h.entered hi.1 hlt)
  rw [h.startOf_ends]
  rcases Nat.lt_or_ge i init.length with hlt | hge
  · rw [hends, List.getElem?_append_left hlt] at hc
    have hplanted := hp.face i c (by rw [hblocks, List.getElem?_append_left hlt, hc])
    rw [hplanted, if_pos (h.entered (Nat.succ_pos i) (by omega)), List.append_nil, hreached, hlength]
  · obtain rfl : i = init.length := by
      obtain ⟨hlt, -⟩ := List.getElem?_eq_some_iff.mp hc
      rw [length_ends] at hlt
      omega
    rw [hends, List.getElem?_concat_length] at hc
    cases hc
    have hplanted := hp.face init.length _ (by rw [hblocks, List.getElem?_concat_length])
    rw [hplanted, hcount, if_neg h.not_entered_end, hreached, hlength]
    rfl

/-- The node of the entry, but for what it holds. -/
def top (s : Nest) (code : CodeEntry) : Node :=
  { start := 0, stop := code.length
    kind := .fragment code.name code.argumentCount (List.range (s.count + 1)) }

/-- Before conditionals are folded, each block stands for itself. -/
theorem stage_start (h : NestCode s code) (hp : Planted s.blocks code g) :
    Stage (ends s) (top s code) s.count id g := by
  obtain ⟨hlaid, -⟩ := h.outlines
  have hlength : s.blocks.length = s.count := Nest.length_cells ..
  have hsize := hp.size
  have hroot := hp.root
  have hlast := hp.last
  rw [hlength] at hsize hroot hlast
  have hbare : ∀ x : Nat, s.count ≤ x →
      (g.face x).succs = [] ∧ (x ≠ s.count + 1 → (g.face x).children = []) := by
    intro x hx
    rcases Nat.lt_trichotomy x (s.count + 1) with hlt | rfl | hgt
    · obtain rfl := Nat.le_antisymm (Nat.le_of_lt_succ hlt) hx
      rw [hlast]
      exact ⟨rfl, fun _ => rfl⟩
    · rw [hroot]
      exact ⟨rfl, fun h => absurd rfl h⟩
    · rw [face_of_size_le (by omega)]
      exact ⟨rfl, fun _ => rfl⟩
  refine ⟨hp.sound, fun i j hij hj => ?_, Nat.le_of_eq (length_ends s).symm,
    by rw [length_ends]; omega, fun i c _ hc => ?_, ?_, fun _ _ => rfl, fun i hi hi' => ?_,
    fun x hx hne t ht => ?_, fun x hx hne => absurd (hbare x hx).1 hne⟩
  · rw [h.startOf_ends]
    exact startOf_lt hlaid.contiguous_code hlaid.filled hij (by rwa [hlength, ← length_ends])
  · rw [h.face_ends hp hc, length_ends, List.map_id]
  · rw [length_ends, hroot]
    rfl
  · rw [length_ends] at hi'
    obtain rfl := Nat.le_antisymm hi hi'
    rw [length_ends, ← start_face, ← isJump_face, id, hlast, h.startOf_ends]
    exact ⟨Nat.le_refl _, by omega, by omega, rfl, rfl⟩
  · rw [length_ends] at hne
    obtain ⟨hsuccs, hchildren⟩ := hbare x hx
    rcases ht with ht | ht
    · rw [hsuccs] at ht
      cases ht
    · rw [hchildren hne] at ht
      cases ht

/-- What the analysis makes of nested conditionals that an `exit` ends: under the node of the entry
hangs a chain of nodes that holds the blocks of the tree, and then the end of the code. -/
theorem exists_analyzed (h : NestCode s code) : ∃ g ns, (∀ layout, analyze code layout = .ok g) ∧
    g.root? = some (s.count + 1) ∧ g.face (s.count + 1) =
      { top s code with children := [ns.head?] } ∧
    Reads g (some s.count) s ns ∧ ns.Nodup ∧ s.count ∉ ns ∧
    (g.node s.count).kind = .block [] ∧ (g.node s.count).succs = [] := by
  obtain ⟨exit, hfinal, hexit⟩ := h.exits
  obtain ⟨g, hp, hanalyze⟩ := h.exists_planted
  have hstage := h.stage_start hp
  have hplaced : Placed (ends s) 0 (s.cells 0 [s.count]) :=
    eachFrom_iff.mpr fun k c hc => by rwa [Nat.zero_add]
  obtain ⟨found, rep, g', ns, hrun, hregion⟩ := exists_region rfl
    (by rwa [Nat.zero_add]) hplaced h.laid (by omega) (Nat.le_of_eq (length_ends s).symm)
    (fun hopen => absurd hfinal (hopen exit)) fun i hi => by
      rw [hfinal] at hi
      cases hi
      simp [hexit]
  have hlength : s.blocks.length = s.count := Nest.length_cells ..
  have hlast := hp.last
  rw [hlength] at hlast
  have hidle : (visit s.count).run g = .ok none g := visit_idle fun i hi => by
    rw [lastInstr?, Graph.instrs, ← instrs_face, hlast] at hi
    cases hi
  have hfold : findBranches.run g = .ok found g' := by
    have hblocks : g.blocks.reverse = s.count :: (List.range' 0 s.count).reverse := by
      rw [hp.blocks, hlength, List.range_succ, List.reverse_append, List.range_eq_range']
      rfl
    rw [findBranches, run_get_bind, run_bind_ok (resolveJumps_idle fun b _ =>
      loopJump?_eq_none_of_loops hp.loops b), run_get_bind, hblocks, collect, run_bind_ok hidle,
      run_bind_ok hrun]
    rfl
  have hedited : Edited .branches g g' := (findBranches_edited hp.sound).of_ok hfold
  have hroot := hregion.stage.root
  have hentry := hregion.entry
  have hend : g'.face s.count = g.face s.count := hregion.face_other s.count
    (Nat.le_of_eq (Nat.zero_add _)) (by rw [hp.size]; omega) (by rw [length_ends]; omega)
  obtain ⟨n, hn, -⟩ := hregion.arm.closed exit hfinal
  have hne : ns ≠ [] := by
    rintro rfl
    cases hn
  refine ⟨g', ns, fun layout => hanalyze layout found g' hfold, ?_, ?_,
    hregion.arm.reads g' _ fun x hx => ?_, hregion.arm.nodup, fun hmem => ?_, ?_, ?_⟩
  · rw [root?, hedited.fragments_eq (by decide), hp.fragments, hlength]
    rfl
  · rw [length_ends, hentry] at hroot
    rw [hroot]
    obtain ⟨m, rest, rfl⟩ := List.exists_cons_of_ne_nil hne
    rfl
  · split
    · rename_i hx'
      have hsuccs : (g'.node x).succs = [s.count] := hregion.arm.path.succs_last hx'
      rw [Node.unjumped_of_ne, Option.toList_some, ← hsuccs]
      · rfl
      · intro i hi hop
        have hclosed := hregion.arm.ends x i hx' hi hop
        rw [hfinal] at hclosed
        cases hclosed
        simp [hexit] at hop
    · rfl
  · rcases hregion.arm.mem _ hmem with h | h
    · omega
    · rw [hp.size] at h
      omega
  · rw [← kind_face, hend, hlast]
  · rw [← succs_face, hend, hlast]

end NestCode

end Branch
end GmlLift
