import GmlLift.Proofs.Flow.HandlerFold

/-! # The analysis of code with a handler

In newer code the pass for handlers finds the blocks as they were laid out. In older code the jump at
the end of the catch body leads back to the finally body, so before that pass the two have become a
loop without a condition. The fold takes the loop's node out again with the edges that it drops. -/
namespace GmlLift

open GmlLift.Graph Cell Pass

namespace TryCatch

open Parts

variable {p : Parts} {layout : Layout} {name : String} {code : CodeEntry} {g : Graph}

/-! ## What the other passes look for -/

/-- Every block is closed by a jump ahead or back, by the exit or not at all. -/
theorem Parts.Fits.closes (h : p.Fits layout name) : ∀ c ∈ p.cells layout, ∀ i ∈ c.closing,
    i.opcode = .b ∨ i.opcode = .exit := by
  have hskip := h.skips
  intro c hc i hi
  cases layout <;>
  · simp only [cells, List.mem_cons, List.not_mem_nil, or_false] at hc
    rcases hc with rfl | rfl | rfl | rfl | rfl | rfl <;> cases hi <;>
      simp [h.jumps.1, h.leaves.1, h.exits, hskip]

/-- An instruction that no pass tests for. -/
structure Untested (i : Instr) : Prop where
  notStatic : i.isExtended .hasStatic = false
  notNullish : i.isExtended .isNullish = false
  notTest : i.opcode ≠ .bt ∧ i.opcode ≠ .bf

theorem Parts.Fits.untested (h : p.Fits layout name)
    (hord : ∀ i ∈ p.body ++ p.caught ++ p.cleanup, i.Ordinary) :
    ∀ i ∈ p.instrs layout, Untested i := by
  intro i hi
  have htest : ∀ {i : Instr}, i.endsBlock = false → i.opcode ≠ .bt ∧ i.opcode ≠ .bf := by
    intro i hi
    constructor <;>
    · intro he
      simp [Instr.endsBlock, he] at hi
  obtain ⟨c, hc, hi⟩ := List.mem_flatMap.mp (code_cells p layout ▸ hi)
  rcases List.mem_append.mp hi with hi | hi
  · rcases h.straight_cells c hc i hi with hi | ⟨hends, hop⟩
    · have hi := hord i hi
      exact ⟨hi.notStatic, hi.notNullish, htest hi.endsBlock⟩
    · exact ⟨by simp [Instr.isExtended, hop], by simp [Instr.isExtended, hop], htest hends⟩
  · rcases h.closes c hc i (Option.mem_toList.mp hi) with hop | hop <;>
      constructor <;> simp [Instr.isExtended, hop]

theorem mem_staged : ∀ c ∈ p.staged layout, ∀ i ∈ c.instrs, i ∈ p.instrs layout := by
  intro c hc i hi
  cases layout <;>
  · simp only [staged, List.mem_cons, List.not_mem_nil, or_false] at hc
    rcases hc with rfl | rfl | rfl | rfl | rfl | rfl | rfl <;> simp [Cell.instrs] at hi <;>
    · simp only [Parts.instrs, List.mem_append, List.mem_cons, List.not_mem_nil, or_false]
      tauto

/-! ## Newer code -/

/-- The blocks with the dead ones hung behind those before them. -/
def Parts.wired (p : Parts) : Layout → List Cell
  | .catchFirst => p.staged .catchFirst
  | .finallyFirst => [⟨p.hook, none, [1]⟩, ⟨p.body ++ p.unhook, some p.jump, [2]⟩,
      ⟨p.cleanup ++ p.finish, none, [3]⟩, ⟨[], some p.skip, [5, 4]⟩,
      ⟨p.opening ++ p.caught, some p.leave, [2]⟩, ⟨[], some p.exit, [6]⟩, ⟨[], none, []⟩]

theorem shows_wired (hp : Planted (p.cells layout) code g) : Shows (p.wired layout) g g := by
  refine Loops.shows_of_faces hp ?_
  cases layout with
  | catchFirst =>
    exact ⟨Loops.face_of_entered hp (c := ⟨p.hook, none, [1]⟩) rfl (by simp [Entered, cells]),
      Loops.face_of_dead hp (c := ⟨p.body ++ p.unhook, some p.jump, [3]⟩) rfl
        (by simp [Entered, cells]),
      Loops.face_of_entered hp (c := ⟨p.opening ++ p.caught, some p.leave, [3]⟩) rfl
        (by simp [Entered, cells]),
      Loops.face_of_entered hp (c := ⟨p.cleanup ++ p.finish, none, [4]⟩) rfl
        (by simp [Entered, cells]),
      Loops.face_of_dead hp (c := ⟨[], some p.exit, []⟩) rfl (by simp [Entered, cells]),
      Loops.face_of_last hp, trivial⟩
  | finallyFirst =>
    exact ⟨Loops.face_of_entered hp (c := ⟨p.hook, none, [1]⟩) rfl (by simp [Entered, cells]),
      Loops.face_of_entered hp (c := ⟨p.body ++ p.unhook, some p.jump, [2]⟩) rfl
        (by simp [Entered, cells]),
      Loops.face_of_entered hp (c := ⟨p.cleanup ++ p.finish, none, [3]⟩) rfl
        (by simp [Entered, cells]),
      Loops.face_of_dead hp (c := ⟨[], some p.skip, [5]⟩) rfl (by simp [Entered, cells]),
      Loops.face_of_entered hp (c := ⟨p.opening ++ p.caught, some p.leave, [2]⟩) rfl
        (by simp [Entered, cells]),
      Loops.face_of_dead hp (c := ⟨[], some p.exit, []⟩) rfl (by simp [Entered, cells]),
      Loops.face_of_last hp, trivial⟩

theorem ready_catchFirst (hp : Planted (p.cells .catchFirst) code g) : Ready p .catchFirst code g := by
  have hshows : Shows (p.staged .catchFirst) g g := shows_wired hp
  refine ⟨hshows, hp.stands, hp.codeLength, ?_, fun x hx => ?_, ?_, ⟨List.range 6, ?_⟩, ?_⟩
  · rw [hp.size]
    exact Nat.lt_succ_self 6
  · obtain ⟨hsuccs, hinstrs⟩ := Loops.bare_beyond hp hshows rfl (x := x) hx
    rw [hsuccs]
    exact ⟨hinstrs, fun t ht => nomatch ht⟩
  · rw [root?, hp.fragments]
    rfl
  · have hroot := congrArg Node.kind hp.root
    exact hroot
  · have hroot := congrArg Node.children hp.root
    exact hroot

theorem findLoops_catchFirst (h : p.Fits .catchFirst name)
    (hlaid : Sketches (p.cells .catchFirst) code) (hp : Planted (p.cells .catchFirst) code g)
    (hplain : ∀ i ∈ p.body ++ p.caught ++ p.cleanup, i.Straight) :
    findLoops.run g = .ok [] g := by
  have hthree : startOf (p.cells .catchFirst) 3 = p.leave.endAddress := startOf_cleanup
  have hahead : ∀ {j : Nat} {c : Cell} {i : Instr}, (p.cells .catchFirst)[j]? = some c →
      c.closing = some i → j < 3 → i.opcode = .b → i.target? = some p.leave.endAddress →
        Loops.kind? i = none := by
    intro j c i hj hi hlt hop ht
    refine Loops.kind?_ahead (by simp [hop]) ht ?_
    rw [← hthree]
    exact closing_lt_startOf hlaid.contiguous_code hlaid.filled hj hi hlt (by simp [cells])
  refine findLoops_idle fun b hb => hp.kind?_eq_none (h.endsBlock_cells hplain) (t := 6) ?_ hb ?_
  · refine ⟨fun i hi => ?_, fun i hi _ => ?_, fun i hi _ => ?_, fun i hi => ?_, fun i hi _ => ?_,
      trivial⟩
    · cases hi
    · cases hi
      exact hahead (j := 1) rfl rfl (by decide) h.jumps.1 h.jumps.2
    · cases hi
      exact hahead (j := 2) rfl rfl (by decide) h.leaves.1 h.leaves.2
    · cases hi
    · cases hi
      exact Loops.kind?_exit h.exits
  · rw [hp.blocks, List.mem_range] at hb
    exact Nat.ne_of_lt hb

/-! ## Older code -/

/-- The loop from the finally body to the jump back behind the catch body. -/
def jumpBack : Loops.Candidate := { kind := .whileLoop, head := 2, tail := 4, next := 5 }

/-- The blocks without the jump back. -/
def Parts.unlooped (p : Parts) : List Cell := [⟨p.hook, none, [1]⟩,
  ⟨p.body ++ p.unhook, some p.jump, [2]⟩, ⟨p.cleanup ++ p.finish, none, [3]⟩,
  ⟨[], some p.skip, [5, 4]⟩, ⟨p.opening ++ p.caught, none, []⟩, ⟨[], some p.exit, [6]⟩, ⟨[], none, []⟩]

theorem candidates_eq (h : p.Fits .finallyFirst name)
    (hlaid : Sketches (p.cells .finallyFirst) code) (hp : Planted (p.cells .finallyFirst) code g)
    (hplain : ∀ i ∈ p.body ++ p.caught ++ p.cleanup, i.Straight) :
    Loops.candidates g = .ok [jumpBack] := by
  have htwo : startOf (p.cells .finallyFirst) 2 = p.cleanupStart .finallyFirst := startOf_cleanup
  have hfive : startOf (p.cells .finallyFirst) 5 = p.exit.address :=
    startOf_exit hlaid.contiguous_code
  have hahead : ∀ {j k : Nat} {c : Cell} {i : Instr}, (p.cells .finallyFirst)[j]? = some c →
      c.closing = some i → j < k → k ≤ 6 → i.opcode = .b →
        i.target? = some (startOf (p.cells .finallyFirst) k) → Loops.kind? i = none := by
    intro j k c i hj hi hlt hk hop ht
    refine Loops.kind?_ahead (by simp [hop]) ht ?_
    exact closing_lt_startOf hlaid.contiguous_code hlaid.filled hj hi hlt hk
  have hcell : (p.cells .finallyFirst)[4]? = some ⟨p.opening ++ p.caught, some p.leave, [2]⟩ := rfl
  refine hp.candidates_eq (h.endsBlock_cells hplain) (k := .whileLoop) hcell rfl ?_ h.leaves.2 ?_ ?_
  · have hbehind : p.cleanupStart .finallyFirst < p.leave.address := by
      have hstart : startOf (p.cells .finallyFirst) 2 < startOf (p.cells .finallyFirst) 4 :=
        startOf_lt hlaid.contiguous_code hlaid.filled (by decide) (by simp [cells])
      have hmem : p.leave ∈ (⟨p.opening ++ p.caught, some p.leave, [2]⟩ : Cell).instrs :=
        List.mem_of_getLast? (getLast?_closing rfl)
      have hlow := ((contiguous_cell hlaid.contiguous_code hcell).bounds hmem).1
      rw [← htwo]
      exact Nat.lt_of_lt_of_le hstart hlow
    rw [Loops.kind?, h.leaves.1]
    simp [Loops.offset_neg h.leaves.2 hbehind]
  · refine ⟨fun i hi => ?_, fun i hi _ => ?_, fun i hi => ?_, fun i hi _ => ?_, fun i hi hne => ?_,
      fun i hi _ => ?_, trivial⟩
    · cases hi
    · cases hi
      exact hahead (j := 1) (k := 2) rfl rfl (by decide) (by decide) h.jumps.1
        (h.jumps.2.trans (congrArg some htwo.symm))
    · cases hi
    · cases hi
      exact hahead (j := 3) (k := 5) rfl rfl (by decide) (by decide) (h.skips rfl).1
        ((h.skips rfl).2.trans (congrArg some hfive.symm))
    · exact absurd rfl hne
    · cases hi
      exact Loops.kind?_exit h.exits
  · have hhead : g.blockAt? (p.cleanupStart .finallyFirst) = some 2 := by
      rw [← htwo]
      exact hp.blockAt?_start hlaid (by simp [cells])
    have hnext : g.nextBlock? 4 = some 5 := nextBlock?_range hp.blocks (by simp [cells])
    rw [Loops.candidateAt, if_neg (by decide), Loops.jumpCandidate, hhead, hnext]
    rfl

theorem shows_unlooped (hp : Planted (p.cells .finallyFirst) code g) :
    Shows p.unlooped g (Loops.openTail jumpBack g) := by
  have hwired : Shows (p.wired .finallyFirst) g g := shows_wired hp
  have hsize : (p.wired .finallyFirst).length ≤ g.nodes.size := by
    rw [hp.size]
    exact Nat.le_succ 7
  exact hwired.cutEdge (j := 4) (d := ⟨p.opening ++ p.caught, none, []⟩) hsize rfl [p.leave]
    (by simp [Cell.instrs]) rfl (by simp [jumpBack])

/-- No test leaves the loop. -/
theorem strip_run (h : p.Fits .finallyFirst name)
    (hord : ∀ i ∈ p.body ++ p.caught ++ p.cleanup, i.Ordinary)
    (hp : Planted (p.cells .finallyFirst) code g) :
    ∃ info, (Loops.strip jumpBack).run g = .ok (info, 2) (Loops.openTail jumpBack g) := by
  have hshows := shows_unlooped hp
  have hcode : ∀ c ∈ p.unlooped, ∀ i ∈ c.instrs, i.opcode ≠ .bf := by
    intro c hc i hi
    have hsame : p.unlooped.map Cell.instrs = (p.staged .finallyFirst).map Cell.instrs := rfl
    have hmem : c.instrs ∈ (p.staged .finallyFirst).map Cell.instrs :=
      hsame ▸ List.mem_map_of_mem hc
    obtain ⟨d, hd, hdi⟩ := List.mem_map.mp hmem
    exact (h.untested hord i (mem_staged d hd i (hdi ▸ hi))).notTest.2
  have hcondition : ∀ start stop next,
      Loops.whileCondition? (Loops.openTail jumpBack g) start stop next = none := by
    intro start stop next
    refine List.find?_eq_none.mpr fun b hb => ?_
    rw [hshows.blocks, hp.blocks, List.mem_range] at hb
    have hcell : p.unlooped[b]? = some p.unlooped[b] := List.getElem?_eq_getElem hb
    have hjump : (Loops.openTail jumpBack g).endsInJump b .bf next = false := by
      unfold endsInJump
      cases hlast : (Loops.openTail jumpBack g).lastInstr? b with
      | none => rfl
      | some i =>
        have hi : i ∈ p.unlooped[b].instrs := by
          rw [← hshows.instrs_eq hcell]
          exact List.mem_of_getLast? hlast
        have hop := hcode _ (List.getElem_mem hb) i hi
        simp [hop]
    simp [hjump]
  exact ⟨_, Loops.strip_endless rfl (hcondition _ _ _)⟩

/-- The graph with the loop's node, behind that of the root, and its exit. -/
def looped (p : Parts) (info : LoopInfo) (g : Graph) : Graph :=
  Loops.splice jumpBack 8 9 2
    (Loops.within (startOf (p.cells .finallyFirst) 2) (startOf (p.cells .finallyFirst) 5))
    (Loops.withLoop info (startOf (p.cells .finallyFirst) 2) (startOf (p.cells .finallyFirst) 5)
      (Loops.openTail jumpBack g))

section

variable (hp : Planted (p.cells .finallyFirst) code g) (info : LoopInfo)
include hp

theorem findLoops_run (h : p.Fits .finallyFirst name)
    (hlaid : Sketches (p.cells .finallyFirst) code)
    (hord : ∀ i ∈ p.body ++ p.caught ++ p.cleanup, i.Ordinary) :
    ∃ info, findLoops.run g = .ok [8] (looped p info g) := by
  obtain ⟨info, hstrip⟩ := strip_run h hord hp
  have hrun := Loops.findLoops_of_lone
    (candidates_eq h hlaid hp fun i hi => (hord i hi).toStraight) (Loops.fold_run_of_strip hstrip)
  have hsize : (Loops.openTail jumpBack g).nodes.size = 8 := by
    rw [(shows_unlooped hp).size, hp.size]
    rfl
  have htwo : (g.node jumpBack.head).start = startOf (p.cells .finallyFirst) 2 :=
    hp.start_eq (by simp [cells, jumpBack])
  have hfive : (g.node jumpBack.next).start = startOf (p.cells .finallyFirst) 5 :=
    hp.start_eq (by simp [cells, jumpBack])
  rw [hsize, htwo, hfive] at hrun
  exact ⟨info, hrun⟩

theorem size_unlooped : (Loops.openTail jumpBack g).nodes.size = 8 := by
  rw [(shows_unlooped hp).size, hp.size]
  rfl

/-- Where a node of the graph with the loop leads. -/
theorem succs_looped (x : NodeId) : ((looped p info g).node x).succs =
    (if Loops.within (startOf (p.cells .finallyFirst) 2) (startOf (p.cells .finallyFirst) 5)
        ((Loops.withLoop info (startOf (p.cells .finallyFirst) 2)
          (startOf (p.cells .finallyFirst) 5) (Loops.openTail jumpBack g)).node x) then
      rename 2 9 (rename 5 9 ((Loops.openTail jumpBack g).node x).succs)
    else rename 2 8 ((Loops.openTail jumpBack g).node x).succs) ++ if x = 8 then [5] else [] := by
  have hsize := size_unlooped hp
  rw [looped, Loops.succs_splice_while rfl rfl
    (Loops.sound_withLoop _ _ _ (shows_unlooped hp).sound) (by simp [hsize]) (by simp [hsize])
    (Loops.within_congr _ _) (by decide) (by decide) (by decide), Loops.succs_withLoop]
  rfl

/-- The blocks in the graph with the loop. -/
theorem block_looped (hlaid : Sketches (p.cells .finallyFirst) code) {j : Nat} {c : Cell}
    (hc : p.unlooped[j]? = some c) : ((looped p info g).node j).kind = .block c.instrs ∧
      ((looped p info g).node j).succs = if 2 ≤ j ∧ j < 5 then rename 2 9 (rename 5 9 c.nexts)
        else rename 2 8 c.nexts := by
  have hsize := size_unlooped hp
  have hshows := shows_unlooped hp
  have hlt : j < 7 := (List.getElem?_eq_some_iff.mp hc).1
  have hnode := Loops.node_withLoop_of_lt (g := Loops.openTail jumpBack g) info
    (startOf (p.cells .finallyFirst) 2) (startOf (p.cells .finallyFirst) 5) (x := j)
    (hsize ▸ Nat.lt_succ_of_lt hlt)
  constructor
  · rw [← gist_kind, looped, Loops.gist_splice, gist_kind, hnode, ← kind_face, hshows.cell j c hc]
  · have hstart : ((Loops.openTail jumpBack g).node j).start = startOf (p.cells .finallyFirst) j := by
      rw [hshows.start_eq, hp.start_eq (Nat.le_of_lt_succ hlt)]
    have htwo : 2 ≤ (p.cells .finallyFirst).length := by simp [cells]
    have hfive : 5 ≤ (p.cells .finallyFirst).length := by simp [cells]
    have hin := Loops.within_iff hlaid hstart (Nat.le_of_lt_succ hlt) htwo hfive
    rw [succs_looped hp, hnode, hshows.succs_eq hc, if_neg (Nat.ne_of_lt (Nat.lt_succ_of_lt hlt)),
      List.append_nil]
    simp only [hin]

/-- Behind the blocks there are the root and the loop's node, which alone leads anywhere. -/
theorem beyond_looped {x : NodeId} (hx : 6 < x) : (looped p info g).instrs x = [] ∧
    ∀ t ∈ ((looped p info g).node x).succs, t = 5 := by
  obtain ⟨hsuccs, hinstrs⟩ := Loops.bare_beyond hp (shows_unlooped hp) rfl (x := x) hx
  constructor
  · rw [Graph.instrs, Node.instrs, ← gist_kind, looped, Loops.gist_splice, gist_kind]
    change (Loops.withLoop info (startOf (p.cells .finallyFirst) 2)
      (startOf (p.cells .finallyFirst) 5) (Loops.openTail jumpBack g)).instrs x = []
    rw [Loops.instrs_withLoop, hinstrs]
  · rw [succs_looped hp, hsuccs]
    intro t ht
    rw [rename, rename, rename, List.map_nil, List.map_nil, List.map_nil, ite_self,
      List.nil_append] at ht
    split at ht
    · exact List.mem_singleton.mp ht
    · cases ht

omit hp in
theorem face_of_kind_succs {j : NodeId} {k : NodeKind} {ns : List NodeId}
    (hk : (g.node j).kind = k) (hs : (g.node j).succs = ns) :
    g.face j = { g.face j with kind := k, succs := ns } := by
  subst hk hs
  rfl

theorem shows_looped (hlaid : Sketches (p.cells .finallyFirst) code)
    (hs : (looped p info g).Sound) :
    Shows (p.staged .finallyFirst) (looped p info g) (looped p info g) := by
  have hface : ∀ j c ns, p.unlooped[j]? = some c →
      (if 2 ≤ j ∧ j < 5 then rename 2 9 (rename 5 9 c.nexts) else rename 2 8 c.nexts) = ns →
        (looped p info g).face j =
          { (looped p info g).face j with kind := .block c.instrs, succs := ns } := by
    intro j c ns hc hns
    obtain ⟨hkind, hsuccs⟩ := block_looped hp info hlaid hc
    exact face_of_kind_succs hkind (hsuccs.trans hns)
  have hall : EachFrom (fun j c => (looped p info g).face j =
      { (looped p info g).face j with kind := .block c.instrs, succs := c.nexts }) 0
        (p.staged .finallyFirst) :=
    ⟨hface 0 ⟨p.hook, none, [1]⟩ [1] rfl rfl,
      hface 1 ⟨p.body ++ p.unhook, some p.jump, [2]⟩ [8] rfl rfl,
      hface 2 ⟨p.cleanup ++ p.finish, none, [3]⟩ [3] rfl rfl,
      hface 3 ⟨[], some p.skip, [5, 4]⟩ [9, 4] rfl rfl,
      hface 4 ⟨p.opening ++ p.caught, none, []⟩ [] rfl rfl,
      hface 5 ⟨[], some p.exit, [6]⟩ [6] rfl rfl, hface 6 ⟨[], none, []⟩ [] rfl rfl, trivial⟩
  exact ⟨hs, rfl, rfl, rfl, hall.getElem?, fun _ _ => rfl⟩

theorem ready_finallyFirst (hlaid : Sketches (p.cells .finallyFirst) code)
    (hs : (looped p info g).Sound) : Ready p .finallyFirst code (looped p info g) := by
  have hshows := shows_unlooped hp
  have hsize := size_unlooped hp
  have hgist : ∀ x, x < 8 → (looped p info g).gist x = (Loops.openTail jumpBack g).gist x := by
    intro x hx
    rw [looped, Loops.gist_splice]
    unfold gist
    rw [Loops.node_withLoop_of_lt info _ _ (hsize.symm ▸ hx)]
  have hstands : Stands (p.cells .finallyFirst) (Loops.openTail jumpBack g) := hshows.stands hp.stands
  have hroot : (Loops.openTail jumpBack g).face 7 = g.face 7 := hshows.other 7 (Nat.le_refl 7)
  refine ⟨shows_looped hp info hlaid hs, ⟨?_, fun k hk => ?_, fun k hk => ?_⟩, ?_, ?_,
    fun x hx => beyond_looped hp info hx, ?_, ⟨List.range 7, ?_⟩, ?_⟩
  · rw [looped, Loops.splice_reads (·.blocks) (fun _ _ _ => rfl) fun _ _ => rfl]
    exact hstands.blocks
  · have hlt : k < 8 := Nat.lt_of_le_of_lt hk (by simp [cells])
    rw [← hstands.start k hk, ← gist_start, hgist k hlt, gist_start]
  · have hlt : k < 8 := Nat.lt_trans hk (by simp [cells])
    rw [← hstands.stop k hk, ← gist_stop, hgist k hlt, gist_stop]
  · rw [looped, Loops.splice_reads (·.codeLength) (fun _ _ _ => rfl) fun _ _ => rfl]
    exact hp.codeLength
  · rw [looped, (Loops.splice_keeps ..).1, Loops.size_withLoop, hsize]
    decide
  · have hfragments : (looped p info g).fragments = [7] := by
      rw [looped, Loops.splice_reads (·.fragments) (fun _ _ _ => rfl) fun _ _ => rfl]
      exact hshows.fragments.trans hp.fragments
    rw [root?, hfragments]
    rfl
  · have hkind := congrArg Node.kind hp.root
    rw [← gist_kind]
    change ((looped p info g).gist 7).kind = _
    rw [hgist 7 (by decide), gist_kind, ← kind_face, hroot]
    exact hkind
  · have hparent : ((Loops.openTail jumpBack g).node 2).parent = none := by
      rw [← parent_face, hshows.cell 2 _ rfl, hp.face 2 _ rfl]
      rfl
    have hchildren := congrArg Node.children hp.root
    have hsame : ((looped p info g).node 7).children =
        ((Loops.openTail jumpBack g).node 7).children := by
      rw [looped, Loops.children_splice_eq (by decide) (by decide),
        Loops.node_withLoop_of_lt info _ _ (x := jumpBack.head) (by rw [hsize]; decide),
        Loops.node_withLoop_of_lt info _ _ (x := 7) (by rw [hsize]; decide)]
      change (if ((Loops.openTail jumpBack g).node 2).parent = some 7 then _ else _) = _
      rw [hparent]
      rfl
    change ((looped p info g).node 7).children = _
    rw [hsame, ← children_face, hroot]
    exact hchildren

end

/-! ## The analysis -/

theorem Ready.findShortCircuits (hg : Ready p layout code g) (h : p.Fits layout name)
    (hord : ∀ i ∈ p.body ++ p.caught ++ p.cleanup, i.Ordinary) :
    GmlLift.findShortCircuits.run g = .ok [] g := by
  refine findShortCircuits_of_no_test fun x i hlast => ?_
  have hi : i ∈ g.instrs x := List.mem_of_getLast? hlast
  have hlen : (p.staged layout).length = exitCell layout + 2 := by cases layout <;> rfl
  rcases Nat.lt_or_ge x (p.staged layout).length with hlt | hge
  · rw [hg.shows.instrs_eq (List.getElem?_eq_getElem hlt)] at hi
    exact (h.untested hord i (mem_staged _ (List.getElem_mem hlt) i hi)).notTest
  · rw [(hg.beyond x (by omega)).1] at hi
    cases hi

theorem exists_ready (h : p.Fits layout name) (hlaid : Sketches (p.cells layout) code)
    (hp : Planted (p.cells layout) code g)
    (hord : ∀ i ∈ p.body ++ p.caught ++ p.cleanup, i.Ordinary) :
    ∃ found g', findLoops.run g = .ok found g' ∧ Ready p layout code g' := by
  cases layout with
  | catchFirst =>
    exact ⟨[], g, findLoops_catchFirst h hlaid hp fun i hi => (hord i hi).toStraight,
      ready_catchFirst hp⟩
  | finallyFirst =>
    obtain ⟨info, hrun⟩ := findLoops_run hp h hlaid hord
    have hsound := ((findLoops_edited hp.sound).of_ok hrun).sound hp.sound
    exact ⟨[8], looped p info g, hrun, ready_finallyFirst hp info hlaid hsound⟩

theorem Caught.settled {n : NodeId} (hg : Caught p layout name code n g) (h : p.Fits layout name)
    (hplain : ∀ i ∈ p.body ++ p.caught ++ p.cleanup, i.Straight) : g.Settled := by
  intro x i hi
  rcases List.mem_cons.mp (hg.idle x i hi) with rfl | hi
  · simp [Instr.isCallTo, h.exits, Opcode.isBranch]
  · exact ⟨(hplain i hi).isBranch, (hplain i hi).hook⟩

theorem findTryCatch_run (h : p.Fits layout name) (hlaid : Sketches (p.cells layout) code)
    (hplain : ∀ i ∈ p.body ++ p.caught ++ p.cleanup, i.Straight)
    (hcaught : ∀ i ∈ p.caught, i.isCallTo Hook.unhook = false) (hg : Ready p layout code g) :
    ∃ n g', (findTryCatch layout).run g = .ok [n] g' ∧ Caught p layout name code n g' := by
  obtain ⟨n, g', hrun, hcaught⟩ := fold_run h hlaid hplain hcaught hg
  refine ⟨n, g', ?_, hcaught⟩
  have hblocks : g.blocks = [] ++ 0 :: List.range' 1 (p.cells layout).length := by
    rw [hg.stands.blocks, range_split (Nat.succ_pos _)]
    rfl
  rw [findTryCatch, run_get_bind, hblocks]
  refine run_collect_lone (List.forall_mem_nil _) hrun fun x _ => ?_
  have hhook : hook? g' x = none := hook?_eq_none fun i hi => (hcaught.settled h hplain x i hi).2
  rw [fold, run_get_bind, hhook]
  rfl

/-- The analysis of either layout. -/
theorem analyze_eq (h : p.Fits layout name) (hcode : code.Single)
    (hinstrs : code.instrs = p.instrs layout)
    (hord : ∀ i ∈ p.body ++ p.caught ++ p.cleanup, i.Ordinary)
    (hcaught : ∀ i ∈ p.caught, i.isCallTo Hook.unhook = false) :
    ∃ n g, analyze code layout = .ok g ∧ Caught p layout name code n g := by
  have hplain : ∀ i ∈ p.body ++ p.caught ++ p.cleanup, i.Straight := fun i hi =>
    (hord i hi).toStraight
  have hlaid := h.sketches hplain hcode hinstrs
  obtain ⟨base, g₁, hbase, hfound, hp⟩ := hlaid.exists_planted (by cases layout <;> simp [cells])
  obtain ⟨found, g₂, hloops, hready⟩ := exists_ready h hlaid hp hord
  obtain ⟨n, g₃, hfold, hcaughtIn⟩ := findTryCatch_run h hlaid hplain hcaught hready
  have hsettled := hcaughtIn.settled h hplain
  have huntested : ∀ b ∈ g₁.blocks, ∀ i ∈ g₁.instrs b, Untested i := by
    intro b hb
    refine hp.forall_instrs (fun c hc i hi => ?_) hb
    refine h.untested hord i ?_
    rw [code_cells]
    exact List.mem_flatMap.mpr ⟨c, hc, hi⟩
  have hstatic : findStaticInits.run g₁ = .ok [] g₁ := findStaticInits_idle fun b hb =>
    StaticInit.guard?_eq_none fun i hi => (huntested b hb i hi).notStatic
  have hnullish : findNullish.run g₁ = .ok [] g₁ := findNullish_idle fun b hb =>
    Nullish.test?_eq_none fun i hi => (huntested b hb i hi).notNullish
  refine ⟨n, g₃, ?_, hcaughtIn⟩
  have hrun : (foldConstructs code layout).run base = .ok () g₃ := by
    rw [foldConstructs, run_bind_ok hfound, run_bind_ok hstatic, run_bind_ok hnullish,
      run_bind_ok hloops, run_bind_ok (hready.findShortCircuits h hord), run_bind_ok hfold,
      run_bind_ok hsettled.findSwitches, run_bind_ok hsettled.findBranches]
    rfl
  exact analyze_of_run hbase hrun

end TryCatch

end GmlLift
