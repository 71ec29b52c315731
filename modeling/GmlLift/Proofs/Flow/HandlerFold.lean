import GmlLift.Proofs.Flow.HandlerCode

/-! # Folding an exception handler

The pass takes the calls and the jumps around the three bodies out of their blocks and hangs what is
left under one node, which leads on to the code behind the statement. -/
namespace GmlLift

open GmlLift.Graph Cell Pass

namespace TryCatch

/-! ## What blocks begin and end with -/

section

variable {name other : String} {is drops : List Instr}

theorem endsInCall_append (h : Drops name drops) (is : List Instr) :
    endsInCall (is ++ drops) name = true := by
  obtain ⟨hcall, hdrop⟩ := h
  simp [endsInCall, hcall, hdrop]

theorem endsInCall_append_of_ne (h : Drops name drops) (hne : name ≠ other) (is : List Instr) :
    endsInCall (is ++ drops) other = false := by
  cases h with | mk hcall hdrop =>
  rename_i call drop
  have hcall : call.opcode = .call ∧ call.functionName? = some name := by
    simpa [Instr.isCallTo] using hcall
  simp [endsInCall, Instr.isCallTo, hcall, hne]

/-- Behind what opens a catch body nothing more is taken off. -/
theorem prologue_some (h : ∀ i ∈ is, i.isCallTo Hook.unhook = false) :
    prologue (some name) is = (0, some name) := by
  cases is with
  | nil => rfl
  | cons i is =>
    have hi := h i (by simp)
    cases is with
    | nil => simp [prologue]
    | cons j is => simp [prologue, hi]

theorem prologue_unhook {before : Option String} (h : Drops Hook.unhook drops) (is : List Instr) :
    prologue before (drops ++ is) = ((prologue before is).1 + 2, (prologue before is).2) := by
  cases h with | mk hcall hdrop =>
  rename_i call drop
  have hop : call.opcode ≠ .pop := by
    have hcall : call.opcode = .call ∧ call.functionName? = some Hook.unhook := by
      simpa [Instr.isCallTo] using hcall
    simp [hcall.1]
  change prologue before (call :: drop :: is) = _
  simp [prologue, hop, hcall, hdrop]

theorem prologue_store {store : Instr} {v : VariableOperand} (hop : store.opcode = .pop)
    (hvar : store.operand = .var v) (is : List Instr) : prologue none (store :: is) =
      ((prologue (some v.name) is).1 + 1, (prologue (some v.name) is).2) := by
  rw [prologue.eq_def]
  simp [hop, hvar]

/-- What opens a catch body is taken off as a whole, and the variable found. -/
theorem prologue_opens {opening : List Instr} (hopens : Opens name opening)
    (h : ∀ i ∈ is, i.isCallTo Hook.unhook = false) :
    prologue none (opening ++ is) = (opening.length, some name) := by
  have hrest : prologue (some name) is = (0, some name) := prologue_some h
  cases hopens with
  | storeFirst hop hvar hname hdrops =>
    subst hname
    rw [List.cons_append, prologue_store hop hvar, prologue_unhook hdrops, hrest]
    cases hdrops
    rfl
  | unhookFirst hop hvar hname hdrops =>
    subst hname
    rw [List.append_assoc, List.singleton_append, prologue_unhook hdrops, prologue_store hop hvar,
      hrest]
    cases hdrops
    rfl

end

/-! ## The parts of the fold -/

section

variable {cells cs : List Cell} {code : CodeEntry} {base g : Graph} (h : Shows cs base g)
  (hcs : cs.length ≤ base.nodes.size) {j : Nat}
include h hcs

/-- The jump at the end of a block, if there is one, is taken out. -/
theorem shows_dropJump {is : List Instr} {closing : Option Instr} {ns : List NodeId}
    (hj : cs[j]? = some ⟨is, closing, ns⟩) (hflow : ∀ i ∈ is, i.endsBlock = false)
    (hjump : ∀ i ∈ closing, i.opcode = .b) :
    Shows (cs.set j ⟨is, none, ns⟩) base (dropJump j g) := by
  have hinstrs := h.instrs_eq hj
  cases closing with
  | none =>
    have hends : endsInB g j = false := by
      rw [endsInB, lastInstr?, hinstrs, Cell.instrs, Option.toList_none, List.append_nil]
      cases hlast : is.getLast? with
      | none => rfl
      | some i =>
        have hi := hflow i (List.mem_of_getLast? hlast)
        have hop : i.opcode ≠ .b := fun he => by simp [Instr.endsBlock, he] at hi
        simpa using hop
    have hsame : cs.set j ⟨is, none, ns⟩ = cs := by
      obtain ⟨hlt, hget⟩ := List.getElem?_eq_some_iff.mp hj
      rw [← hget, List.set_getElem_self]
    rw [dropJump, hends, hsame]
    exact h
  | some jump =>
    have hends : endsInB g j = true := by
      rw [endsInB, lastInstr?, hinstrs, getLast?_closing rfl]
      simpa using hjump jump rfl
    rw [dropJump, if_pos hends]
    exact h.strip hcs hj [jump] (by simp [Cell.instrs]) rfl rfl

theorem shows_dropUnhook {is unhook : List Instr} {ns : List NodeId}
    (hj : cs[j]? = some ⟨is ++ unhook, none, ns⟩) (hu : Drops Hook.unhook unhook) :
    Shows (cs.set j ⟨is, none, ns⟩) base (dropUnhook j g) := by
  have hends : endsInCall (g.instrs j) Hook.unhook = true := by
    rw [h.instrs_eq hj, Cell.instrs, Option.toList_none, List.append_nil]
    exact endsInCall_append hu is
  have hlength : unhook.length = 2 := by
    cases hu
    rfl
  rw [dropUnhook, if_pos hends]
  exact h.strip hcs hj unhook (by simp [Cell.instrs]) hlength rfl

/-- The try body without its release of the handlers and its jump. -/
theorem shows_closeTry {jump : Instr} {is unhook : List Instr} {ns : List NodeId}
    (hj : cs[j]? = some ⟨is ++ unhook, some jump, ns⟩) (hop : jump.opcode = .b)
    (hflow : ∀ i ∈ is, i.endsBlock = false) (hu : Drops Hook.unhook unhook) :
    Shows (cs.set j ⟨is, none, []⟩) base
      ((dropUnhook j (dropJump j g)).disconnectSuccessors j) := by
  obtain ⟨hlt, -⟩ := List.getElem?_eq_some_iff.mp hj
  have hplain : ∀ i ∈ is ++ unhook, i.endsBlock = false := by
    intro i hi
    rcases List.mem_append.mp hi with hi | hi
    · exact hflow i hi
    · exact (plain_of_drops hu i hi).1
  have hjump := shows_dropJump h hcs hj hplain fun i hi => by
    cases hi
    exact hop
  have hunhook := shows_dropUnhook hjump (by simpa using hcs) (List.getElem?_set_self hlt) hu
  rw [List.set_set] at hunhook
  have hcut := hunhook.cutSuccessors (List.getElem?_set_self hlt)
  rwa [List.set_set] at hcut

end

/-! ## The bodies are closed -/

section

variable {cells cs : List Cell} {code : CodeEntry} {base g : Graph} (hlaid : Sketches cells code)
  (h : Shows cs base g) (hb : Stands cells base) (hlen : cs.length = cells.length + 1)
  (hcs : cs.length ≤ base.nodes.size) {k : Nat} (hk : k < cells.length)
include hlaid h hb hk

/-- The block that ends a finally body is the first one of the body. -/
theorem finallyEnd?_eq {is finish : List Instr} {ns : List NodeId} {limit : Nat}
    (hcell : cs[k]? = some ⟨is ++ finish, none, ns⟩) (hf : Drops Hook.finishFinally finish)
    (hlimit : startOf cells (k + 1) ≤ limit) :
    finallyEnd? g (startOf cells k) limit = some k := by
  have hg := h.stands hb
  have hbefore : ((List.range k).filter fun b => decide (startOf cells k ≤ (g.node b).start) &&
      decide ((g.node b).stop ≤ limit)) = [] := by
    refine List.filter_eq_nil_iff.mpr fun b hmem => ?_
    have hlt : b < k := List.mem_range.mp hmem
    have hstart : (g.node b).start < startOf cells k := by
      rw [hg.start b (Nat.le_of_lt (Nat.lt_trans hlt hk))]
      exact startOf_lt hlaid.contiguous_code hlaid.filled hlt (Nat.le_of_lt hk)
    simp [Nat.not_le.mpr hstart]
  have hself : (decide (startOf cells k ≤ (g.node k).start) &&
      decide ((g.node k).stop ≤ limit)) = true := by
    rw [hg.start k (Nat.le_of_lt hk), hg.stop k hk]
    simpa using hlimit
  have hinstrs : g.instrs k = is ++ finish := by
    rw [h.instrs_eq hcell, Cell.instrs, Option.toList_none, List.append_nil]
  have htry : endsInCall (g.instrs k) Hook.try_ = false := by
    rw [hinstrs]
    exact endsInCall_append_of_ne hf (by decide) is
  have hend : endsInCall (g.instrs k) Hook.finishFinally = true := by
    rw [hinstrs]
    exact endsInCall_append hf is
  rw [finallyEnd?, hg.blocks, range_split (Nat.lt_succ_of_lt hk), List.filter_append, hbefore,
    List.filter_cons, if_pos hself, List.nil_append,
    List.takeWhile_cons_of_pos (by rw [htry]; rfl)]
  exact List.find?_cons_of_pos hend

include hcs

/-- The finally body without its end. -/
theorem closeFinally_run {is finish : List Instr} {ns : List NodeId} {limit : Nat}
    (hcell : cs[k]? = some ⟨is ++ finish, none, ns⟩) (hf : Drops Hook.finishFinally finish)
    (hlimit : startOf cells (k + 1) ≤ limit) : ∃ g',
      (closeFinally (startOf cells k) limit).run g = .ok (some k, startOf cells (k + 1)) g' ∧
        Shows (cs.set k ⟨is, none, []⟩) base g' := by
  obtain ⟨hlt, -⟩ := List.getElem?_eq_some_iff.mp hcell
  have hlength : finish.length = 2 := by
    cases hf
    rfl
  have hstripped : Shows (cs.set k ⟨is, none, ns⟩) base (g.stripLast k 2) :=
    h.strip hcs hcell finish (by simp [Cell.instrs]) hlength rfl
  have hcut := hstripped.cutSuccessors (List.getElem?_set_self hlt)
  rw [List.set_set] at hcut
  refine ⟨_, ?_, hcut⟩
  have hg := hcut.stands hb
  have hend := finallyEnd?_eq hlaid h hb hk hcell hf hlimit
  rw [closeFinally, run_get_bind, hend]
  dsimp only
  rw [run_modify_bind, run_modify_bind, run_get_bind, hg.stop k hk,
    if_pos (startOf_lt_succ hlaid.contiguous_code hlaid.filled hk),
    hg.blockAt?_startOf hlaid (Nat.le_of_lt hk)]
  rfl

/-- In older code the jump past the catch body is taken out, and the statement ends where it led. -/
theorem skipCatch_run {jump : Instr} {ns : List NodeId} {target : Nat}
    (hcell : cs[k]? = some ⟨[], some jump, ns⟩) (hop : jump.opcode = .b)
    (ht : jump.target? = some target) (hahead : startOf cells k < target) : ∃ g',
      (skipCatch (startOf cells k)).run g = .ok target g' ∧
        Shows (cs.set k ⟨[], none, []⟩) base g' := by
  obtain ⟨hlt, -⟩ := List.getElem?_eq_some_iff.mp hcell
  have hstripped : Shows (cs.set k ⟨[], none, ns⟩) base (g.stripLast k 1) :=
    h.strip hcs hcell [jump] (by simp [Cell.instrs]) rfl rfl
  have hcut := hstripped.cutSuccessors (List.getElem?_set_self hlt)
  rw [List.set_set] at hcut
  refine ⟨_, ?_, hcut⟩
  have hinstrs : g.instrs k = [jump] := h.instrs_eq hcell
  rw [skipCatch, run_get_bind, (h.stands hb).blockAt?_startOf hlaid (Nat.le_of_lt hk)]
  dsimp only
  rw [hinstrs]
  dsimp only
  rw [ht]
  dsimp only
  rw [if_pos ⟨hop, hahead⟩]
  rfl

/-- The catch body without what opens it and without its jump. -/
theorem closeCatch_run {name : String} {opening is : List Instr} {leave : Option Instr}
    {ns : List NodeId} (hcell : cs[k]? = some ⟨opening ++ is, leave, ns⟩)
    (hopens : Opens name opening) (hleave : ∀ i ∈ leave, i.opcode = .b)
    (his : ∀ i ∈ is, i.endsBlock = false ∧ i.isCallTo Hook.unhook = false)
    (hunreached : ∀ x, k ∉ (g.node x).succs) : ∃ g',
      (closeCatch (startOf cells k) (startOf cells (k + 1))).run g = .ok (k, some name) g' ∧
        Shows (cs.set k ⟨is, none, []⟩) (base.setUnreachable k false) g' := by
  obtain ⟨hlt, -⟩ := List.getElem?_eq_some_iff.mp hcell
  have hcs' : ∀ c : Cell, (cs.set k c).length ≤ (base.setUnreachable k false).nodes.size := by
    intro c
    simpa using hcs
  have hopen : Shows (cs.set k ⟨is, leave, ns⟩) base (g.stripFirst k opening.length) :=
    h.stripFront hcs hcell opening (by simp [Cell.instrs]) rfl rfl
  have hmarked := hopen.setUnreachable k false
  have hsame : ((g.stripFirst k opening.length).setUnreachable k false).disconnectPredecessors k
      (fun _ => true) = (g.stripFirst k opening.length).setUnreachable k false := by
    have hsuccs : ∀ x, (((g.stripFirst k opening.length).setUnreachable k false).node x).succs =
        (g.node x).succs := by
      intro x
      rw [setUnreachable, node_modifyNode, stripFirst, mapInstrs, node_modifyNode]
      split <;> split <;> simp [Node.succs_mapInstrs]
    exact disconnectPredecessors_of_unreached hmarked.sound
      (fun x => (hsuccs x).symm ▸ hunreached x) _
  have hjumped := shows_dropJump hmarked (hcs' _) (List.getElem?_set_self hlt)
    (fun i hi => (his i hi).1) hleave
  have hcut := hjumped.cutSuccessors (List.getElem?_set_self (by simpa using hlt))
  rw [List.set_set, List.set_set] at hcut
  refine ⟨_, ?_, hcut⟩
  have hinstrs : g.instrs k = opening ++ (is ++ leave.toList) := by
    rw [h.instrs_eq hcell]
    simp [Cell.instrs]
  have hprologue : prologue none (g.instrs k) = (opening.length, some name) := by
    rw [hinstrs]
    refine prologue_opens hopens fun i hi => ?_
    rcases List.mem_append.mp hi with hi | hi
    · exact (his i hi).2
    · simp [Instr.isCallTo, hleave i (Option.mem_toList.mp hi)]
  rw [closeCatch, run_get_bind, (h.stands hb).blockAt?_startOf hlaid (Nat.le_of_lt hk)]
  rw [run_bind_ok (show (require _ (some k)).run g = .ok k g from rfl), run_get_bind, hprologue]
  dsimp only
  rw [run_modify_bind, run_modify_bind, run_modify_bind, hsame, run_get_bind,
    (hmarked.stands (hb.setUnreachable k false)).blockEndingAt?_startOf hlaid hk]
  rfl

end

/-! ## The fold -/

/-- What the hook says where the handlers are. -/
theorem hook?_eq {g : Graph} {cleanup caught : Nat} {hook : List Instr} {block : NodeId}
    (h : Sets cleanup caught hook) (hinstrs : g.instrs block = hook) :
    ∃ address first second, hook? g block = some (address, first, second) ∧
      Hook.address? first = .ok (some cleanup) ∧ Hook.address? second = .ok (some caught) := by
  obtain ⟨⟨-, hfirst, ha⟩, -, ⟨-, hsecond, hb⟩, -, hset⟩ := h
  cases hset with | mk hcall hdrop =>
  rename_i first widen second widen' call drop a b
  refine ⟨call.address, first, second, ?_, address?_int32 hfirst ha, address?_int32 hsecond hb⟩
  rw [hook?, hinstrs]
  change (if call.isCallTo Hook.try_ && drop.opcode == .popz then _ else none) = _
  rw [if_pos (by simp [hcall, hdrop])]

/-- The node of the statement, hung after a block with the bodies under it. -/
def hung (name : Option String) (start stop : Nat) (block next : NodeId)
    (bodies : NodeId × NodeId × NodeId) (g : Graph) : Graph :=
  (((((g.add (.ofKind (.tryCatch name) start stop 3)).connect block g.nodes.size).connect
    g.nodes.size next).setChild g.nodes.size Slot.tryBody (some bodies.1)).setChild g.nodes.size
      Slot.catchBody (some bodies.2.1)).setChild g.nodes.size Slot.finallyBody (some bodies.2.2)

namespace Parts

variable (p : Parts)

/-- The blocks when the pass comes to them. In older code the jump back has been folded to a loop. -/
def staged : Layout → List Cell
  | .catchFirst => [⟨p.hook, none, [1]⟩, ⟨p.body ++ p.unhook, some p.jump, [3, 2]⟩,
      ⟨p.opening ++ p.caught, some p.leave, [3]⟩, ⟨p.cleanup ++ p.finish, none, [4]⟩,
      ⟨[], some p.exit, [5]⟩, ⟨[], none, []⟩]
  | .finallyFirst => [⟨p.hook, none, [1]⟩, ⟨p.body ++ p.unhook, some p.jump, [8]⟩,
      ⟨p.cleanup ++ p.finish, none, [3]⟩, ⟨[], some p.skip, [9, 4]⟩,
      ⟨p.opening ++ p.caught, none, []⟩, ⟨[], some p.exit, [6]⟩, ⟨[], none, []⟩]

/-- The blocks when only the catch body is left to close. -/
def opened : Layout → List Cell
  | .catchFirst => [⟨[], none, [1]⟩, ⟨p.body, none, []⟩,
      ⟨p.opening ++ p.caught, some p.leave, [3]⟩, ⟨p.cleanup, none, []⟩, ⟨[], some p.exit, [5]⟩,
      ⟨[], none, []⟩]
  | .finallyFirst => [⟨[], none, [1]⟩, ⟨p.body, none, []⟩, ⟨p.cleanup, none, []⟩, ⟨[], none, []⟩,
      ⟨p.opening ++ p.caught, none, []⟩, ⟨[], some p.exit, [6]⟩, ⟨[], none, []⟩]

/-- The blocks without the code and the edges between the bodies. -/
def closed : Layout → List Cell
  | .catchFirst => [⟨[], none, []⟩, ⟨p.body, none, []⟩, ⟨p.caught, none, []⟩,
      ⟨p.cleanup, none, []⟩, ⟨[], some p.exit, [5]⟩, ⟨[], none, []⟩]
  | .finallyFirst => [⟨[], none, []⟩, ⟨p.body, none, []⟩, ⟨p.cleanup, none, []⟩, ⟨[], none, []⟩,
      ⟨p.caught, none, []⟩, ⟨[], some p.exit, [6]⟩, ⟨[], none, []⟩]

/-- How far the pass looks for the end of the finally body. -/
def limit (codeLength : Nat) : Layout → Nat
  | .catchFirst => codeLength
  | .finallyFirst => p.caughtStart .finallyFirst

end Parts

/-- The graph when the pass comes to it. -/
structure Ready (p : Parts) (layout : Layout) (code : CodeEntry) (g : Graph) : Prop where
  shows : Shows (p.staged layout) g g
  stands : Stands (p.cells layout) g
  codeLength : g.codeLength = startOf (p.cells layout) (p.cells layout).length
  size : Parts.exitCell layout + 2 < g.nodes.size
  beyond : ∀ x, Parts.exitCell layout + 1 < x →
    g.instrs x = [] ∧ ∀ t ∈ (g.node x).succs, t = Parts.exitCell layout
  root : g.root? = some (Parts.exitCell layout + 2)
  kind_root : ∃ blocks, (g.node (Parts.exitCell layout + 2)).kind =
    .fragment code.name code.argumentCount blocks
  children_root : (g.node (Parts.exitCell layout + 2)).children = [some 0]

section

open Parts

variable {p : Parts} {layout : Layout} {name : String} {code : CodeEntry} {g : Graph}

/-- Up to there the finally body ends. -/
theorem startOf_le_limit (hlaid : Sketches (p.cells layout) code) (hg : Ready p layout code g) :
    startOf (p.cells layout) (cleanupCell layout + 1) ≤ p.limit g.codeLength layout := by
  cases layout with
  | catchFirst =>
    have hlt : startOf (p.cells .catchFirst) 4 < startOf (p.cells .catchFirst) 5 :=
      startOf_lt hlaid.contiguous_code hlaid.filled (by decide) (by simp [cells])
    rw [limit, hg.codeLength]
    exact Nat.le_of_lt hlt
  | finallyFirst =>
    have hlt : startOf (p.cells .finallyFirst) 3 < startOf (p.cells .finallyFirst) 4 :=
      startOf_lt hlaid.contiguous_code hlaid.filled (by decide) (by simp [cells])
    rw [limit, ← startOf_caught]
    exact Nat.le_of_lt hlt

/-- Where the statement ends: at the exit. -/
theorem statementEnd_run (h : p.Fits layout name) (hlaid : Sketches (p.cells layout) code)
    (hg : Ready p layout code g) {g' : Graph} (hshows : Shows ((((p.staged layout).set 0
      ⟨[], none, [1]⟩).set 1 ⟨p.body, none, []⟩).set (cleanupCell layout) ⟨p.cleanup, none, []⟩) g
        g') (caught : Nat) : ∃ g'',
    (statementEnd layout (some caught) (startOf (p.cells layout) (cleanupCell layout + 1))).run g' =
      .ok (startOf (p.cells layout) (exitCell layout)) g'' ∧ Shows (p.opened layout) g g'' := by
  cases layout with
  | catchFirst => exact ⟨g', rfl, hshows⟩
  | finallyFirst =>
    obtain ⟨hop, ht⟩ := h.skips rfl
    have hexit : startOf (p.cells .finallyFirst) 5 = p.exit.address :=
      startOf_exit hlaid.contiguous_code
    have hahead : startOf (p.cells .finallyFirst) 3 < p.exit.address := by
      rw [← hexit]
      exact startOf_lt hlaid.contiguous_code hlaid.filled (by decide) (by simp [cells])
    obtain ⟨g'', hrun, hshows⟩ := skipCatch_run hlaid hshows hg.stands (Nat.le_of_lt hg.size)
      (k := 3) (by simp [cells]) rfl hop ht hahead
    rw [← hexit] at hrun
    exact ⟨g'', hrun, hshows⟩

theorem cleanupCell_lt : cleanupCell layout < (p.cells layout).length := by
  cases layout <;> simp [cleanupCell, cells]

theorem caughtCell_lt : caughtCell layout < (p.cells layout).length := by
  cases layout <;> simp [caughtCell, cells]

theorem length_le_size (hg : Ready p layout code g) {cs : List Cell}
    (hcs : cs.length = exitCell layout + 2) : cs.length ≤ g.nodes.size :=
  hcs ▸ Nat.le_of_lt hg.size

/-- The addresses that the hook is given stand in the order of the layout. -/
theorem cleanupStart_lt_caughtStart (hlaid : Sketches (p.cells layout) code) :
    decide (p.cleanupStart layout < p.caughtStart layout) = (layout == .finallyFirst) := by
  rw [← startOf_caught, ← startOf_cleanup]
  cases layout with
  | catchFirst =>
    have hlt : startOf (p.cells .catchFirst) 2 < startOf (p.cells .catchFirst) 3 :=
      startOf_lt hlaid.contiguous_code hlaid.filled (by decide) (by simp [cells])
    exact decide_eq_false (Nat.lt_asymm hlt)
  | finallyFirst =>
    have hlt : startOf (p.cells .finallyFirst) 2 < startOf (p.cells .finallyFirst) 4 :=
      startOf_lt hlaid.contiguous_code hlaid.filled (by decide) (by simp [cells])
    exact decide_eq_true hlt

theorem staged_hook : (p.staged layout)[0]? = some ⟨p.hook, none, [1]⟩ := by
  cases layout <;> rfl

/-- The block of the hook is left empty. -/
theorem shows_stripHook (h : p.Fits layout name) (hg : Ready p layout code g) :
    Shows ((p.staged layout).set 0 ⟨[], none, [1]⟩) g (g.stripLast 0 6) := by
  have hhooks : ∀ is, Sets (p.cleanupStart layout) (p.caughtStart layout) is → is.length = 6 := by
    intro is hsets
    cases hsets
    rfl
  have hroom : (p.staged layout).length ≤ g.nodes.size :=
    length_le_size hg (by cases layout <;> rfl)
  exact hg.shows.strip hroom staged_hook p.hook (by simp [Cell.instrs]) (hhooks _ h.sets) rfl

/-- Of the block of the body the body is left. -/
theorem shows_closeBody (h : p.Fits layout name)
    (hplain : ∀ i ∈ p.body ++ p.caught ++ p.cleanup, i.Straight) (hg : Ready p layout code g) :
    Shows (((p.staged layout).set 0 ⟨[], none, [1]⟩).set 1 ⟨p.body, none, []⟩) g
      ((dropUnhook 1 (dropJump 1 (g.stripLast 0 6))).disconnectSuccessors 1) := by
  obtain ⟨ns, hbody⟩ : ∃ ns, ((p.staged layout).set 0 ⟨[], none, [1]⟩)[1]? =
      some ⟨p.body ++ p.unhook, some p.jump, ns⟩ := by cases layout <;> exact ⟨_, rfl⟩
  have hroom : ((p.staged layout).set 0 ⟨[], none, [1]⟩).length ≤ g.nodes.size :=
    length_le_size hg (by cases layout <;> rfl)
  exact shows_closeTry (shows_stripHook h hg) hroom hbody h.jumps.1
    (fun i hi => (hplain i (by simp [hi])).endsBlock) h.unhooks

/-- The block of the catch body before it is closed. A jump leads out of it in older code only. -/
theorem exists_opened_caughtCell (h : p.Fits layout name) :
    ∃ leave ns, (p.opened layout)[caughtCell layout]? = some ⟨p.opening ++ p.caught, leave, ns⟩ ∧
      ∀ i ∈ leave, i.opcode = .b := by
  cases layout with
  | catchFirst =>
    refine ⟨some p.leave, [3], rfl, fun i hi => ?_⟩
    cases hi
    exact h.leaves.1
  | finallyFirst => exact ⟨none, [], rfl, fun i hi => by cases hi⟩

/-- Nothing leads to the catch body any more when it is closed. -/
theorem caughtCell_not_mem_succs {g' : Graph} (hshows : Shows (p.opened layout) g g')
    (hg : Ready p layout code g) (x : NodeId) : caughtCell layout ∉ (g'.node x).succs := by
  have hopened : (p.opened layout).length = exitCell layout + 2 := by cases layout <;> rfl
  rcases Nat.lt_or_ge x (p.opened layout).length with hlt | hge
  · have hnone : ∀ c ∈ p.opened layout, caughtCell layout ∉ c.nexts := by
      cases layout <;> simp [opened, caughtCell]
    rw [hshows.succs_eq (List.getElem?_eq_getElem hlt)]
    exact hnone _ (List.getElem_mem hlt)
  · rw [← succs_face, hshows.other x hge, succs_face]
    intro hmem
    have hne : caughtCell layout ≠ exitCell layout := by cases layout <;> decide
    exact hne ((hg.beyond x (by omega)).2 _ hmem)

/-- The bodies are closed one after the other. -/
theorem exists_closed (h : p.Fits layout name) (hlaid : Sketches (p.cells layout) code)
    (hplain : ∀ i ∈ p.body ++ p.caught ++ p.cleanup, i.Straight)
    (hcaught : ∀ i ∈ p.caught, i.isCallTo Hook.unhook = false) (hg : Ready p layout code g) :
    ∃ g₃ g₄ g₅, (closeFinally (p.cleanupStart layout) (p.limit g.codeLength layout)).run
          ((dropUnhook 1 (dropJump 1 (g.stripLast 0 6))).disconnectSuccessors 1) =
            .ok (some (cleanupCell layout), startOf (p.cells layout) (cleanupCell layout + 1)) g₃ ∧
      (statementEnd layout (some (p.caughtStart layout))
        (startOf (p.cells layout) (cleanupCell layout + 1))).run g₃ =
          .ok (startOf (p.cells layout) (exitCell layout)) g₄ ∧
      (closeCatch (p.caughtStart layout) (startOf (p.cells layout) (caughtCell layout + 1))).run g₄ =
          .ok (caughtCell layout, some name) g₅ ∧
      Stands (p.cells layout) (g.stripLast 0 6) ∧ Stands (p.cells layout) g₅ ∧
      Shows (p.closed layout) (g.setUnreachable (caughtCell layout) false)
        (g₅.disconnectSuccessors 0) := by
  have h₂ := shows_closeBody h hplain hg
  have hfinallyCell : (((p.staged layout).set 0 ⟨[], none, [1]⟩).set 1 ⟨p.body, none, []⟩)[
      cleanupCell layout]? = some ⟨p.cleanup ++ p.finish, none, [cleanupCell layout + 1]⟩ := by
    cases layout <;> rfl
  obtain ⟨g₃, hfinally, h₃⟩ := closeFinally_run hlaid h₂ hg.stands
    (length_le_size hg (by cases layout <;> rfl)) cleanupCell_lt hfinallyCell h.finishes
    (startOf_le_limit hlaid hg)
  rw [startOf_cleanup] at hfinally
  obtain ⟨g₄, hend, h₄⟩ := statementEnd_run h hlaid hg h₃ (p.caughtStart layout)
  obtain ⟨leave, ns, hcaughtCell, hleave⟩ := exists_opened_caughtCell h
  obtain ⟨g₅, hcatch, h₅⟩ := closeCatch_run hlaid h₄ hg.stands
    (length_le_size hg (by cases layout <;> rfl)) caughtCell_lt hcaughtCell h.opens hleave
    (fun i hi => ⟨(hplain i (by simp [hi])).endsBlock, hcaught i hi⟩)
    (caughtCell_not_mem_succs h₄ hg)
  rw [startOf_caught] at hcatch
  have hfirst : ((p.opened layout).set (caughtCell layout) ⟨p.caught, none, []⟩)[0]? =
      some ⟨[], none, [1]⟩ := by cases layout <;> rfl
  have h₆ := h₅.cutSuccessors hfirst
  have hclosed : ((p.opened layout).set (caughtCell layout) ⟨p.caught, none, []⟩).set 0
      ⟨[], none, []⟩ = p.closed layout := by cases layout <;> rfl
  rw [hclosed] at h₆
  exact ⟨g₃, g₄, g₅, hfinally, hend, hcatch, (shows_stripHook h hg).stands hg.stands,
    h₅.stands (hg.stands.setUnreachable _ _), h₆⟩

theorem exists_fold (h : p.Fits layout name) (hlaid : Sketches (p.cells layout) code)
    (hplain : ∀ i ∈ p.body ++ p.caught ++ p.cleanup, i.Straight)
    (hcaught : ∀ i ∈ p.caught, i.isCallTo Hook.unhook = false) (hg : Ready p layout code g) :
    ∃ g₁ start stop, Shows (p.closed layout) (g.setUnreachable (caughtCell layout) false) g₁ ∧
      (fold layout 0).run g = .ok (some (g₁.disconnectPredecessors (exitCell layout) fun n =>
        decide (start ≤ n.start) && decide (n.start < stop)).nodes.size)
        (hung (some name) start stop 0 (exitCell layout)
          (1, caughtCell layout, cleanupCell layout)
          (g₁.disconnectPredecessors (exitCell layout) fun n =>
            decide (start ≤ n.start) && decide (n.start < stop))) := by
  obtain ⟨g₃, g₄, g₅, hfinally, hend, hcatch, hopen, hclosed, hshows⟩ :=
    exists_closed h hlaid hplain hcaught hg
  have hinstrs : g.instrs 0 = p.hook := by
    rw [hg.shows.instrs_eq staged_hook, Cell.instrs, Option.toList_none, List.append_nil]
  obtain ⟨address, first, second, hhook, hfirst, hsecond⟩ := hook?_eq h.sets hinstrs
  have hcells : (p.cells layout).length = exitCell layout + 1 := by cases layout <;> rfl
  have hpos : 2 ≤ exitCell layout := by cases layout <;> decide
  have hstart : (g.node 0).stop = startOf (p.cells layout) 1 := hg.stands.stop 0 (by omega)
  have hbody := hopen.blockAt?_startOf hlaid (k := 1) (by omega)
  have htry := hopen.blockEndingAt?_startOf hlaid (k := 1) (by omega)
  have hnext := hclosed.blockAt?_startOf hlaid (k := exitCell layout) (by omega)
  have hcaughtStart : startOf (p.cells layout) (caughtCell layout) = p.caughtStart layout :=
    startOf_caught
  have hcleanupStart : startOf (p.cells layout) (cleanupCell layout) = p.cleanupStart layout :=
    startOf_cleanup
  have hordered : Option.any (fun c => decide (p.cleanupStart layout < c) !=
      (layout == .finallyFirst)) (some (p.caughtStart layout)) = false := by
    rw [Option.any_some, cleanupStart_lt_caughtStart hlaid, bne_self_eq_false]
  have hcatch? : (closeCatch? (startOf (p.cells layout) (caughtCell layout + 1))
      (some (p.caughtStart layout))).run g₄ = .ok (some (caughtCell layout), some name) g₅ := by
    rw [closeCatch?, run_bind_ok hcatch]
    rfl
  refine ⟨g₅.disconnectSuccessors 0, startOf (p.cells layout) 1,
    startOf (p.cells layout) (exitCell layout), hshows, ?_⟩
  rw [fold, run_get_bind, hhook]
  dsimp only
  rw [hfirst, hsecond, run_bind_ok (show (Pass.ofExcept _).run g = .ok _ g from rfl),
    run_bind_ok (show (require _ (some _)).run g = .ok _ g from rfl),
    run_bind_ok (show (Pass.ofExcept _).run g = .ok _ g from rfl), hordered,
    if_neg Bool.false_ne_true, run_modify_bind, run_get_bind, hstart, hbody,
    run_bind_ok (show (require _ (some _)).run _ = .ok _ _ from rfl), run_get_bind]
  cases layout with
  | catchFirst =>
    have htry : (g.stripLast 0 6).blockEndingAt? (p.caughtStart .catchFirst) = some 1 :=
      hcaughtStart ▸ htry
    have hfinally : (closeFinally (p.cleanupStart .catchFirst) g.codeLength).run _ = _ := hfinally
    have hcatch? : (closeCatch? (p.cleanupStart .catchFirst)
        (some (p.caughtStart .catchFirst))).run g₄ = .ok (some 2, some name) g₅ := by
      rw [← hcleanupStart]
      exact hcatch?
    dsimp only
    rw [htry, run_bind_ok (show (require _ (some _)).run _ = .ok _ _ from rfl), run_modify_bind,
      run_modify_bind, run_modify_bind, run_bind_ok hfinally]
    dsimp only
    rw [run_bind_ok hend, if_neg (by decide), run_bind_ok hcatch?, run_get_bind, hnext]
    rfl
  | finallyFirst =>
    have htry : (g.stripLast 0 6).blockEndingAt? (p.cleanupStart .finallyFirst) = some 1 :=
      hcleanupStart ▸ htry
    have hfinally : (closeFinally (p.cleanupStart .finallyFirst)
        (p.caughtStart .finallyFirst)).run _ = _ := hfinally
    have hcatch? : (closeCatch? (startOf (p.cells .finallyFirst) (exitCell .finallyFirst))
        (some (p.caughtStart .finallyFirst))).run g₄ = .ok (some 4, some name) g₅ := hcatch?
    dsimp only
    rw [htry, run_bind_ok (show (require _ (some _)).run _ = .ok _ _ from rfl), run_modify_bind,
      run_modify_bind, run_modify_bind, run_bind_ok hfinally]
    dsimp only
    rw [run_bind_ok hend, if_pos rfl, run_bind_ok hcatch?, run_get_bind, hnext]
    rfl

end

/-! ## The statement hung into the graph -/

section

variable {name : Option String} {start stop : Nat} {block next : NodeId}
  {bodies : NodeId × NodeId × NodeId} {g : Graph}

theorem size_hung : (hung name start stop block next bodies g).nodes.size = g.nodes.size + 1 := by
  simp [hung]

theorem fragments_hung : (hung name start stop block next bodies g).fragments = g.fragments := by
  rw [hung, fragments_setChild, fragments_setChild, fragments_setChild]
  rfl

theorem kind_hung (x : NodeId) : ((hung name start stop block next bodies g).node x).kind =
    if x = g.nodes.size then .tryCatch name else (g.node x).kind := by
  rw [← gist_kind, hung, gist_setChild, gist_setChild, gist_setChild, gist_connect, gist_connect,
    gist_kind, node_add]
  split <;> rfl

theorem succs_hung (hblock : block < g.nodes.size) (x : NodeId) :
    ((hung name start stop block next bodies g).node x).succs =
      if x = g.nodes.size then [next]
      else (g.node x).succs ++ if x = block then [g.nodes.size] else [] := by
  rw [hung, succs_setChild, succs_setChild, succs_setChild, succs_connect (by simp),
    succs_connect (by simpa using Nat.lt_succ_of_lt hblock), node_add]
  by_cases hx : x = g.nodes.size
  · subst hx
    rw [if_pos rfl, if_pos rfl, if_pos rfl, if_neg (Nat.ne_of_gt hblock)]
    rfl
  · rw [if_neg hx, if_neg hx, if_neg hx, List.append_nil]

theorem children_hung (x : NodeId) : ((hung name start stop block next bodies g).node x).children =
    if x = g.nodes.size then [some bodies.1, some bodies.2.1, some bodies.2.2]
    else (g.node x).children := by
  have hbare : ∀ x, ((((g.add (.ofKind (.tryCatch name) start stop 3)).connect block
      g.nodes.size).connect g.nodes.size next).node x).children =
        ((g.add (.ofKind (.tryCatch name) start stop 3)).node x).children := fun x =>
    Node.children_of_bare ((bare_connect ..).trans (bare_connect ..))
  by_cases hx : x = g.nodes.size
  · subst hx
    rw [if_pos rfl, hung, children_setChild_self (by simp), children_setChild_self (by simp),
      children_setChild_self (by simp), hbare, node_add, if_pos rfl]
    rfl
  · rw [if_neg hx, hung, children_setChild_of_ne hx, children_setChild_of_ne hx,
      children_setChild_of_ne hx, hbare, node_add, if_neg hx]

end

/-- A graph whose bodies are closed; beyond its blocks it is as it was. -/
structure Cleared (p : Parts) (layout : Layout) (g g₂ : Graph) : Prop where
  size : g₂.nodes.size = g.nodes.size
  fragments : g₂.fragments = g.fragments
  cell : ∀ j c, (p.closed layout)[j]? = some c →
    (g₂.node j).kind = .block c.instrs ∧ (g₂.node j).succs = c.nexts
  beyond : ∀ x, Parts.exitCell layout + 1 < x →
    (g₂.node x).kind = (g.node x).kind ∧ (g₂.node x).children = (g.node x).children

/-- The graph of code with a handler: the statement's node hangs between the block of the hook,
which is left empty, and that of the exit, and holds the bodies. -/
structure Caught (p : Parts) (layout : Layout) (name : String) (code : CodeEntry) (n : NodeId)
    (g : Graph) : Prop where
  lt_size : Parts.exitCell layout + 2 < n ∧ n < g.nodes.size
  root : g.root? = some (Parts.exitCell layout + 2)
  kind_root : ∃ blocks, (g.node (Parts.exitCell layout + 2)).kind =
    .fragment code.name code.argumentCount blocks
  children_root : (g.node (Parts.exitCell layout + 2)).children = [some 0]
  hook : (g.node 0).kind = .block [] ∧ (g.node 0).succs = [n]
  kind_node : (g.node n).kind = .tryCatch (some name)
  succs_node : (g.node n).succs = [Parts.exitCell layout]
  children_node : (g.node n).children =
    [some 1, some (Parts.caughtCell layout), some (Parts.cleanupCell layout)]
  body : (g.node 1).kind = .block p.body ∧ (g.node 1).succs = []
  caught : (g.node (Parts.caughtCell layout)).kind = .block p.caught ∧
    (g.node (Parts.caughtCell layout)).succs = []
  cleanup : (g.node (Parts.cleanupCell layout)).kind = .block p.cleanup ∧
    (g.node (Parts.cleanupCell layout)).succs = []
  left : (g.node (Parts.exitCell layout)).kind = .block [p.exit] ∧
    (g.node (Parts.exitCell layout)).succs = [Parts.exitCell layout + 1]
  ended : (g.node (Parts.exitCell layout + 1)).kind = .block [] ∧
    (g.node (Parts.exitCell layout + 1)).succs = []
  idle : ∀ x, ∀ i ∈ g.instrs x, i ∈ p.exit :: (p.body ++ p.caught ++ p.cleanup)

section

open Parts

variable {p : Parts} {layout : Layout} {name : String} {code : CodeEntry} {g : Graph}

theorem length_closed : (p.closed layout).length = exitCell layout + 2 := by
  cases layout <;> rfl

/-- No closed block but that before the exit leads anywhere. -/
theorem not_mem_nexts_closed : ∀ c ∈ p.closed layout, exitCell layout ∉ c.nexts := by
  cases layout <;> simp [closed, exitCell]

/-- The code that is left. -/
theorem mem_closed : ∀ c ∈ p.closed layout, ∀ i ∈ c.instrs,
    i ∈ p.exit :: (p.body ++ p.caught ++ p.cleanup) := by
  intro c hc i hi
  cases layout <;>
  · simp only [closed, List.mem_cons, List.not_mem_nil, or_false] at hc
    rcases hc with rfl | rfl | rfl | rfl | rfl | rfl | rfl <;>
      simp_all [Cell.instrs]

/-- Dropping the edges by which the inside leads to the exit changes none of the blocks. -/
theorem cleared_of_shows {g₁ : Graph} (inside : Node → Bool)
    (hshows : Shows (p.closed layout) (g.setUnreachable (caughtCell layout) false) g₁) :
    Cleared p layout g (g₁.disconnectPredecessors (exitCell layout) inside) := by
  have hlen : (p.closed layout).length = exitCell layout + 2 := length_closed
  refine ⟨?_, ?_, fun j c hc => ?_, fun x hx => ?_⟩
  · rw [size_disconnectPredecessors, hshows.size, size_setUnreachable]
  · have hdrop : ∀ (g : Graph) a, (g.disconnect a (exitCell layout)).fragments = g.fragments :=
      fun _ _ => rfl
    exact (foldl_keeps (·.fragments) hdrop _ _).trans hshows.fragments
  · have hleads : exitCell layout ∉ (g₁.node j).succs := by
      rw [hshows.succs_eq hc]
      exact not_mem_nexts_closed c (List.mem_of_getElem? hc)
    rw [← kind_face, ← succs_face, face_disconnectPredecessors hleads, hshows.cell j c hc]
    exact ⟨rfl, rfl⟩
  · have hface : (g.setUnreachable (caughtCell layout) false).face x = g.face x := by
      have hne : x ≠ caughtCell layout := by
        have hlt : caughtCell layout < exitCell layout := by cases layout <;> decide
        omega
      rw [face, setUnreachable, node_modifyNode, if_neg fun hn => hne hn.1]
      rfl
    have hsame : g₁.face x = g.face x := by rw [hshows.other x (by omega), hface]
    have hbare : ((g₁.disconnectPredecessors (exitCell layout) inside).node x).bare =
        (g₁.node x).bare := foldl_keeps (fun g => (g.node x).bare) (fun g a => bare_disconnect ..) _ _
    rw [Node.children_of_bare hbare, ← gist_kind, gist_disconnectPredecessors, gist_kind,
      ← kind_face, hsame, ← children_face, hsame]
    exact ⟨rfl, rfl⟩

namespace Cleared

variable {g₂ : Graph} {start stop : Nat}

/-- A closed block that the statement's node does not hang after. -/
theorem hung_block (h : Cleared p layout g g₂) (hg : Ready p layout code g) {j : NodeId} {c : Cell}
    (hc : (p.closed layout)[j]? = some c) (hj : 0 < j) :
    ((hung (some name) start stop 0 (exitCell layout) (1, caughtCell layout, cleanupCell layout)
      g₂).node j).kind = .block c.instrs ∧
    ((hung (some name) start stop 0 (exitCell layout) (1, caughtCell layout, cleanupCell layout)
      g₂).node j).succs = c.nexts := by
  have hlt : exitCell layout + 2 < g₂.nodes.size := h.size ▸ hg.size
  have hjlt : j < exitCell layout + 2 := length_closed ▸ (List.getElem?_eq_some_iff.mp hc).1
  have hne : j ≠ g₂.nodes.size := Nat.ne_of_lt (Nat.lt_trans hjlt hlt)
  rw [kind_hung, succs_hung (Nat.lt_of_le_of_lt (Nat.zero_le _) hlt), if_neg hne, if_neg hne,
    if_neg (Nat.ne_of_gt hj), List.append_nil]
  exact h.cell j c hc

/-- No code is left but that of the bodies and the exit. -/
theorem mem_instrs_hung (h : Cleared p layout g g₂) (hg : Ready p layout code g) {x : NodeId}
    {i : Instr} {bodies : NodeId × NodeId × NodeId}
    (hi : i ∈ (hung (some name) start stop 0 (exitCell layout) bodies g₂).instrs x) :
    i ∈ p.exit :: (p.body ++ p.caught ++ p.cleanup) := by
  rw [Graph.instrs, Node.instrs, kind_hung] at hi
  by_cases hx : x = g₂.nodes.size
  · rw [if_pos hx] at hi
    cases hi
  · rw [if_neg hx] at hi
    rcases Nat.lt_or_ge x (p.closed layout).length with hin | hout
    · have hcell := List.getElem?_eq_getElem hin
      rw [(h.cell x _ hcell).1] at hi
      exact mem_closed _ (List.getElem_mem hin) i hi
    · have hbeyond : exitCell layout + 1 < x := by
        rw [length_closed] at hout
        omega
      rw [(h.beyond x hbeyond).1] at hi
      have hnone : i ∈ g.instrs x := hi
      rw [(hg.beyond x hbeyond).1] at hnone
      cases hnone

/-- The statement's node between the hook and the exit. -/
theorem caught (h : Cleared p layout g g₂) (hg : Ready p layout code g) (start stop : Nat) :
    Caught p layout name code g₂.nodes.size
      (hung (some name) start stop 0 (exitCell layout) (1, caughtCell layout, cleanupCell layout)
        g₂) := by
  have hlt : exitCell layout + 2 < g₂.nodes.size := h.size ▸ hg.size
  have hzero : 0 < g₂.nodes.size := Nat.lt_of_le_of_lt (Nat.zero_le _) hlt
  have hroot := h.beyond (exitCell layout + 2) (Nat.lt_succ_self _)
  have hnode : exitCell layout + 2 ≠ g₂.nodes.size := Nat.ne_of_lt hlt
  have hhook : (p.closed layout)[0]? = some ⟨[], none, []⟩ := by cases layout <;> rfl
  obtain ⟨blocks, hkind⟩ := hg.kind_root
  refine ⟨⟨hlt, ?_⟩, ?_, ⟨blocks, ?_⟩, ?_, ⟨?_, ?_⟩, ?_, ?_, ?_, ?_, ?_, ?_, ?_, ?_, ?_⟩
  · rw [size_hung]
    exact Nat.lt_succ_self _
  · rw [root?, fragments_hung, h.fragments]
    exact hg.root
  · rw [kind_hung, if_neg hnode, hroot.1, hkind]
  · rw [children_hung, if_neg hnode, hroot.2, hg.children_root]
  · rw [kind_hung, if_neg (Nat.ne_of_lt hzero), (h.cell 0 _ hhook).1]
    rfl
  · rw [succs_hung hzero, if_neg (Nat.ne_of_lt hzero), (h.cell 0 _ hhook).2, if_pos rfl]
    rfl
  · rw [kind_hung, if_pos rfl]
  · rw [succs_hung hzero, if_pos rfl]
  · rw [children_hung, if_pos rfl]
  · have hcell : (p.closed layout)[1]? = some ⟨p.body, none, []⟩ := by cases layout <;> rfl
    simpa [Cell.instrs] using h.hung_block hg hcell Nat.one_pos
  · have hcell : (p.closed layout)[caughtCell layout]? = some ⟨p.caught, none, []⟩ := by
      cases layout <;> rfl
    simpa [Cell.instrs] using h.hung_block hg hcell (by cases layout <;> decide)
  · have hcell : (p.closed layout)[cleanupCell layout]? = some ⟨p.cleanup, none, []⟩ := by
      cases layout <;> rfl
    simpa [Cell.instrs] using h.hung_block hg hcell (by cases layout <;> decide)
  · have hcell : (p.closed layout)[exitCell layout]? =
        some ⟨[], some p.exit, [exitCell layout + 1]⟩ := by cases layout <;> rfl
    exact h.hung_block hg hcell (by cases layout <;> decide)
  · have hcell : (p.closed layout)[exitCell layout + 1]? = some ⟨[], none, []⟩ := by
      cases layout <;> rfl
    exact h.hung_block hg hcell (Nat.succ_pos _)
  · intro x i hi
    exact h.mem_instrs_hung hg hi

end Cleared

/-- The fold at the block of the hook leaves the bodies under one node. -/
theorem fold_run (h : p.Fits layout name) (hlaid : Sketches (p.cells layout) code)
    (hplain : ∀ i ∈ p.body ++ p.caught ++ p.cleanup, i.Straight)
    (hcaught : ∀ i ∈ p.caught, i.isCallTo Hook.unhook = false) (hg : Ready p layout code g) :
    ∃ n g', (fold layout 0).run g = .ok (some n) g' ∧ Caught p layout name code n g' := by
  obtain ⟨g₁, start, stop, hshows, hrun⟩ := exists_fold h hlaid hplain hcaught hg
  exact ⟨_, _, hrun, (cleared_of_shows _ hshows).caught hg start stop⟩

end

end TryCatch

end GmlLift
