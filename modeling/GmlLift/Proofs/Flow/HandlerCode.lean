import GmlLift.Proofs.Flow.LoopLayouts

/-! # The layouts of an exception handler

A try body, a catch body and a finally body stand between calls that set and release the handlers.
Newer code has the catch body before the finally body, older code has it behind. Either way the code
is cut into a few blocks that are known by their number. -/
namespace GmlLift

open GmlLift.Graph Cell

/-! ## Where handlers cut -/

namespace Blocks

variable {is before rest : List Instr} {asked : List Nat}

theorem splitsAt_straight {i : Instr} (h : i.Straight) : splitsAt before i rest = .ok [] := by
  obtain ⟨hends, htry, hfinish⟩ := h
  unfold splitsAt
  cases hop : i.opcode with
  | call =>
    dsimp only
    rw [htry, hfinish]
    rfl
  | b | bt | bf | pushEnv | popEnv | ret | exit => simp [Instr.endsBlock, hop] at hends
  | _ => rfl

/-- Straight code asks for no cut. -/
theorem splitsFrom_straight (h : ∀ i ∈ is, i.Straight) (before : List Instr) :
    splitsFrom before (is ++ rest) = splitsFrom (is.reverse ++ before) rest := by
  induction is generalizing before with
  | nil => rfl
  | cons i is ih =>
    have hbefore : (i :: is).reverse ++ before = is.reverse ++ i :: before := by simp
    rw [List.cons_append, splitsFrom, splitsAt_straight (h i (by simp)),
      ih (fun j hj => h j (by simp [hj])), hbefore]
    cases splitsFrom (is.reverse ++ i :: before) rest <;> rfl

theorem splitsFrom_jump {i : Instr} {target : Nat} (hop : i.opcode = .b)
    (ht : i.target? = some target) (hrest : splitsFrom (i :: before) rest = .ok asked) :
    splitsFrom before (i :: rest) = .ok (target :: i.endAddress :: asked) := by
  have hhere : splitsAt before i rest = .ok [target, i.endAddress] := by
    rw [splitsAt, hop, ht]
    rfl
  rw [splitsFrom, hhere, hrest]
  rfl

theorem splitsFrom_exit {i : Instr} (hop : i.opcode = .exit) :
    splitsFrom before [i] = .ok [i.endAddress] := by
  rw [splitsFrom, splitsAt, hop]
  rfl

end Blocks

namespace TryCatch

/-! ## The code of handlers -/

/-- A call whose result is dropped. -/
inductive Drops (name : String) : List Instr → Prop
  | mk {call drop : Instr} (hcall : call.isCallTo name = true) (hdrop : drop.opcode = .popz) :
      Drops name [call, drop]

/-- The code that sets the handlers at two addresses. -/
inductive Sets (cleanup caught : Nat) : List Instr → Prop
  | mk {first widen second widen' call drop : Instr} {a b : Int32}
      (hfirst : first.opcode = .push ∧ first.operand = .int32 a ∧ a.toInt = cleanup)
      (hwiden : widen.opcode = .conv)
      (hsecond : second.opcode = .push ∧ second.operand = .int32 b ∧ b.toInt = caught)
      (hwiden' : widen'.opcode = .conv) (hset : Drops Hook.try_ [call, drop]) :
      Sets cleanup caught [first, widen, second, widen', call, drop]

/-- The code that a catch body starts with: the store of the caught value and the release of the
handlers, in either order. -/
inductive Opens (name : String) : List Instr → Prop
  | storeFirst {store : Instr} {v : VariableOperand} {unhook : List Instr}
      (hop : store.opcode = .pop) (hvar : store.operand = .var v) (hname : v.name = name)
      (h : Drops Hook.unhook unhook) : Opens name (store :: unhook)
  | unhookFirst {store : Instr} {v : VariableOperand} {unhook : List Instr}
      (hop : store.opcode = .pop) (hvar : store.operand = .var v) (hname : v.name = name)
      (h : Drops Hook.unhook unhook) : Opens name (unhook ++ [store])

/-- The parts of code with a handler: the three bodies and what stands between them. The jump `skip`
past the catch body belongs to older code alone. -/
structure Parts where
  hook : List Instr
  body : List Instr
  unhook : List Instr
  jump : Instr
  opening : List Instr
  caught : List Instr
  leave : Instr
  cleanup : List Instr
  finish : List Instr
  skip : Instr
  exit : Instr

namespace Parts

variable (p : Parts)

def instrs : Layout → List Instr
  | .catchFirst => p.hook ++ p.body ++ p.unhook ++ [p.jump] ++ p.opening ++ p.caught ++ [p.leave] ++
      p.cleanup ++ p.finish ++ [p.exit]
  | .finallyFirst => p.hook ++ p.body ++ p.unhook ++ [p.jump] ++ p.cleanup ++ p.finish ++ [p.skip] ++
      p.opening ++ p.caught ++ [p.leave, p.exit]

/-- Where the finally body starts. -/
def cleanupStart : Layout → Nat
  | .catchFirst => p.leave.endAddress
  | .finallyFirst => p.jump.endAddress

/-- Where the catch body starts. -/
def caughtStart : Layout → Nat
  | .catchFirst => p.jump.endAddress
  | .finallyFirst => p.skip.endAddress

/-- The code around the bodies sets and releases the handlers and jumps between them. -/
structure Fits (layout : Layout) (name : String) : Prop where
  sets : Sets (p.cleanupStart layout) (p.caughtStart layout) p.hook
  unhooks : Drops Hook.unhook p.unhook
  jumps : p.jump.opcode = .b ∧ p.jump.target? = some (p.cleanupStart layout)
  opens : Opens name p.opening
  leaves : p.leave.opcode = .b ∧ p.leave.target? = some (p.cleanupStart layout)
  finishes : Drops Hook.finishFinally p.finish
  skips : layout = .finallyFirst → p.skip.opcode = .b ∧ p.skip.target? = some p.exit.address
  exits : p.exit.opcode = .exit

def cells : Layout → List Cell
  | .catchFirst => [⟨p.hook, none, [1]⟩, ⟨p.body ++ p.unhook, some p.jump, [3]⟩,
      ⟨p.opening ++ p.caught, some p.leave, [3]⟩, ⟨p.cleanup ++ p.finish, none, [4]⟩,
      ⟨[], some p.exit, []⟩]
  | .finallyFirst => [⟨p.hook, none, [1]⟩, ⟨p.body ++ p.unhook, some p.jump, [2]⟩,
      ⟨p.cleanup ++ p.finish, none, [3]⟩, ⟨[], some p.skip, [5]⟩,
      ⟨p.opening ++ p.caught, some p.leave, [2]⟩, ⟨[], some p.exit, []⟩]

/-- The block of the catch body. -/
def caughtCell : Layout → Nat
  | .catchFirst => 2
  | .finallyFirst => 4

/-- The block of the finally body. -/
def cleanupCell : Layout → Nat
  | .catchFirst => 3
  | .finallyFirst => 2

/-- The block of the exit. -/
def exitCell : Layout → Nat
  | .catchFirst => 4
  | .finallyFirst => 5

end Parts

/-! ## Straight code around the bodies -/

theorem straight_of_call {i : Instr} {name : String} (h : i.isCallTo name = true)
    (htry : name ≠ Hook.try_) (hfinish : name ≠ Hook.finishFinally) : i.Straight := by
  simp only [Instr.isCallTo, Bool.and_eq_true, beq_iff_eq] at h
  obtain ⟨hop, hname⟩ := h
  constructor
  · simp [Instr.endsBlock, hop]
  · simp [Instr.isCallTo, hname, htry]
  · simp [Instr.isCallTo, hname, hfinish]

theorem straight_of_opcode {i : Instr} (h : i.endsBlock = false) (hc : i.opcode ≠ .call) :
    i.Straight where
  endsBlock := h
  hook := by simp [Instr.isCallTo, hc]
  finish := by simp [Instr.isCallTo, hc]

theorem straight_of_popz {i : Instr} (h : i.opcode = .popz) : i.Straight :=
  straight_of_opcode (by simp [Instr.endsBlock, h]) (by simp [h])

theorem Drops.straight {is : List Instr} (h : Drops Hook.unhook is) : ∀ i ∈ is, i.Straight := by
  obtain ⟨hcall, hdrop⟩ := h
  intro i hi
  simp only [List.mem_cons, List.not_mem_nil, or_false] at hi
  rcases hi with rfl | rfl
  · exact straight_of_call hcall (by decide) (by decide)
  · exact straight_of_popz hdrop

theorem Opens.straight {name : String} {is : List Instr} (h : Opens name is) :
    ∀ i ∈ is, i.Straight := by
  intro i hi
  cases h with
  | storeFirst hop hvar hname hdrops =>
    rcases List.mem_cons.mp hi with rfl | hi
    · exact straight_of_opcode (by simp [Instr.endsBlock, hop]) (by simp [hop])
    · exact hdrops.straight i hi
  | unhookFirst hop hvar hname hdrops =>
    rcases List.mem_append.mp hi with hi | hi
    · exact hdrops.straight i hi
    · rw [List.mem_singleton.mp hi]
      exact straight_of_opcode (by simp [Instr.endsBlock, hop]) (by simp [hop])

/-- Neither the calls nor what they are surrounded by end a block. -/
theorem plain_of_drops {name : String} {is : List Instr} (h : Drops name is) :
    ∀ i ∈ is, i.endsBlock = false ∧ i.opcode ≠ .extended := by
  obtain ⟨hcall, hdrop⟩ := h
  simp only [Instr.isCallTo, Bool.and_eq_true, beq_iff_eq] at hcall
  intro i hi
  simp only [List.mem_cons, List.not_mem_nil, or_false] at hi
  rcases hi with rfl | rfl
  · simp [Instr.endsBlock, hcall.1]
  · simp [Instr.endsBlock, hdrop]

theorem plain_of_sets {cleanup caught : Nat} {is : List Instr} (h : Sets cleanup caught is) :
    ∀ i ∈ is, i.endsBlock = false ∧ i.opcode ≠ .extended := by
  obtain ⟨hfirst, hwiden, hsecond, hwiden', hset⟩ := h
  intro i hi
  simp only [List.mem_cons, List.not_mem_nil, or_false] at hi
  rcases hi with rfl | rfl | rfl | rfl | hi
  · simp [Instr.endsBlock, hfirst.1]
  · simp [Instr.endsBlock, hwiden]
  · simp [Instr.endsBlock, hsecond.1]
  · simp [Instr.endsBlock, hwiden']
  · exact plain_of_drops hset i (by simpa using hi)

theorem plain_of_opens {name : String} {is : List Instr} (h : Opens name is) :
    ∀ i ∈ is, i.endsBlock = false ∧ i.opcode ≠ .extended := by
  intro i hi
  cases h with
  | storeFirst hop hvar hname hdrops =>
    rcases List.mem_cons.mp hi with rfl | hi
    · simp [Instr.endsBlock, hop]
    · exact plain_of_drops hdrops i hi
  | unhookFirst hop hvar hname hdrops =>
    rcases List.mem_append.mp hi with hi | hi
    · exact plain_of_drops hdrops i hi
    · rw [List.mem_singleton.mp hi]
      simp [Instr.endsBlock, hop]

theorem Drops.ne_nil {name : String} {is : List Instr} (h : Drops name is) : is ≠ [] := by
  cases h
  exact List.cons_ne_nil _ _

/-! ## The points asked for -/

theorem address?_int32 {i : Instr} {a : Int32} {n : Nat} (hi : i.operand = .int32 a)
    (ha : a.toInt = n) : Hook.address? i = .ok (some n) := by
  have hrange := a.toInt_lt
  rw [Hook.address?, Instr.intValue?, hi]
  dsimp only
  rw [if_neg (by omega), if_pos (by omega), ha]
  rfl

open Blocks

/-- The hook asks for a cut behind it and at both handlers. -/
theorem splitsFrom_sets {cleanup caught : Nat} {hook rest : List Instr} {asked : List Nat}
    (h : Sets cleanup caught hook) (hrest : splitsFrom hook.reverse rest = .ok asked) :
    splitsFrom [] (hook ++ rest) = .ok (endFrom 0 hook :: cleanup :: caught :: asked) := by
  obtain ⟨⟨hfirst, hfirstInt, ha⟩, hwiden, ⟨hsecond, hsecondInt, hb⟩, hwiden', hset⟩ := h
  cases hset with | mk hcall hdrop =>
  rename_i first widen second widen' call drop a b
  have hop : call.opcode = .call := by
    simp only [Instr.isCallTo, Bool.and_eq_true, beq_iff_eq] at hcall
    exact hcall.1
  have hplain : ∀ i ∈ [first, widen, second, widen'], i.Straight := by
    intro i hi
    simp only [List.mem_cons, List.not_mem_nil, or_false] at hi
    rcases hi with rfl | rfl | rfl | rfl
    · exact straight_of_opcode (by simp [Instr.endsBlock, hfirst]) (by simp [hfirst])
    · exact straight_of_opcode (by simp [Instr.endsBlock, hwiden]) (by simp [hwiden])
    · exact straight_of_opcode (by simp [Instr.endsBlock, hsecond]) (by simp [hsecond])
    · exact straight_of_opcode (by simp [Instr.endsBlock, hwiden']) (by simp [hwiden'])
  have hhere : splitsAt [widen', second, widen, first] call (drop :: rest) =
      .ok [drop.endAddress, cleanup, caught] := by
    have hcleanup : pushedAddress [widen', second, widen, first] 4 = .ok [cleanup] := by
      change (Hook.address? first).map Option.toList = _
      rw [address?_int32 hfirstInt ha]
      rfl
    have hcaught : pushedAddress [widen', second, widen, first] 2 = .ok [caught] := by
      change (Hook.address? second).map Option.toList = _
      rw [address?_int32 hsecondInt hb]
      rfl
    rw [splitsAt, hop]
    dsimp only
    rw [if_pos hcall, hcleanup, hcaught, afterPop, if_pos hdrop]
    rfl
  have hdropped : splitsFrom [call, widen', second, widen, first] (drop :: rest) = .ok asked := by
    rw [splitsFrom, splitsAt_straight (straight_of_popz hdrop)]
    change (splitsFrom [drop, call, widen', second, widen, first] rest).bind _ = _
    have hback : splitsFrom [drop, call, widen', second, widen, first] rest = .ok asked := hrest
    rw [hback]
    rfl
  change splitsFrom [] ([first, widen, second, widen'] ++ call :: drop :: rest) = _
  rw [splitsFrom_straight hplain, splitsFrom]
  change (splitsAt [widen', second, widen, first] call (drop :: rest)).bind _ = _
  rw [hhere]
  change (splitsFrom [call, widen', second, widen, first] (drop :: rest)).bind _ = _
  rw [hdropped]
  rfl

/-- The end of a finally body asks for a cut behind it. -/
theorem splitsFrom_finish {finish before rest : List Instr} {asked : List Nat}
    (h : Drops Hook.finishFinally finish)
    (hrest : splitsFrom (finish.reverse ++ before) rest = .ok asked) :
    splitsFrom before (finish ++ rest) = .ok (endFrom 0 finish :: asked) := by
  cases h with | mk hcall hdrop =>
  rename_i call drop
  have hop : call.opcode = .call ∧ call.functionName? = some Hook.finishFinally := by
    simpa [Instr.isCallTo] using hcall
  have hother : call.isCallTo Hook.try_ = false := by
    rw [Instr.isCallTo, hop.1, hop.2]
    decide
  have hhere : splitsAt before call (drop :: rest) = .ok [drop.endAddress] := by
    rw [splitsAt, hop.1]
    dsimp only
    rw [hother, if_neg Bool.false_ne_true, if_pos hcall, afterPop, if_pos hdrop]
  have hdropped : splitsFrom (call :: before) (drop :: rest) = .ok asked := by
    rw [splitsFrom, splitsAt_straight (straight_of_popz hdrop)]
    have hback : splitsFrom (drop :: call :: before) rest = .ok asked := hrest
    rw [hback]
    rfl
  change splitsFrom before (call :: drop :: rest) = _
  rw [splitsFrom, hhere, hdropped]
  rfl

/-! ## The blocks -/

theorem endFrom_of_ne_nil {is : List Instr} (h : is ≠ []) (a b : Nat) :
    endFrom a is = endFrom b is := by
  obtain ⟨i, rest, rfl⟩ := List.exists_cons_of_ne_nil h
  rfl

namespace Parts

variable {p : Parts} {layout : Layout} {name : String} {code : CodeEntry}

theorem code_cells (p : Parts) (layout : Layout) : p.instrs layout = Cell.code (p.cells layout) := by
  cases layout <;> simp [instrs, cells, Cell.code, Cell.instrs]

/-- The numbers of the blocks whose starts the code asks for. -/
def asks : Layout → List Nat
  | .catchFirst => [1, 3, 2, 3, 2, 3, 3, 4, 5]
  | .finallyFirst => [1, 2, 4, 2, 2, 3, 5, 4, 2, 5, 6]

theorem startOf_one : startOf (p.cells layout) 1 = endFrom 0 p.hook := by
  cases layout <;> simp [startOf, cells, Cell.code, Cell.instrs]

theorem startOf_caught : startOf (p.cells layout) (caughtCell layout) = p.caughtStart layout := by
  cases layout with
  | catchFirst => exact (endAddress_closing (j := 1) rfl rfl).symm
  | finallyFirst => exact (endAddress_closing (j := 3) rfl rfl).symm

theorem startOf_cleanup : startOf (p.cells layout) (cleanupCell layout) = p.cleanupStart layout := by
  cases layout with
  | catchFirst => exact (endAddress_closing (j := 2) rfl rfl).symm
  | finallyFirst => exact (endAddress_closing (j := 1) rfl rfl).symm

theorem startOf_length :
    startOf (p.cells layout) (exitCell layout + 1) = p.exit.endAddress := by
  cases layout with
  | catchFirst => exact (endAddress_closing (j := 4) rfl rfl).symm
  | finallyFirst => exact (endAddress_closing (j := 5) rfl rfl).symm

theorem startOf_finish (h : p.finish ≠ []) :
    startOf (p.cells layout) (cleanupCell layout + 1) = endFrom 0 p.finish := by
  have hcell : (p.cells layout)[cleanupCell layout]? =
      some ⟨p.cleanup ++ p.finish, none, [cleanupCell layout + 1]⟩ := by
    cases layout <;> rfl
  rw [startOf_succ hcell, Cell.instrs, Option.toList_none, List.append_nil, endFrom_append]
  exact endFrom_of_ne_nil h _ _

theorem startOf_exit (hc : Contiguous 0 (Cell.code (p.cells layout))) :
    startOf (p.cells layout) (exitCell layout) = p.exit.address := by
  cases layout with
  | catchFirst => exact startOf_eq_address (j := 4) hc rfl rfl
  | finallyFirst => exact startOf_eq_address (j := 5) hc rfl rfl

namespace Fits

variable (h : p.Fits layout name) (hplain : ∀ i ∈ p.body ++ p.caught ++ p.cleanup, i.Straight)
include h hplain

/-- The code asks for the starts of its blocks. -/
theorem splitsFrom_instrs (hc : Contiguous 0 (Cell.code (p.cells layout))) :
    splitsFrom [] (p.instrs layout) = .ok ((asks layout).map (startOf (p.cells layout))) := by
  have hbody : ∀ i ∈ p.body, i.Straight := fun i hi => hplain i (by simp [hi])
  have hcaught : ∀ i ∈ p.caught, i.Straight := fun i hi => hplain i (by simp [hi])
  have hcleanup : ∀ i ∈ p.cleanup, i.Straight := fun i hi => hplain i (by simp [hi])
  cases layout with
  | catchFirst =>
    have hcleaned : ∀ before, splitsFrom before (p.cleanup ++ (p.finish ++ [p.exit])) =
        .ok [endFrom 0 p.finish, p.exit.endAddress] := by
      intro before
      rw [splitsFrom_straight hcleanup]
      exact splitsFrom_finish h.finishes (splitsFrom_exit h.exits)
    have hhandled : ∀ before, splitsFrom before (p.opening ++ (p.caught ++
        (p.leave :: (p.cleanup ++ (p.finish ++ [p.exit]))))) =
          .ok [p.leave.endAddress, p.leave.endAddress, endFrom 0 p.finish, p.exit.endAddress] := by
      intro before
      rw [splitsFrom_straight h.opens.straight, splitsFrom_straight hcaught]
      exact splitsFrom_jump h.leaves.1 h.leaves.2 (hcleaned _)
    have htried : ∀ before, splitsFrom before (p.body ++ (p.unhook ++ (p.jump :: (p.opening ++
        (p.caught ++ (p.leave :: (p.cleanup ++ (p.finish ++ [p.exit])))))))) =
          .ok [p.leave.endAddress, p.jump.endAddress, p.leave.endAddress, p.leave.endAddress,
            endFrom 0 p.finish, p.exit.endAddress] := by
      intro before
      rw [splitsFrom_straight hbody, splitsFrom_straight h.unhooks.straight]
      exact splitsFrom_jump h.jumps.1 h.jumps.2 (hhandled _)
    have hone : startOf (p.cells .catchFirst) 1 = endFrom 0 p.hook := startOf_one
    have htwo : startOf (p.cells .catchFirst) 2 = p.jump.endAddress := startOf_caught
    have hthree : startOf (p.cells .catchFirst) 3 = p.leave.endAddress := startOf_cleanup
    have hfour : startOf (p.cells .catchFirst) 4 = endFrom 0 p.finish :=
      startOf_finish h.finishes.ne_nil
    have hfive : startOf (p.cells .catchFirst) 5 = p.exit.endAddress := startOf_length
    simp only [instrs, List.append_assoc, List.cons_append, List.nil_append]
    rw [splitsFrom_sets h.sets (htried _)]
    simp only [asks, List.map_cons, List.map_nil, hone, htwo, hthree, hfour, hfive]
    rfl
  | finallyFirst =>
    have hskip := h.skips rfl
    have hhandled : ∀ before, splitsFrom before (p.opening ++ (p.caught ++ [p.leave, p.exit])) =
        .ok [p.jump.endAddress, p.leave.endAddress, p.exit.endAddress] := by
      intro before
      rw [splitsFrom_straight h.opens.straight, splitsFrom_straight hcaught]
      exact splitsFrom_jump h.leaves.1 h.leaves.2 (splitsFrom_exit h.exits)
    have hcleaned : ∀ before, splitsFrom before (p.cleanup ++ (p.finish ++ (p.skip :: (p.opening ++
        (p.caught ++ [p.leave, p.exit]))))) =
          .ok [endFrom 0 p.finish, p.exit.address, p.skip.endAddress, p.jump.endAddress,
            p.leave.endAddress, p.exit.endAddress] := by
      intro before
      rw [splitsFrom_straight hcleanup]
      exact splitsFrom_finish h.finishes (splitsFrom_jump hskip.1 hskip.2 (hhandled _))
    have htried : ∀ before, splitsFrom before (p.body ++ (p.unhook ++ (p.jump :: (p.cleanup ++
        (p.finish ++ (p.skip :: (p.opening ++ (p.caught ++ [p.leave, p.exit])))))))) =
          .ok [p.jump.endAddress, p.jump.endAddress, endFrom 0 p.finish, p.exit.address,
            p.skip.endAddress, p.jump.endAddress, p.leave.endAddress, p.exit.endAddress] := by
      intro before
      rw [splitsFrom_straight hbody, splitsFrom_straight h.unhooks.straight]
      exact splitsFrom_jump h.jumps.1 h.jumps.2 (hcleaned _)
    have hone : startOf (p.cells .finallyFirst) 1 = endFrom 0 p.hook := startOf_one
    have htwo : startOf (p.cells .finallyFirst) 2 = p.jump.endAddress := startOf_cleanup
    have hthree : startOf (p.cells .finallyFirst) 3 = endFrom 0 p.finish :=
      startOf_finish h.finishes.ne_nil
    have hfour : startOf (p.cells .finallyFirst) 4 = p.skip.endAddress := startOf_caught
    have hfive : startOf (p.cells .finallyFirst) 5 = p.exit.address := startOf_exit hc
    have hsix : startOf (p.cells .finallyFirst) 6 = p.exit.endAddress := startOf_length
    have hleave : p.leave.endAddress = p.exit.address :=
      (endAddress_closing (j := 4) rfl rfl).trans hfive
    simp only [instrs, List.append_assoc, List.cons_append, List.nil_append]
    rw [splitsFrom_sets h.sets (htried _)]
    simp only [asks, List.map_cons, List.map_nil, hone, htwo, hthree, hfour, hfive, hsix, hleave]
    rfl

omit hplain in
/-- What is not one of the bodies stands around them, and neither ends a block nor is extended. -/
theorem straight_cells : ∀ c ∈ p.cells layout, ∀ i ∈ c.straight,
    i ∈ p.body ++ p.caught ++ p.cleanup ∨ i.endsBlock = false ∧ i.opcode ≠ .extended := by
  intro c hc i hi
  have hparts : i ∈ p.hook ∨ i ∈ p.unhook ∨ i ∈ p.opening ∨ i ∈ p.finish ∨
      i ∈ p.body ++ p.caught ++ p.cleanup := by
    cases layout <;>
    · simp only [cells, List.mem_cons, List.not_mem_nil, or_false] at hc
      rcases hc with rfl | rfl | rfl | rfl | rfl | rfl <;>
      · simp only [List.mem_append] at hi ⊢
        first
          | exact absurd hi List.not_mem_nil
          | tauto
  rcases hparts with hi | hi | hi | hi | hi
  · exact .inr (plain_of_sets h.sets i hi)
  · exact .inr (plain_of_drops h.unhooks i hi)
  · exact .inr (plain_of_opens h.opens i hi)
  · exact .inr (plain_of_drops h.finishes i hi)
  · exact .inl hi

/-- The code of a block goes on to its end. -/
theorem endsBlock_cells : ∀ c ∈ p.cells layout, ∀ i ∈ c.straight, i.endsBlock = false :=
  fun c hc i hi => (h.straight_cells c hc i hi).elim (fun hi => (hplain i hi).endsBlock) And.left

omit hplain in
theorem instrs_ne_nil : ∀ c ∈ p.cells layout, c.instrs ≠ [] := by
  intro c hc
  have hhook : p.hook ≠ [] := by
    have hsets := h.sets
    intro he
    rw [he] at hsets
    cases hsets
  have hfinish := h.finishes.ne_nil
  cases layout <;>
  · simp only [cells, List.mem_cons, List.not_mem_nil, or_false] at hc
    rcases hc with rfl | rfl | rfl | rfl | rfl | rfl <;> simp [Cell.instrs, hhook, hfinish]

omit hplain in
/-- Where a block leads. -/
theorem leads_cells (hc : Contiguous 0 (Cell.code (p.cells layout))) :
    EachFrom (fun j c => (c.closing = none → c.nexts = [j + 1]) ∧
      (c.closing.isSome = true → Ends (p.cells layout) j c) ∧
      ∀ k ∈ c.nexts, k ≤ (p.cells layout).length) 0 (p.cells layout) := by
  have hcleanup : startOf (p.cells layout) (cleanupCell layout) = p.cleanupStart layout :=
    startOf_cleanup
  have hexit := startOf_exit hc
  cases layout with
  | catchFirst =>
    refine ⟨⟨fun _ => rfl, nofun, by simp [cells]⟩, ⟨nofun, fun _ => ?_, by simp [cells]⟩,
      ⟨nofun, fun _ => ?_, by simp [cells]⟩, ⟨fun _ => rfl, nofun, by simp [cells]⟩,
      ⟨nofun, fun _ => ends_exit rfl h.exits rfl, by simp⟩, trivial⟩
    · exact ends_jump rfl h.jumps.1 (by rw [h.jumps.2, ← hcleanup]; rfl) rfl
    · exact ends_jump rfl h.leaves.1 (by rw [h.leaves.2, ← hcleanup]; rfl) rfl
  | finallyFirst =>
    have hskip := h.skips rfl
    refine ⟨⟨fun _ => rfl, nofun, by simp [cells]⟩, ⟨nofun, fun _ => ?_, by simp [cells]⟩,
      ⟨fun _ => rfl, nofun, by simp [cells]⟩, ⟨nofun, fun _ => ?_, by simp [cells]⟩,
      ⟨nofun, fun _ => ?_, by simp [cells]⟩, ⟨nofun, fun _ => ends_exit rfl h.exits rfl, by simp⟩,
      trivial⟩
    · exact ends_jump rfl h.jumps.1 (by rw [h.jumps.2, ← hcleanup]; rfl) rfl
    · exact ends_jump rfl hskip.1 (by rw [hskip.2, ← hexit]; rfl) rfl
    · exact ends_jump rfl h.leaves.1 (by rw [h.leaves.2, ← hcleanup]; rfl) rfl

/-- The code of a handler is cut into the blocks of its layout. -/
theorem sketches (hcode : code.Single) (hinstrs : code.instrs = p.instrs layout) :
    Sketches (p.cells layout) code := by
  have hcells : code.instrs = Cell.code (p.cells layout) := hinstrs.trans (code_cells p layout)
  have hc : Contiguous 0 (Cell.code (p.cells layout)) := hcells ▸ hcode.contiguous
  have hleads := h.leads_cells hc
  have hfilled := h.instrs_ne_nil
  have hasked := h.splitsFrom_instrs hplain hc
  refine ⟨hcells, hcode.contiguous, hcode.length, hcode.alone, hfilled,
    ⟨_, hinstrs ▸ hasked, fun a ha => ?_, fun k hpos hk => List.mem_map_of_mem ?_⟩,
    fun j c hj n hn hstop => ?_, fun c hc k hk => ?_⟩
  · obtain ⟨k, hk, rfl⟩ := List.mem_map.mp ha
    refine ⟨k, ?_, rfl⟩
    cases layout <;> simp [asks, cells] at hk ⊢ <;> omega
  · cases layout <;> simp [asks, cells] at hk ⊢ <;> omega
  · obtain ⟨hopen, hclosed, -⟩ := hleads.getElem? j c hj
    refine exits_eq hj (hfilled c (List.mem_of_getElem? hj))
      (h.endsBlock_cells hplain c (List.mem_of_getElem? hj)) hopen (fun i hi => ?_) hn hstop
    have hend := hclosed (by rw [hi]; rfl)
    rw [Ends, hi] at hend
    exact ⟨hend.2.1, hend.2.2.1⟩
  · obtain ⟨j, hj⟩ := List.getElem?_of_mem hc
    exact (hleads.getElem? j c hj).2.2 k hk

end Fits

end Parts

end TryCatch

end GmlLift
