import GmlLift.Proofs.Flow.Planted
import GmlLift.Proofs.Flow.SwitchFold

/-! # The layout of a switch and where its end is found

A switch is laid out as tests, the jump past them, the code of its cases and its default, and the
`popz` that discards the value. That `popz` is taken for the end unless what stands behind it looks
like a way out of the switch. -/
namespace GmlLift

open GmlLift.Graph Cell

namespace Switch

/-- The code of a case or of the default, and the jump behind it that leaves the switch. -/
structure Section where
  body : List Instr
  leave : Option Instr := none

def Section.instrs (c : Section) : List Instr := c.body ++ c.leave.toList

/-- A jump over some code to other code. -/
structure Detour where
  jump : Instr
  skipped : List Instr
  landing : List Instr

/-- What stands behind a switch: straight code, a jump ahead, the end of the entry. -/
structure Continuation where
  straight : List Instr
  detour : Option Detour := none
  leave : Option Instr := none

def Continuation.instrs (r : Continuation) : List Instr :=
  r.straight ++ (r.detour.map fun d => d.jump :: d.skipped ++ d.landing).getD [] ++ r.leave.toList

/-- The code of a switch and what stands behind it. The sections are those of the cases in order, and
that of the default if there is one. -/
structure Layout where
  value : List Instr
  first : Test
  more : List Test
  jump : Instr
  sections : List Section
  pop : Instr
  rest : Continuation

namespace Layout

variable (s : Layout)

def tests : List Test := s.first :: s.more

/-- The value, the tests and the jump past them. -/
def front : List Instr := s.value ++ s.tests.flatMap Test.instrs ++ [s.jump]

/-- The code up to a section. -/
def upTo (k : Nat) : List Instr := s.front ++ (s.sections.take k).flatMap Section.instrs

/-- Where a section starts. The number after the last one is that of the end. -/
def label (k : Nat) : Nat := endFrom 0 (s.upTo k)

def instrs : List Instr := s.upTo s.sections.length ++ s.pop :: s.rest.instrs

/-- The code is that of a switch: each test leads to its case, the jump past them to the default or
the end, and straight code that leaves the stack as it was stands in between. -/
structure Fits : Prop where
  value : ∀ i ∈ s.value, i.Straight
  tests : ∀ (k : Nat) (t : Test), s.tests[k]? = some t → t.Leads (s.label k)
  jump : s.jump.opcode = .b ∧ s.jump.target? = some (s.label s.tests.length)
  count : s.sections.length = s.tests.length ∨ s.sections.length = s.tests.length + 1
  bodies : ∀ c ∈ s.sections, (∀ i ∈ c.body, i.Straight) ∧ Balances 0 c.body
  leaves : ∀ c ∈ s.sections, ∀ i, c.leave = some i →
    i.opcode = .b ∧ i.target? = some (s.label s.sections.length)
  pop : s.pop.opcode = .popz
  straight : ∀ i ∈ s.rest.straight, i.Straight
  detour : ∀ d, s.rest.detour = some d → d.jump.opcode = .b ∧ d.jump.target? = some (endFrom 0
    (s.upTo s.sections.length ++ s.pop :: s.rest.straight ++ d.jump :: d.skipped)) ∧
    (∀ i ∈ d.skipped, i.Straight) ∧ ∀ i ∈ d.landing, i.Straight
  leave : ∀ i, s.rest.leave = some i → i.opcode = .exit ∨ i.opcode = .ret

end Layout

/-- The code behind a `popz` is that of an early way out of a switch: it jumps at once, or returns a
value that was saved. -/
def Continuation.LeavesAtOnce (r : Continuation) : Prop :=
  (∃ jump more, r.instrs = jump :: more ∧ jump.opcode = .b) ∨
    ∃ push ret, r.instrs = [push, ret] ∧ isSavedReturn push ret = true

/-! ## The blocks -/

theorem Test.Leads.straight {t : Test} {target : Nat} (h : t.Leads target) :
    ∀ i ∈ t.front, i.Straight := by
  have hstraight (i : Instr) (hends : i.endsBlock = false) (hop : i.opcode ≠ .call) : i.Straight :=
    ⟨hends, by simp [Instr.isCallTo, hop], by simp [Instr.isCallTo, hop]⟩
  intro i hi
  simp only [Test.front, List.mem_cons, List.not_mem_nil, or_false] at hi
  rcases hi with rfl | rfl | rfl
  · exact hstraight _ (by simp [Instr.endsBlock, h.copy]) (by simp [h.copy])
  · have hkey := h.key
    refine hstraight _ ?_ fun hop => ?_
    · unfold Instr.endsBlock
      split <;> first | rfl | (rename_i hop; rw [hop] at hkey; cases hkey)
    · rw [hop] at hkey
      cases hkey
  · exact hstraight _ (by simp [Instr.endsBlock, h.compare]) (by simp [h.compare])

namespace Layout

section

variable (s : Layout)

def testCell (before : List Instr) (t : Test) : Cell := ⟨before ++ t.front, some t.jump, []⟩

/-- The blocks of the tests and that of the jump past them. -/
def heads : List Cell :=
  testCell s.value s.first :: (s.more.map (testCell []) ++ [⟨[], some s.jump, []⟩])

/-- How many sections have blocks apart from that of the end: all of them if one leaves for the end,
and otherwise the cases, as then nothing tells where the default ends. -/
def apart : Nat :=
  if s.sections.any fun c => c.leave.isSome then s.sections.length else s.tests.length

def bodies : List Cell := (s.sections.take s.apart).map fun c => ⟨c.body, c.leave, []⟩

/-- What stands before the end in one block with it. -/
def lead : List Instr := (s.sections.drop s.apart).flatMap Section.body

/-- The block that holds the end, and the blocks behind it. -/
def ends : List Cell := match s.rest.detour with
  | none => [⟨s.lead ++ s.pop :: s.rest.straight, s.rest.leave, []⟩]
  | some d => [⟨s.lead ++ s.pop :: s.rest.straight, some d.jump, []⟩, ⟨d.skipped, none, []⟩,
      ⟨d.landing, s.rest.leave, []⟩]

def parts : List Cell := s.heads ++ (s.bodies ++ s.ends)

theorem heads_length : s.heads.length = s.tests.length + 1 := by simp [heads, tests]

theorem heads_test {k : Nat} {t : Test} (ht : s.tests[k]? = some t) :
    s.heads[k]? = some (testCell (if k = 0 then s.value else []) t) := by
  cases k with
  | zero =>
    cases ht
    rfl
  | succ k =>
    have ht : s.more[k]? = some t := ht
    obtain ⟨hk, -⟩ := List.getElem?_eq_some_iff.mp ht
    rw [heads, List.getElem?_cons_succ, List.getElem?_append_left (by simpa using hk),
      List.getElem?_map, ht]
    rfl

theorem heads_jump : s.heads[s.tests.length]? = some ⟨[], some s.jump, []⟩ := by
  simp [heads, tests]

theorem code_heads : Cell.code s.heads = s.front := by
  have hmore : (s.more.map (testCell [])).flatMap Cell.instrs = s.more.flatMap Test.instrs := by
    rw [List.flatMap_map]
    rfl
  simp [heads, front, tests, Cell.code, testCell, Cell.instrs, Test.instrs, hmore]

theorem code_bodies_take {k : Nat} (hk : k ≤ s.apart) :
    Cell.code (s.bodies.take k) = (s.sections.take k).flatMap Section.instrs := by
  rw [Cell.code, bodies, ← List.map_take, List.take_take, Nat.min_eq_left hk, List.flatMap_map]
  rfl

theorem code_bodies : Cell.code s.bodies = (s.sections.take s.apart).flatMap Section.instrs := by
  rw [Cell.code, bodies, List.flatMap_map]
  rfl

theorem code_ends : Cell.code s.ends = s.lead ++ s.pop :: s.rest.instrs := by
  unfold ends Continuation.instrs
  cases s.rest.detour with
  | none => simp [Cell.code, Cell.instrs]
  | some d => simp [Cell.code, Cell.instrs]

/-- Either no section leaves for the end, or all have blocks of their own. -/
theorem apart_cases : (s.apart = s.tests.length ∧ ∀ c ∈ s.sections, c.leave = none) ∨
    s.apart = s.sections.length ∧ ∃ c ∈ s.sections, ∃ i, c.leave = some i := by
  unfold apart
  split
  · rename_i hany
    obtain ⟨c, hc, hleave⟩ := List.any_eq_true.mp hany
    exact .inr ⟨rfl, c, hc, Option.isSome_iff_exists.mp hleave⟩
  · rename_i hany
    refine .inl ⟨rfl, fun c hc => ?_⟩
    have hno : ¬ c.leave.isSome = true := fun h => hany (List.any_eq_true.mpr ⟨c, hc, h⟩)
    simpa using hno

theorem flatMap_lead : (s.sections.drop s.apart).flatMap Section.instrs = s.lead := by
  refine List.flatMap_congr fun c hc => ?_
  rcases s.apart_cases with ⟨-, hnone⟩ | ⟨hall, -⟩
  · rw [Section.instrs, hnone c (List.mem_of_mem_drop hc)]
    exact List.append_nil _
  · rw [hall, List.drop_length] at hc
    cases hc

theorem upTo_length : s.upTo s.sections.length = s.upTo s.apart ++ s.lead := by
  rw [upTo, List.take_length, upTo, List.append_assoc, ← flatMap_lead,
    ← List.flatMap_append, List.take_append_drop]

theorem code_parts : Cell.code s.parts = s.instrs := by
  rw [parts, Cell.code, List.flatMap_append, List.flatMap_append]
  change Cell.code s.heads ++ (Cell.code s.bodies ++ Cell.code s.ends) = _
  rw [code_heads, code_bodies, code_ends, instrs, upTo_length, upTo]
  simp

/-- The block that the end of the switch stands in. -/
def endCell : Cell :=
  ⟨s.lead ++ s.pop :: s.rest.straight, (s.rest.detour.map Detour.jump).or s.rest.leave, []⟩

theorem ends_none (hd : s.rest.detour = none) : s.ends = [s.endCell] := by
  rw [ends, endCell, hd]
  rfl

theorem ends_some {d : Detour} (hd : s.rest.detour = some d) :
    s.ends = [s.endCell, ⟨d.skipped, none, []⟩, ⟨d.landing, s.rest.leave, []⟩] := by
  rw [ends, endCell, hd]
  rfl

theorem code_upTo_apart : Cell.code (s.heads ++ s.bodies) = s.upTo s.apart := by
  rw [Cell.code, List.flatMap_append]
  change Cell.code s.heads ++ Cell.code s.bodies = _
  rw [code_heads, code_bodies, upTo]

theorem code_upTo_landing {d : Detour} (hd : s.rest.detour = some d) :
    Cell.code (s.heads ++ s.bodies ++ [s.endCell, ⟨d.skipped, none, []⟩]) =
      s.upTo s.sections.length ++ s.pop :: s.rest.straight ++ d.jump :: d.skipped := by
  rw [Cell.code, List.flatMap_append]
  change Cell.code (s.heads ++ s.bodies) ++ _ = _
  rw [code_upTo_apart, upTo_length]
  simp [endCell, hd, Cell.instrs]

end

section

variable {s : Layout} (h : s.Fits)
include h

theorem apart_bounds : s.tests.length ≤ s.apart ∧ s.apart ≤ s.sections.length := by
  have hcount := h.count
  rcases s.apart_cases with ⟨he, -⟩ | ⟨he, -⟩ <;> omega

theorem closing_heads {c : Cell} (hc : c ∈ s.heads) : (∀ i ∈ c.straight, i.Straight) ∧
    ∃ i k, c.closing = some i ∧ k ≤ s.tests.length ∧ (i.opcode = .b ∨ i.opcode = .bt) ∧
      i.target? = some (s.label k) := by
  have htest (before : List Instr) (hbefore : ∀ i ∈ before, i.Straight) (t : Test)
      (ht : t ∈ s.tests) : (∀ i ∈ (testCell before t).straight, i.Straight) ∧
      ∃ i k, (testCell before t).closing = some i ∧ k ≤ s.tests.length ∧
        (i.opcode = .b ∨ i.opcode = .bt) ∧ i.target? = some (s.label k) := by
    obtain ⟨k, hk⟩ := List.getElem?_of_mem ht
    obtain ⟨hlt, -⟩ := List.getElem?_eq_some_iff.mp hk
    have hleads := h.tests k t hk
    refine ⟨fun i hi => ?_, t.jump, k, rfl, Nat.le_of_lt hlt, .inr hleads.jump.1, hleads.jump.2⟩
    exact (List.mem_append.mp hi).elim (hbefore i) (hleads.straight i)
  rcases List.mem_cons.mp hc with rfl | hc
  · exact htest s.value h.value s.first (by simp [tests])
  · rcases List.mem_append.mp hc with hc | hc
    · obtain ⟨t, ht, rfl⟩ := List.mem_map.mp hc
      exact htest [] (fun i hi => (nomatch hi)) t (by simp [tests, ht])
    · rw [List.mem_singleton.mp hc]
      exact ⟨fun i hi => (nomatch hi), s.jump, s.tests.length, rfl, Nat.le_refl _, .inl h.jump.1,
        h.jump.2⟩

/-- Every section that has blocks of its own starts where a jump leads, and so does what stands
behind the last of them. -/
theorem targeted_label {k : Nat} (hk : k ≤ s.apart) : Targeted s.parts (s.label k) := by
  have hcount := h.count
  rcases Nat.lt_trichotomy k s.tests.length with hlt | rfl | hlt
  · have ht : s.tests[k]? = some s.tests[k] := List.getElem?_eq_getElem hlt
    have hleads := h.tests k _ ht
    exact ⟨_, List.mem_append_left _ (List.mem_of_getElem? (s.heads_test ht)), _, rfl,
      by simp [Instr.jumps, hleads.jump], hleads.jump.2⟩
  · exact ⟨_, List.mem_append_left _ (List.mem_of_getElem? s.heads_jump), _, rfl,
      by simp [Instr.jumps, h.jump], h.jump.2⟩
  · rcases s.apart_cases with ⟨he, -⟩ | ⟨he, c, hc, i, hi⟩
    · omega
    · have hlast : k = s.sections.length := by omega
      obtain ⟨hop, htarget⟩ := h.leaves c hc i hi
      refine ⟨⟨c.body, c.leave, []⟩, ?_, i, hi, by simp [Instr.jumps, hop], by rw [htarget, hlast]⟩
      refine List.mem_append_right _ (List.mem_append_left _ (List.mem_map.mpr ⟨c, ?_, rfl⟩))
      rw [he, List.take_length]
      exact hc

omit h in
theorem starts_label {k : Nat} (hk : k ≤ s.apart) : Starts (filled s.parts) (s.label k) := by
  have hstart := starts_filled (s.heads ++ s.bodies.take k) (s.bodies.drop k ++ s.ends)
  rw [List.append_assoc, ← List.append_assoc (s.bodies.take k), List.take_append_drop, Cell.code,
    List.flatMap_append] at hstart
  change Starts (filled s.parts) (endFrom 0 (Cell.code s.heads ++ Cell.code (s.bodies.take k)))
    at hstart
  rwa [code_heads, code_bodies_take s hk] at hstart

theorem straight_lead : ∀ i ∈ s.lead, i.Straight := by
  intro i hi
  obtain ⟨c, hc, hi⟩ := List.mem_flatMap.mp hi
  exact (h.bodies c (List.mem_of_mem_drop hc)).1 i hi

theorem pop_straight : s.pop.Straight := by
  have hpop := h.pop
  refine ⟨by simp [Instr.endsBlock, hpop], ?_, ?_⟩ <;> simp [Instr.isCallTo, hpop]

theorem of_mem_bodies {c : Cell} (hc : c ∈ s.bodies) : (∀ i ∈ c.straight, i.Straight) ∧
    Balances 0 c.straight ∧ ∀ i, c.closing = some i →
      i.opcode = .b ∧ i.target? = some (s.label s.apart) := by
  obtain ⟨d, hd, rfl⟩ := List.mem_map.mp hc
  have hd := List.mem_of_mem_take hd
  obtain ⟨hstraight, hbalances⟩ := h.bodies d hd
  refine ⟨hstraight, hbalances, fun i hi => ?_⟩
  rcases s.apart_cases with ⟨-, hnone⟩ | ⟨hall, -⟩
  · exact absurd ((hnone d hd).symm.trans hi) (by simp)
  · rw [hall]
    exact h.leaves d hd i hi

theorem of_mem_ends {c : Cell} (hc : c ∈ s.ends) : (∀ i ∈ c.straight, i.Straight) ∧
    ∀ i, c.closing = some i → (∃ d, s.rest.detour = some d ∧ i = d.jump) ∨ s.rest.leave = some i := by
  have hend : ∀ i ∈ s.endCell.straight, i.Straight := fun i hi => by
    rcases List.mem_append.mp hi with hi | hi
    · exact straight_lead h i hi
    · rcases List.mem_cons.mp hi with rfl | hi
      · exact pop_straight h
      · exact h.straight i hi
  cases hd : s.rest.detour with
  | none =>
    rw [s.ends_none hd] at hc
    rw [List.mem_singleton.mp hc]
    refine ⟨hend, fun i hi => .inr ?_⟩
    rw [endCell, hd] at hi
    exact hi
  | some d =>
    obtain ⟨-, -, hskipped, hlanding⟩ := h.detour d hd
    simp only [s.ends_some hd, List.mem_cons, List.not_mem_nil, or_false] at hc
    rcases hc with rfl | rfl | rfl
    · refine ⟨hend, fun i hi => .inl ⟨d, rfl, ?_⟩⟩
      rw [endCell, hd] at hi
      exact (Option.some.inj hi).symm
    · exact ⟨hskipped, fun i hi => (nomatch hi)⟩
    · exact ⟨hlanding, fun i hi => .inr hi⟩

theorem closes_parts {c : Cell} (hc : c ∈ s.parts) {i : Instr} (hi : c.closing = some i) :
    Closes s.parts i := by
  obtain ⟨hlow, hhigh⟩ := apart_bounds h
  rcases List.mem_append.mp hc with hc | hc
  · obtain ⟨-, j, k, hj, hk, hop, htarget⟩ := closing_heads h hc
    cases hj.symm.trans hi
    exact closes_jump hop htarget (starts_label (Nat.le_trans hk hlow))
  rcases List.mem_append.mp hc with hc | hc
  · obtain ⟨hop, htarget⟩ := (of_mem_bodies h hc).2.2 i hi
    exact closes_jump (.inl hop) htarget (starts_label (Nat.le_refl _))
  · rcases (of_mem_ends h hc).2 i hi with ⟨d, hd, rfl⟩ | hleave
    · obtain ⟨hop, htarget, -⟩ := h.detour d hd
      have hstart := starts_filled (s.heads ++ s.bodies ++ [s.endCell, ⟨d.skipped, none, []⟩])
        [⟨d.landing, s.rest.leave, []⟩]
      rw [s.code_upTo_landing hd] at hstart
      refine closes_jump (.inl hop) htarget ?_
      rw [parts, s.ends_some hd, ← List.append_assoc]
      rwa [List.append_assoc _ [s.endCell, _]] at hstart
    · exact closes_leave (h.leave i hleave)

theorem opens_parts : EachAfter (Opens s.parts) [] s.parts := by
  have hheads : EachAfter (Opens s.parts) [] s.heads :=
    eachAfter_of_getElem? fun j c hj hnone => by
      obtain ⟨-, i, k, hi, -⟩ := closing_heads h (List.mem_of_getElem? hj)
      exact absurd (hi.symm.trans hnone) (by simp)
  have hbodies : EachAfter (Opens s.parts) (Cell.code s.heads) s.bodies :=
    eachAfter_of_getElem? fun j c hj _ => by
      have hlen : s.bodies.length = s.apart := by
        rw [bodies, List.length_map, List.length_take, Nat.min_eq_left (apart_bounds h).2]
      obtain ⟨hlt, -⟩ := List.getElem?_eq_some_iff.mp hj
      have hstep : Cell.code (s.bodies.take (j + 1)) = Cell.code (s.bodies.take j) ++ c.instrs := by
        rw [List.take_add_one, hj, Cell.code, List.flatMap_append]
        exact congrArg _ (List.append_nil _)
      rw [List.append_assoc, ← hstep, code_heads, code_bodies_take s (by omega)]
      exact .inl (targeted_label h (by omega))
  have hends : EachAfter (Opens s.parts) (Cell.code s.heads ++ Cell.code s.bodies) s.ends := by
    have hall : Cell.code s.parts = Cell.code s.heads ++ Cell.code s.bodies ++ Cell.code s.ends := by
      simp [parts, Cell.code]
    cases hd : s.rest.detour with
    | none =>
      have hcode : Cell.code s.ends = s.endCell.instrs := by simp [s.ends_none hd, Cell.code]
      rw [s.ends_none hd]
      refine ⟨fun _ => .inr ?_, trivial⟩
      rw [hall, hcode]
    | some d =>
      obtain ⟨hop, htarget, -⟩ := h.detour d hd
      have hlanding := s.code_upTo_landing hd
      have hcode : Cell.code s.ends = s.endCell.instrs ++ d.skipped ++
          (d.landing ++ s.rest.leave.toList) := by
        simp [s.ends_some hd, Cell.code, Cell.instrs]
      have hjump : s.endCell.closing = some d.jump := by rw [endCell, hd]; rfl
      rw [s.ends_some hd]
      refine ⟨fun hnone => ?_, fun _ => .inl ?_, fun _ => .inr ?_, trivial⟩
      · exact absurd (hjump.symm.trans hnone) (by simp)
      · refine ⟨s.endCell, ?_, d.jump, hjump, by simp [Instr.jumps, hop], ?_⟩
        · simp [parts, s.ends_some hd]
        · rw [htarget, ← hlanding]
          simp [Cell.code, Cell.instrs]
      · rw [hall, hcode]
        simp [Cell.instrs]
  exact eachAfter_append.mpr ⟨hheads, eachAfter_append.mpr ⟨hbodies, hends⟩⟩

theorem outlines {code : CodeEntry} (hcode : code.Single) (hinstrs : code.instrs = s.instrs) :
    Outlines (resolve (filled s.parts)) code := by
  refine hcode.outlines_filled (hinstrs.trans s.code_parts.symm) (fun c hc => ?_)
    (fun c hc i hi => closes_parts h hc hi) (opens_parts h)
  rcases List.mem_append.mp hc with hc | hc
  · exact (closing_heads h hc).1
  rcases List.mem_append.mp hc with hc | hc
  · exact (of_mem_bodies h hc).1
  · exact (of_mem_ends h hc).1

end

/-! ## The candidate -/

section

variable (s : Layout)

/-- The tests after the first with where they lead. -/
def laterTests : List (Test × Nat) := (s.more.zipIdx 1).map fun (t, k) => (t, s.label k)

def candidate : Candidate where
  first := 0
  dupIndex := s.value.length
  chain := List.range' 1 s.tests.length
  cases := s.first.case (s.label 0) :: s.laterTests.map fun t => t.1.case t.2
  otherwise := s.label s.tests.length

theorem laterTests_length : s.laterTests.length + 1 = s.tests.length := by
  simp [laterTests, tests]

theorem laterTests_getElem? {k : Nat} {t : Test × Nat} (ht : s.laterTests[k]? = some t) :
    s.tests[k + 1]? = some t.1 ∧ t.2 = s.label (k + 1) := by
  rw [laterTests, List.getElem?_map, List.getElem?_zipIdx, Option.map_map] at ht
  obtain ⟨u, hu, rfl⟩ := Option.map_eq_some_iff.mp ht
  exact ⟨hu, by rw [Nat.add_comm]; rfl⟩

/-- The tests lead to the cases, and the jump past them to what follows the cases. -/
theorem exists_label {a : Nat}
    (ha : a ∈ s.candidate.cases.map Case.target ∨ a = s.candidate.otherwise) :
    ∃ k ≤ s.tests.length, a = s.label k := by
  rcases ha with ha | rfl
  · obtain ⟨c, hc, rfl⟩ := List.mem_map.mp ha
    rcases List.mem_cons.mp hc with rfl | hc
    · exact ⟨0, Nat.zero_le _, rfl⟩
    · obtain ⟨t, ht, rfl⟩ := List.mem_map.mp hc
      obtain ⟨k, hk⟩ := List.getElem?_of_mem ht
      obtain ⟨hlt, -⟩ := List.getElem?_eq_some_iff.mp hk
      have hlen := s.laterTests_length
      exact ⟨k + 1, by omega, (s.laterTests_getElem? hk).2⟩
  · exact ⟨_, Nat.le_refl _, rfl⟩

theorem filled_heads : filled s.heads = s.heads := by
  refine filled_eq_self fun c hc => ?_
  rcases List.mem_cons.mp hc with rfl | hc
  · simp [testCell, Cell.instrs]
  · rcases List.mem_append.mp hc with hc | hc
    · obtain ⟨t, -, rfl⟩ := List.mem_map.mp hc
      simp [testCell, Cell.instrs]
    · rw [List.mem_singleton.mp hc]
      simp [Cell.instrs]

theorem filled_parts : filled s.parts = s.heads ++ (filled s.bodies ++ filled s.ends) := by
  rw [parts, filled_append, filled_append, filled_heads]

theorem filled_ends : ∃ more, filled s.ends = s.endCell :: more := by
  have hend : s.endCell.instrs ≠ [] := by simp [endCell, Cell.instrs]
  cases hd : s.rest.detour with
  | none => exact ⟨[], by simp [s.ends_none hd, filled, hend]⟩
  | some d =>
    exact ⟨filled [⟨d.skipped, none, []⟩, ⟨d.landing, s.rest.leave, []⟩],
      by rw [s.ends_some hd]; simp [filled, hend]⟩

end

section

variable {s : Layout} (h : s.Fits) {g : Graph} (hg : Outlined (resolve (filled s.parts)) g)
include h hg

omit h in
theorem instrs_head {k : Nat} {c : Cell} (hc : s.heads[k]? = some c) : g.instrs k = c.instrs := by
  obtain ⟨hlt, -⟩ := List.getElem?_eq_some_iff.mp hc
  refine hg.instrs_resolve ?_
  rw [filled_parts, List.getElem?_append_left hlt, hc]

/-- Behind the tests no block ends in one. -/
theorem candidate?_later {b : Nat} (hb : s.heads.length ≤ b) : candidate? g b = none := by
  refine Switch.candidate?_eq_none fun i hi hop => ?_
  rcases Nat.lt_or_ge b (filled s.parts).length with hlt | hge
  · obtain ⟨c, hcell⟩ : ∃ c, (filled s.parts)[b]? = some c := ⟨_, List.getElem?_eq_getElem hlt⟩
    rw [Graph.lastInstr?, hg.instrs_resolve hcell] at hi
    rw [filled_parts, List.getElem?_append_right hb, ← filled_append] at hcell
    have hmem := List.mem_of_getElem? hcell
    have hmem := (mem_filled.mp hmem).1
    have hc : (∀ j ∈ c.straight, j.Straight) ∧ ∀ j, c.closing = some j → j.opcode ≠ .bt := by
      rcases List.mem_append.mp hmem with hc | hc
      · obtain ⟨hstraight, -, hcloses⟩ := of_mem_bodies h hc
        exact ⟨hstraight, fun j hj => by simp [hcloses j hj]⟩
      · obtain ⟨hstraight, hcloses⟩ := of_mem_ends h hc
        refine ⟨hstraight, fun j hj => ?_⟩
        rcases hcloses j hj with ⟨d, hd, rfl⟩ | hleave
        · simp [(h.detour d hd).1]
        · rcases h.leave j hleave with he | he <;> simp [he]
    rcases List.mem_append.mp (List.mem_of_getLast? hi) with hi | hi
    · have hends := (hc.1 i hi).endsBlock
      rw [Instr.endsBlock, hop] at hends
      cases hends
    · exact hc.2 i (Option.mem_toList.mp hi) hop
  · rw [Graph.lastInstr?, hg.instrs_of_length_le hge] at hi
    cases hi

theorem candidate?_first : candidate? g 0 = some s.candidate := by
  have hfirst : g.instrs 0 = s.value ++ s.first.instrs := by
    rw [instrs_head hg (s.heads_test (k := 0) rfl)]
    simp [testCell, Cell.instrs, Test.instrs]
  have hleads : s.first.Leads (s.label 0) := h.tests 0 s.first rfl
  have hlen := s.laterTests_length
  have htests := tests_eq (g := g) h.jump.1 h.jump.2 s.laterTests 1
    (fun t ht => by
      obtain ⟨k, hk⟩ := List.getElem?_of_mem ht
      obtain ⟨htest, htarget⟩ := s.laterTests_getElem? hk
      rw [htarget]
      exact h.tests (k + 1) t.1 htest)
    (fun k t ht => by
      rw [Nat.add_comm, instrs_head hg (s.heads_test (s.laterTests_getElem? ht).1)]
      simp [testCell, Cell.instrs, Test.instrs])
    (by
      rw [Nat.add_comm, hlen, instrs_head hg s.heads_jump]
      rfl)
  have hafter : g.blocksAfter 0 = List.range' 1 (s.laterTests.length + 1) ++
      List.range' (1 + (s.laterTests.length + 1))
        ((filled s.parts).length - (s.laterTests.length + 1)) := by
    have hheads : s.tests.length + 1 ≤ (filled s.parts).length := by
      rw [filled_parts, List.length_append, heads_length]
      omega
    rw [blocksAfter_range hg.blocks_resolve (Nat.succ_pos _), List.range'_append_1]
    congr 1
    omega
  have htests := htests (List.range' (1 + (s.laterTests.length + 1))
    ((filled s.parts).length - (s.laterTests.length + 1)))
  rw [← hafter, hlen] at htests
  have hlong : ¬ (s.value ++ s.first.instrs).length < 3 := by
    simp [Test.instrs, Test.front]
  rw [candidate?]
  simp only [hfirst, hlong, if_false, Test.lastDup?_eq hleads, Test.caseTest?_eq hleads, htests,
    Option.bind_eq_bind, Option.bind_some]
  rfl

theorem candidates_eq : candidatesIn g [] g.blocks = [s.candidate] := by
  rw [hg.blocks_resolve, List.range_eq_range', List.range'_succ, candidatesIn, candidate?_first h hg]
  refine congrArg (s.candidate :: ·) (candidatesIn_eq_nil fun b hb => ?_)
  obtain ⟨hlow, -⟩ := List.mem_range'_1.mp hb
  by_cases hb : b < s.heads.length
  · refine .inl (List.mem_append_left _ ?_)
    rw [heads_length] at hb
    exact List.mem_range'_1.mpr ⟨hlow, Nat.lt_of_lt_of_eq hb (Nat.add_comm ..)⟩
  · exact .inr (candidate?_later h hg (Nat.le_of_not_lt hb))

end

end Layout

end Switch

end GmlLift
