import GmlLift.Proofs.Flow.SwitchLayout

/-! # Where the end of a switch is found

The search for the end passes over the sections, whose code is balanced, and comes to the `popz` that
discards the value. It stops there unless the `popz` looks like that of an early way out, which is
decided by the code behind it alone. -/
namespace GmlLift

open GmlLift.Graph Cell

namespace Switch

namespace Layout

section

variable (s : Layout)

/-- What stands behind the end in one block with it. -/
def tail : List Instr := s.rest.straight ++ s.endCell.closing.toList

theorem instrs_endCell : s.endCell.instrs = s.lead ++ s.pop :: s.tail := by
  simp [Cell.instrs, endCell, tail]

theorem pop_mem_endCell : s.pop ∈ s.endCell.instrs := by
  simp [instrs_endCell]

/-- The number of the block with the end. -/
def endIndex : Nat := s.heads.length + (filled s.bodies).length

theorem parts_endIndex : (filled s.parts)[s.endIndex]? = some s.endCell := by
  obtain ⟨more, hmore⟩ := s.filled_ends
  rw [filled_parts, hmore, endIndex, ← List.append_assoc, ← List.length_append,
    List.getElem?_append_right (Nat.le_refl _), Nat.sub_self]
  rfl

theorem endIndex_lt : s.endIndex < (filled s.parts).length :=
  (List.getElem?_eq_some_iff.mp s.parts_endIndex).1

theorem startOf_endIndex : startOf (filled s.parts) s.endIndex = s.label s.apart := by
  have htake : (filled s.parts).take s.endIndex = filled (s.heads ++ s.bodies) := by
    rw [filled_parts, endIndex, ← List.append_assoc, ← List.length_append, List.take_left,
      filled_append, filled_heads]
  rw [startOf, htake, code_filled, code_upTo_apart, label]

theorem startOf_heads : startOf (filled s.parts) s.heads.length = s.label 0 := by
  rw [startOf, filled_parts, List.take_left, code_heads, label, upTo, List.take_zero,
    List.flatMap_nil, List.append_nil]

/-- A block between the tests and the end is that of a section. -/
theorem mem_bodies_of_lt {j : Nat} {c : Cell} (hj : (filled s.parts)[j]? = some c)
    (hlow : s.heads.length ≤ j) (hhigh : j < s.endIndex) : c ∈ s.bodies := by
  rw [filled_parts, List.getElem?_append_right hlow,
    List.getElem?_append_left (by rw [endIndex] at hhigh; omega)] at hj
  exact (mem_filled.mp (List.mem_of_getElem? hj)).1

end

section

variable {s : Layout} (h : s.Fits) {code : CodeEntry} (hcode : code.Single)
  (hinstrs : code.instrs = s.instrs)

include hcode hinstrs in
theorem contiguous : Contiguous 0 s.instrs := hinstrs ▸ hcode.contiguous

include hcode hinstrs in
theorem contiguous_parts : Contiguous 0 (Cell.code (filled s.parts)) := by
  rw [code_filled, code_parts]
  exact contiguous hcode hinstrs

theorem ne_nil_of_mem : ∀ c ∈ filled s.parts, c.instrs ≠ [] := fun _ hc => (mem_filled.mp hc).2

include hcode hinstrs in
theorem label_mono {j k : Nat} (hjk : j ≤ k) : s.label j ≤ s.label k := by
  have hupTo : s.upTo k = s.upTo j ++ ((s.sections.take k).drop j).flatMap Section.instrs := by
    have hsplit := List.take_append_drop j (s.sections.take k)
    rw [List.take_take, Nat.min_eq_left hjk] at hsplit
    rw [upTo, upTo, List.append_assoc, ← List.flatMap_append, hsplit]
  have hall : s.instrs = s.upTo k ++ ((s.sections.drop k).flatMap Section.instrs ++
      s.pop :: s.rest.instrs) := by
    have hsections : s.sections.flatMap Section.instrs =
        (s.sections.take k).flatMap Section.instrs ++ (s.sections.drop k).flatMap Section.instrs := by
      rw [← List.flatMap_append, List.take_append_drop]
    rw [instrs, upTo, upTo, List.take_length, hsections]
    simp only [List.append_assoc]
  have hc := contiguous hcode hinstrs
  rw [hall, hupTo, Contiguous.append, Contiguous.append] at hc
  rw [label, label, hupTo, endFrom_append]
  exact hc.1.2.le_endFrom

/-! ## One block -/

variable {g : Graph}

include h in
theorem closingPop?_body {c : Cell} (hc : c ∈ s.bodies) : closingPop? g 0 c.instrs = none := by
  obtain ⟨-, hbalances, hcloses⟩ := of_mem_bodies h hc
  have hpass := closingPop?_balances (g := g) hbalances c.closing.toList
  refine hpass.trans ?_
  cases hclosing : c.closing with
  | none => rfl
  | some i =>
    have hop : ¬ i.opcode = .popz := by simp [hcloses i hclosing]
    simp [closingPop?, hop]

include h in
theorem closingPop?_endCell : closingPop? g 0 s.endCell.instrs =
    if isEarlyDiscard g s.tail then closingPop? g (-1) s.tail else some s.pop.address := by
  have hbalances : Balances 0 s.lead :=
    Balances.flatMap fun c hc => (h.bodies c (List.mem_of_mem_drop hc)).2
  have hnet : (0 : Int) + s.pop.stackEffect.net = -1 := by
    simp [StackEffect.net, Instr.stackEffect, h.pop]
  have hpass := closingPop?_balances (g := g) hbalances (s.pop :: s.tail)
  rw [instrs_endCell]
  refine hpass.trans ?_
  rw [closingPop?, hnet]
  cases isEarlyDiscard g s.tail <;> simp [h.pop]

/-! ## The search -/

include hcode hinstrs in
/-- An instruction where the end stands is in the block with the end. -/
theorem eq_endIndex {j : Nat} {c : Cell} (hj : (filled s.parts)[j]? = some c) {i : Instr}
    (hi : i ∈ c.instrs) (ha : i.address = s.pop.address) : j = s.endIndex := by
  have hc := contiguous_parts hcode hinstrs
  have hbounds := (contiguous_cell hc hj).bounds hi
  have hends := (contiguous_cell hc s.parts_endIndex).bounds s.pop_mem_endCell
  rw [← startOf_succ hj, ha] at hbounds
  rw [← startOf_succ s.parts_endIndex] at hends
  obtain ⟨hlt, -⟩ := List.getElem?_eq_some_iff.mp hj
  have hmono (a b : Nat) (hab : a < b) (hb : b ≤ (filled s.parts).length) :
      startOf (filled s.parts) (a + 1) ≤ startOf (filled s.parts) b := by
    rcases Nat.lt_or_eq_of_le (Nat.succ_le_of_lt hab) with hlt | rfl
    · exact Nat.le_of_lt (startOf_lt hc ne_nil_of_mem hlt hb)
    · exact Nat.le_refl _
  rcases Nat.lt_trichotomy j s.endIndex with hlow | he | hhigh
  · have := hmono j s.endIndex hlow (Nat.le_of_lt s.endIndex_lt)
    omega
  · exact he
  · have := hmono s.endIndex j hhigh (Nat.le_of_lt hlt)
    omega

theorem endAt?_nil (start : Nat) : endAt? g [] start =
    (g.blocks.filter fun b => start ≤ (g.node b).start).findSome? fun b =>
      (closingPop? g 0 (g.instrs b)).map (b, ·) := by
  simp [endAt?, Folded.covers]

variable (hg : Outlined (resolve (filled s.parts)) g)
include h hcode hinstrs hg

/-- The end is found if what stands behind it does not look like a way out. -/
theorem endAt?_eq (hearly : isEarlyDiscard g s.tail = false) :
    endAt? g [] (s.label s.tests.length) = some (s.endIndex, s.pop.address) := by
  have hlt := s.endIndex_lt
  obtain ⟨hlow, -⟩ := apart_bounds h
  have hend : closingPop? g 0 (g.instrs s.endIndex) = some s.pop.address := by
    rw [hg.instrs_resolve s.parts_endIndex, closingPop?_endCell h, hearly]
    rfl
  have hstart : decide (s.label s.tests.length ≤ (g.node s.endIndex).start) = true := by
    rw [hg.start_resolve (Nat.le_of_lt hlt), startOf_endIndex, decide_eq_true_iff]
    exact label_mono hcode hinstrs hlow
  have hbefore : ((List.range s.endIndex).filter fun b =>
      decide (s.label s.tests.length ≤ (g.node b).start)).findSome? (fun b =>
        (closingPop? g 0 (g.instrs b)).map (b, ·)) = none := by
    refine List.findSome?_eq_none_iff.mpr fun b hb => ?_
    obtain ⟨hb, hlabel⟩ := List.mem_filter.mp hb
    have hb : b < s.endIndex := List.mem_range.mp hb
    obtain ⟨c, hc⟩ : ∃ c, (filled s.parts)[b]? = some c :=
      ⟨_, List.getElem?_eq_getElem (Nat.lt_trans hb hlt)⟩
    rw [hg.start_resolve (Nat.le_of_lt (Nat.lt_trans hb hlt)), decide_eq_true_iff] at hlabel
    have hlabels := label_mono hcode hinstrs (Nat.zero_le s.tests.length)
    have hheads : s.heads.length ≤ b := by
      refine Nat.le_of_not_lt fun hhead => ?_
      have hlt' := startOf_lt (contiguous_parts hcode hinstrs) ne_nil_of_mem hhead
        (by rw [endIndex] at hlt; omega)
      rw [startOf_heads] at hlt'
      omega
    rw [hg.instrs_resolve hc, closingPop?_body h (s.mem_bodies_of_lt hc hheads hb)]
    rfl
  rw [endAt?_nil, hg.blocks_resolve, range_split (Nat.lt_succ_of_lt hlt), List.filter_append,
    List.findSome?_append, hbefore, Option.none_or, List.filter_cons, if_pos hstart,
    List.findSome?_cons, hend]
  rfl

/-- Whatever is found for the end, it is not the end unless what stands behind the end does not look
like a way out. -/
theorem isEarlyDiscard_of_endAt? {start : Nat} {b : NodeId}
    (hfound : endAt? g [] start = some (b, s.pop.address)) : isEarlyDiscard g s.tail = false := by
  rw [endAt?_nil] at hfound
  obtain ⟨b', -, hb⟩ := List.exists_of_findSome?_eq_some hfound
  obtain ⟨a, hpop, he⟩ := Option.map_eq_some_iff.mp hb
  cases he
  have hlt : b < (filled s.parts).length := by
    refine Nat.lt_of_not_le fun hge => ?_
    rw [hg.instrs_of_length_le hge] at hpop
    cases hpop
  obtain ⟨c, hc⟩ : ∃ c, (filled s.parts)[b]? = some c := ⟨_, List.getElem?_eq_getElem hlt⟩
  rw [hg.instrs_resolve hc] at hpop
  obtain ⟨before, i, rest, his, ha, -⟩ := closingPop?_spec hpop
  have he := eq_endIndex hcode hinstrs hc (by simp [his]) ha
  rw [he, s.parts_endIndex] at hc
  cases hc
  rw [closingPop?_endCell h] at hpop
  cases hearly : isEarlyDiscard g s.tail with
  | false => rfl
  | true =>
    rw [hearly, if_pos rfl] at hpop
    obtain ⟨before, j, rest, htail, hj, -⟩ := closingPop?_spec hpop
    have hpairs := (contiguous_cell (contiguous_parts hcode hinstrs) s.parts_endIndex).pairwise
    rw [instrs_endCell, List.pairwise_append, List.pairwise_cons] at hpairs
    have hafter := hpairs.2.1.1 j (by simp [htail])
    omega

end

/-! ## What stands behind the end -/

section

variable {s : Layout} (h : s.Fits) {code : CodeEntry} (hcode : code.Single)
  (hinstrs : code.instrs = s.instrs) {g : Graph} (hg : Outlined (resolve (filled s.parts)) g)
include h hcode hinstrs hg

omit h in
/-- Nothing stands behind the last instruction, in particular no end of another switch. -/
theorem no_pop_behind {i : Instr} (hd : s.rest.detour = none) (hi : s.rest.leave = some i) :
    ((g.blockAt? i.endAddress).bind g.firstInstr?).any (fun j => j.opcode == .popz) = false := by
  have hend : i.endAddress = startOf (filled s.parts) (filled s.parts).length := by
    have hlast : s.instrs.getLast? = some i := by
      have hsplit : s.instrs =
          (s.upTo s.sections.length ++ s.pop :: s.rest.straight) ++ [i] := by
        simp [instrs, Continuation.instrs, hd, hi]
      rw [hsplit, List.getLast?_concat]
    rw [startOf_length, code_filled, code_parts]
    exact (endFrom_getLast 0 hlast).symm
  cases hb : g.blockAt? i.endAddress with
  | none => rfl
  | some b =>
    obtain ⟨hmem, hstart⟩ := bisect_mem hb
    rw [hg.blocks_resolve] at hmem
    have hle : b ≤ (filled s.parts).length := Nat.le_of_lt_succ (List.mem_range.mp hmem)
    rw [hg.start_resolve hle, hend] at hstart
    have he := startOf_inj (contiguous_parts hcode hinstrs) ne_nil_of_mem hle (Nat.le_refl _) hstart
    simp [Graph.firstInstr?, he, hg.instrs_of_length_le (Nat.le_refl _)]

omit hcode hinstrs hg in
/-- Straight code holds no way out. -/
theorem opcode_of_straight {i : Instr} (hi : i ∈ s.rest.straight) :
    i.opcode ≠ .b ∧ i.opcode ≠ .exit ∧ i.opcode ≠ .ret := by
  have hends := (h.straight i hi).endsBlock
  refine ⟨?_, ?_, ?_⟩ <;> intro hop <;> rw [Instr.endsBlock, hop] at hends <;> cases hends

omit hcode hinstrs hg in
/-- Behind straight code only the return of a saved value leaves at once. -/
theorem leavesAtOnce_cons {i : Instr} {more : List Instr} (hs : s.rest.straight = i :: more) :
    s.rest.LeavesAtOnce ↔ ∃ ret, s.rest.instrs = [i, ret] ∧ isSavedReturn i ret = true := by
  obtain ⟨after, hinstrs⟩ : ∃ after, s.rest.instrs = i :: after :=
    ⟨_, by rw [Continuation.instrs, hs, List.append_assoc, List.cons_append]⟩
  constructor
  · rintro (⟨jump, later, he, hop⟩ | ⟨push, ret, he, hret⟩)
    · rw [hinstrs] at he
      cases he
      exact absurd hop (opcode_of_straight h (by simp [hs])).1
    · rw [hinstrs] at he
      cases he
      exact ⟨ret, hinstrs, hret⟩
  · rintro ⟨ret, he, hret⟩
    exact .inr ⟨i, ret, he, hret⟩

omit hcode hinstrs hg in
/-- Behind straight code stands no more than one instruction that is looked at. -/
theorem isEarlyDiscard_cons {i : Instr} {more : List Instr} (hs : s.rest.straight = i :: more) :
    isEarlyDiscard g s.tail = true ↔ s.rest.LeavesAtOnce := by
  have htail : s.tail = i :: (more ++ s.endCell.closing.toList) := by simp [tail, hs]
  have hearly : isEarlyDiscard g s.tail =
      (more ++ s.endCell.closing.toList).head?.any (isSavedReturn i) := by
    obtain ⟨hb, hexit, -⟩ := opcode_of_straight h (i := i) (by simp [hs])
    rw [htail, isEarlyDiscard, if_neg hb, if_neg hexit]
    simp
  -- what follows decides: an instruction that is no return is the one that would have to be
  have hno {j : Instr} (hsecond : s.rest.instrs[1]? = some j) (hj : j.opcode ≠ .ret) :
      isSavedReturn i j = false ∧ ¬ s.rest.LeavesAtOnce := by
    have hreturn : isSavedReturn i j = false := by simp [isSavedReturn, hj]
    refine ⟨hreturn, fun hleaves => ?_⟩
    obtain ⟨ret, he, hret⟩ := (leavesAtOnce_cons h hs).mp hleaves
    obtain rfl : ret = j := by simpa [he] using hsecond
    rw [hreturn] at hret
    cases hret
  rw [hearly]
  cases more with
  | cons j more =>
    obtain ⟨hreturn, hstays⟩ := hno (j := j) (by simp [Continuation.instrs, hs])
      (opcode_of_straight h (by simp [hs])).2.2
    exact iff_of_false (by simp [hreturn]) hstays
  | nil =>
    cases hd : s.rest.detour with
    | some d =>
      obtain ⟨hreturn, hstays⟩ := hno (j := d.jump) (by simp [Continuation.instrs, hs, hd])
        (by simp [(h.detour d hd).1])
      exact iff_of_false (by simp [endCell, hd, hreturn]) hstays
    | none =>
      rw [leavesAtOnce_cons h hs]
      cases hl : s.rest.leave with
      | none => simp [endCell, hd, hl, Continuation.instrs, hs]
      | some j => simp [endCell, hd, hl, Continuation.instrs, hs]

/-- The code behind the end looks like a way out exactly if it leaves at once. -/
theorem isEarlyDiscard_tail : isEarlyDiscard g s.tail = true ↔ s.rest.LeavesAtOnce := by
  cases hs : s.rest.straight with
  | cons i more => exact isEarlyDiscard_cons h hs
  | nil =>
    cases hd : s.rest.detour with
    | some d =>
      have hop := (h.detour d hd).1
      have htail : s.tail = [d.jump] := by simp [tail, endCell, hs, hd]
      have hearly : isEarlyDiscard g s.tail = true := by
        rw [htail, isEarlyDiscard, if_pos hop]
      refine ⟨fun _ => .inl ⟨d.jump, d.skipped ++ d.landing ++ s.rest.leave.toList, ?_, hop⟩,
        fun _ => hearly⟩
      simp [Continuation.instrs, hs, hd]
    | none =>
      cases hl : s.rest.leave with
      | none =>
        simp [tail, endCell, hs, hd, hl, isEarlyDiscard, Continuation.LeavesAtOnce,
          Continuation.instrs]
      | some i =>
        have hop := h.leave i hl
        have hb : i.opcode ≠ .b := by rcases hop with hop | hop <;> simp [hop]
        have htail : s.tail = [i] := by simp [tail, endCell, hs, hd, hl]
        have hinstrs' : s.rest.instrs = [i] := by simp [Continuation.instrs, hs, hd, hl]
        have hearly : isEarlyDiscard g s.tail = false := by
          rw [htail, isEarlyDiscard, if_neg hb, no_pop_behind hcode hinstrs hg hd hl]
          simp
        refine ⟨fun he => absurd (he.symm.trans hearly) (by simp), ?_⟩
        rintro (⟨jump, later, he, hjump⟩ | ⟨push, ret, he, -⟩)
        · rw [hinstrs'] at he
          cases he
          exact absurd hjump hb
        · rw [hinstrs'] at he
          cases he

end

end Layout

/-- The one switch of the code ends at its own `popz` exactly if the search does not take that for a
way out. -/
theorem lone_iff {s : Layout} (h : s.Fits) {code : CodeEntry} (hcode : code.Single)
    (hinstrs : code.instrs = s.instrs) : ∃ g, findBlocks code = .ok g ∧
      Outlined (resolve (filled s.parts)) g ∧
      ((∃ n g', findSwitches.run g = .ok [n] g' ∧ g'.LoneSwitch n s.pop.address) ↔
        isEarlyDiscard g s.tail = false) := by
  have hlaid := s.outlines h hcode hinstrs
  obtain ⟨g, hblocks, hg⟩ := findBlocks_outline hlaid
  obtain ⟨hlow, -⟩ := Layout.apart_bounds h
  refine ⟨g, hblocks, hg, ?_⟩
  have hplain (i : NodeId) : (g.node i).isSwitch = false := by
    obtain ⟨is, hk | hk⟩ := hg.kind_resolve i <;> rw [Node.isSwitch, hk]
  have hlabels (a : Nat) (ha : a ∈ s.candidate.cases.map Case.target ∨ a = s.candidate.otherwise) :
      ∃ b ∈ g.blocks, (g.node b).start = a := by
    obtain ⟨k, hk, rfl⟩ := s.exists_label ha
    exact hg.exists_block (Layout.starts_label (Nat.le_trans hk hlow))
  have hfirst (b : NodeId) (i : Instr) (hi : g.firstInstr? b = some i) :
      (g.node b).start = i.address := by
    have hlt : b < (filled s.parts).length := by
      refine Nat.lt_of_not_le fun hge => ?_
      rw [Graph.firstInstr?, hg.instrs_of_length_le hge] at hi
      cases hi
    obtain ⟨c, hc⟩ : ∃ c, (filled s.parts)[b]? = some c := ⟨_, List.getElem?_eq_getElem hlt⟩
    rw [Graph.firstInstr?, hg.instrs_resolve hc] at hi
    rw [hg.start_resolve (Nat.le_of_lt hlt)]
    exact startOf_eq_address (Layout.contiguous_parts hcode hinstrs) hc hi
  have hhighest : (targetRange s.candidate).2 = s.label s.tests.length := by
    refine targetRange_snd rfl fun k hk => ?_
    obtain ⟨j, hj, he⟩ := s.exists_label (.inl (List.mem_map_of_mem hk))
    rw [he]
    exact Layout.label_mono hcode hinstrs hj
  rw [findSwitches_lone_iff hg.sound hcode.contiguous (findBlocks_tiled hcode.contiguous hblocks)
    hplain (Layout.candidates_eq h hg) hlabels hfirst, hhighest]
  constructor
  · rintro ⟨b, hfound⟩
    exact Layout.isEarlyDiscard_of_endAt? h hcode hinstrs hg hfound
  · intro hearly
    exact ⟨_, Layout.endAt?_eq h hcode hinstrs hg hearly⟩

/-- A switch is closed by its own `popz` unless the code behind that leaves at once. -/
theorem closed_iff {s : Layout} (h : s.Fits) {code : CodeEntry} (hcode : code.Single)
    (hinstrs : code.instrs = s.instrs) : ∃ g, findBlocks code = .ok g ∧
      ((∃ n g', findSwitches.run g = .ok [n] g' ∧ g'.LoneSwitch n s.pop.address) ↔
        ¬ s.rest.LeavesAtOnce) := by
  obtain ⟨g, hblocks, hg, hiff⟩ := lone_iff h hcode hinstrs
  refine ⟨g, hblocks, hiff.trans ?_⟩
  rw [← Layout.isEarlyDiscard_tail h hcode hinstrs hg, Bool.not_eq_true]

/-- `switch (x) { case 1: f(); break; default: g(); }` before the end of the code. -/
def switchExample : Layout where
  value := [⟨0, .push, none, .var, .double, .var ⟨"x", -1, .normal⟩⟩]
  first :=
    { copy := ⟨8, .dup, none, .var, .double, .dup 0 0⟩
      key := ⟨12, .pushI, none, .int16, .double, .int16 1⟩
      compare := ⟨16, .cmp, none, .int32, .var, .comparison .equal⟩
      jump := ⟨20, .bt, none, .double, .double, .branch 8⟩ }
  more := []
  jump := ⟨24, .b, none, .double, .double, .branch 20⟩
  sections := [
    ⟨[⟨28, .call, none, .int32, .double, .call "f" 0⟩, ⟨36, .popz, none, .var, .double, .none⟩],
      some ⟨40, .b, none, .double, .double, .branch 16⟩⟩,
    ⟨[⟨44, .call, none, .int32, .double, .call "g" 0⟩, ⟨52, .popz, none, .var, .double, .none⟩],
      none⟩]
  pop := ⟨56, .popz, none, .var, .double, .none⟩
  rest := ⟨[], none, some ⟨60, .exit, none, .int32, .double, .none⟩⟩

theorem switchExample_fits : switchExample.Fits where
  value := by decide
  tests k t ht := by
    cases k with
    | zero =>
      cases ht
      exact ⟨⟨rfl, rfl⟩, rfl, ⟨rfl, rfl⟩, rfl, rfl⟩
    | succ k => cases ht
  jump := ⟨rfl, rfl⟩
  count := .inr rfl
  bodies := by decide
  leaves c hc i hi := by
    simp only [switchExample, List.mem_cons, List.not_mem_nil, or_false] at hc
    rcases hc with rfl | rfl
    · cases hi
      exact ⟨rfl, rfl⟩
    · cases hi
  pop := rfl
  straight := by decide
  detour d hd := by cases hd
  leave i hi := by
    cases hi
    exact .inl rfl

theorem closed_iff_switchExample : ∃ g,
    findBlocks (.ofInstrs "gml_Script_example" switchExample.instrs) = .ok g ∧
      ∃ n g', findSwitches.run g = .ok [n] g' ∧ g'.LoneSwitch n 56 := by
  have hcode : (CodeEntry.ofInstrs "gml_Script_example" switchExample.instrs).Single :=
    ⟨⟨rfl, rfl, rfl, rfl, rfl, rfl, rfl, rfl, rfl, rfl, rfl, rfl, rfl, trivial⟩, rfl, rfl⟩
  obtain ⟨g, hg, hiff⟩ := closed_iff switchExample_fits hcode rfl
  refine ⟨g, hg, hiff.mpr ?_⟩
  rintro (⟨jump, more, he, hop⟩ | ⟨push, ret, he, -⟩)
  · cases he
    cases hop
  · cases he

/-- `if (..) { switch (x) { case 1: f(); break; } } else { g(); }` from the switch on: its end is followed
by the jump over the other branch. -/
def branchExample : Layout where
  value := [⟨0, .push, none, .var, .double, .var ⟨"x", -1, .normal⟩⟩]
  first :=
    { copy := ⟨8, .dup, none, .var, .double, .dup 0 0⟩
      key := ⟨12, .pushI, none, .int16, .double, .int16 1⟩
      compare := ⟨16, .cmp, none, .int32, .var, .comparison .equal⟩
      jump := ⟨20, .bt, none, .double, .double, .branch 8⟩ }
  more := []
  jump := ⟨24, .b, none, .double, .double, .branch 20⟩
  sections := [
    ⟨[⟨28, .call, none, .int32, .double, .call "f" 0⟩, ⟨36, .popz, none, .var, .double, .none⟩],
      some ⟨40, .b, none, .double, .double, .branch 4⟩⟩]
  pop := ⟨44, .popz, none, .var, .double, .none⟩
  rest :=
    { straight := []
      detour := some
        { jump := ⟨48, .b, none, .double, .double, .branch 16⟩
          skipped := [⟨52, .call, none, .int32, .double, .call "g" 0⟩,
            ⟨60, .popz, none, .var, .double, .none⟩]
          landing := [] }
      leave := some ⟨64, .exit, none, .int32, .double, .none⟩ }

theorem branchExample_fits : branchExample.Fits where
  value := by decide
  tests k t ht := by
    cases k with
    | zero =>
      cases ht
      exact ⟨⟨rfl, rfl⟩, rfl, ⟨rfl, rfl⟩, rfl, rfl⟩
    | succ k => cases ht
  jump := ⟨rfl, rfl⟩
  count := .inl rfl
  bodies := by decide
  leaves c hc i hi := by
    rw [List.mem_singleton.mp hc] at hi
    cases hi
    exact ⟨rfl, rfl⟩
  pop := rfl
  straight := by decide
  detour d hd := by
    cases hd
    exact ⟨rfl, rfl, by decide, by decide⟩
  leave i hi := by
    cases hi
    exact .inl rfl

theorem not_closed_branchExample : ¬ ∃ g,
    findBlocks (.ofInstrs "gml_Script_example" branchExample.instrs) = .ok g ∧
      ∃ n g', findSwitches.run g = .ok [n] g' ∧ g'.LoneSwitch n 44 := by
  have hcode : (CodeEntry.ofInstrs "gml_Script_example" branchExample.instrs).Single :=
    ⟨⟨rfl, rfl, rfl, rfl, rfl, rfl, rfl, rfl, rfl, rfl, rfl, rfl, rfl, rfl, trivial⟩, rfl, rfl⟩
  obtain ⟨g, hg, -, hiff⟩ := lone_iff branchExample_fits hcode rfl
  rintro ⟨g₁, hg₁, hclosed⟩
  cases hg.symm.trans hg₁
  cases hiff.mp hclosed

end Switch

end GmlLift
