import GmlLift.Proofs.Flow.Trimmed

/-! # The layouts of the four loops

Each kind of loop has one layout, and `with` a second one for a body that it leaves early. Where code
is laid out so around straight-line code, the one loop is found and folded. -/
namespace GmlLift

open GmlLift.Graph Cell Pass

/-- What a cell of a layout has to satisfy. -/
structure Cell.Fits (cells : List Cell) (j : Nat) (c : Cell) : Prop where
  filled : c.instrs ≠ []
  straight : ∀ i ∈ c.straight, i.Ordinary
  ends : Ends cells j c
  nexts : ∀ k ∈ c.nexts, k ≤ cells.length

theorem CodeEntry.Single.outlines {code : CodeEntry} (hcode : code.Single) {cells : List Cell}
    (hinstrs : code.instrs = Cell.code cells) (h : EachFrom (Cell.Fits cells) 0 cells) :
    Outlines cells code ∧ ∀ c ∈ cells, ∀ i ∈ c.straight, i.Ordinary := by
  have hall (c : Cell) (hc : c ∈ cells) : ∃ j, Cell.Fits cells j c := by
    obtain ⟨j, hj⟩ := List.getElem?_of_mem hc
    exact ⟨j, h.getElem? j c hj⟩
  refine ⟨⟨hinstrs, hcode.contiguous, hcode.length, hcode.alone, fun c hc => ?_, fun c hc i hi => ?_,
    fun j c hj => (h.getElem? j c hj).ends, fun c hc => ?_⟩, fun c hc i hi => ?_⟩
  · obtain ⟨j, hj⟩ := hall c hc
    exact hj.filled
  · obtain ⟨j, hj⟩ := hall c hc
    exact (hj.straight i hi).toStraight
  · obtain ⟨j, hj⟩ := hall c hc
    exact hj.nexts
  · obtain ⟨j, hj⟩ := hall c hc
    exact hj.straight i hi

namespace Loops

/-! ## Code between jumps -/

/-- The block of code that leads on to a block; where there is no code, there is no block. -/
def lead (is : List Instr) (next : Nat) : List Cell := if is = [] then [] else [⟨is, none, [next]⟩]

variable {pre : List Instr}

theorem code_lead (is : List Instr) (next : Nat) : Cell.code (lead is next) = is := by
  unfold lead
  split
  · rename_i h
    exact h.symm
  · simp [Cell.code, Cell.instrs]

theorem code_lead_append (is : List Instr) (next : Nat) (cells : List Cell) :
    Cell.code (lead is next ++ cells) = is ++ Cell.code cells := by
  have happend : Cell.code (lead is next ++ cells) =
      Cell.code (lead is next) ++ Cell.code cells := List.flatMap_append
  rw [happend, code_lead]

theorem length_lead_le (is : List Instr) (next : Nat) : (lead is next).length ≤ 1 := by
  unfold lead
  split <;> simp

theorem eachFrom_lead {P : Nat → Cell → Prop} {is : List Instr} {next j : Nat}
    (h : is ≠ [] → (lead is next).length = 1 → P j ⟨is, none, [next]⟩) :
    EachFrom P j (lead is next) := by
  by_cases his : is = []
  · rw [lead, if_pos his]
    trivial
  · have hlen : (lead is next).length = 1 := by
      rw [lead, if_neg his]
      rfl
    rw [lead, if_neg his]
    exact ⟨h his hlen, trivial⟩

theorem of_mem_lead {is : List Instr} {next : Nat} {c : Cell} (h : c ∈ lead is next) :
    c.closing = none ∧ c.nexts = [next] := by
  unfold lead at h
  split at h
  · cases h
  · rw [List.mem_singleton.mp h]
    exact ⟨rfl, rfl⟩

/-! ## Where jumps lead -/

theorem offset_neg {i : Instr} {t : Nat} (ht : i.target? = some t) (hlt : t < i.address) :
    (i.offset?.any (· < 0)) = true := by
  unfold Instr.target? at ht
  cases ho : i.offset? with
  | none =>
    rw [ho] at ht
    cases ht
  | some o =>
    rw [ho] at ht
    have he : (i.address + o : Int).toNat = t := Option.some.inj ht
    simp only [Option.any_some, decide_eq_true_iff]
    omega

theorem offset_nonneg {i : Instr} {t : Nat} (ht : i.target? = some t) (hlt : i.address < t) :
    (i.offset?.any (· < 0)) = false := by
  unfold Instr.target? at ht
  cases ho : i.offset? with
  | none => rfl
  | some o =>
    rw [ho] at ht
    have he : (i.address + o : Int).toNat = t := Option.some.inj ht
    simp only [Option.any_some, decide_eq_false_iff_not]
    omega

/-- A jump ahead neither opens nor closes a loop. -/
theorem kind?_ahead {i : Instr} {t : Nat} (hop : i.opcode ≠ .pushEnv) (ht : i.target? = some t)
    (hlt : i.address < t) : kind? i = none := by
  have hahead := offset_nonneg ht hlt
  unfold kind?
  simp only [hahead]
  obtain ⟨_, op, _, _, _, _⟩ := i
  cases op <;> first | rfl | exact absurd rfl hop

section

variable {cells : List Cell} {code : CodeEntry} (h : Outlines cells code) {j k : Nat} {c : Cell}
  {i : Instr}
include h

/-- The address of a block's closing instruction. -/
theorem closing_bounds (hj : cells[j]? = some c) (hi : c.closing = some i) :
    startOf cells j ≤ i.address ∧ i.address < startOf cells (j + 1) ∧
      (c.straight ≠ [] → startOf cells j < i.address) := by
  have hc := contiguous_cell h.contiguous_code hj
  have hmem : i ∈ c.instrs := List.mem_of_getLast? (getLast?_closing hi)
  obtain ⟨hlow, hhigh⟩ := hc.bounds hmem
  have hend := endAddress_closing hj hi
  refine ⟨hlow, ?_, fun hne => ?_⟩
  · rw [← hend]
    exact i.address_lt_endAddress
  · obtain ⟨first, rest, hs⟩ := List.exists_cons_of_ne_nil hne
    rw [Cell.instrs, hi, hs] at hc
    have hpair := List.rel_of_pairwise_cons hc.pairwise
      (List.mem_append_right rest (List.mem_singleton.mpr rfl) : i ∈ rest ++ [i])
    have hfirst : first.address = startOf cells j := hc.1
    have hpos := first.address_lt_endAddress
    omega

theorem lt_startOf (hj : cells[j]? = some c) (hi : c.closing = some i) (hjk : j < k)
    (hk : k ≤ cells.length) : i.address < startOf cells k :=
  closing_lt_startOf h.contiguous_code h.filled hj hi hjk hk

theorem startOf_lt_closing (hj : cells[j]? = some c) (hi : c.closing = some i) (hkj : k < j) :
    startOf cells k < i.address := by
  obtain ⟨hlt, -⟩ := List.getElem?_eq_some_iff.mp hj
  exact Nat.lt_of_lt_of_le (startOf_lt h.contiguous_code h.filled hkj (Nat.le_of_lt hlt))
    (closing_bounds h hj hi).1

end

/-! ## The graph before the fold -/

section

variable {cells cs : List Cell} {code : CodeEntry} {g : Graph} (hp : Planted cells code g)
include hp

/-- The node of a block that something leads past. -/
theorem face_of_entered {j : Nat} {c : Cell} (hj : cells[j]? = some c)
    (he : Entered cells (j + 1)) :
    g.face j = { g.face j with kind := .block c.instrs, succs := c.nexts } := by
  rw [hp.face j c hj, if_pos he, List.append_nil]

/-- The node of a block that dead code hangs after. -/
theorem face_of_dead {j : Nat} {c : Cell} (hj : cells[j]? = some c) (he : ¬ Entered cells (j + 1)) :
    g.face j = { g.face j with kind := .block c.instrs, succs := c.nexts ++ [j + 1] } := by
  rw [hp.face j c hj, if_neg he]

theorem face_of_last :
    g.face cells.length = { g.face cells.length with kind := .block [], succs := [] } := by
  rw [hp.last]

theorem shows_of_faces (h : EachFrom (fun j d => g.face j =
    { g.face j with kind := .block d.instrs, succs := d.nexts }) 0 cs) : Shows cs g g :=
  ⟨hp.sound, rfl, rfl, rfl, h.getElem?, fun _ _ => rfl⟩

theorem nextBlock?_eq {j : Nat} (hj : j < cells.length) : g.nextBlock? j = some (j + 1) :=
  nextBlock?_range hp.blocks (Nat.succ_lt_succ hj)

end

/-- The first block from the head on that leaves a `while` is its condition. -/
theorem whileCondition?_eq {g : Graph} {m : Nat} {o start stop next : Nat}
    (hblocks : g.blocks = List.range m) (ho : o < m) (hbefore : ∀ j < o, (g.node j).start < start)
    (hstart : start ≤ (g.node o).start) (hstop : (g.node o).start < stop)
    (hjump : g.endsInJump o .bf next = true) : whileCondition? g start stop next = some o := by
  have hnone : (List.range o).find? (fun b => decide (start ≤ (g.node b).start) &&
      decide ((g.node b).start < stop) && g.endsInJump b .bf next) = none := by
    refine List.find?_eq_none.mpr fun j hj => ?_
    simp [Nat.not_le.mpr (hbefore j (List.mem_range.mp hj))]
  rw [whileCondition?, hblocks, range_split ho, List.find?_append, hnone, Option.none_or,
    List.find?_cons_of_pos (by simp [hstart, hstop, hjump])]

/-- Blocks whose code is straight but for the exit at its end. -/
theorem settled_of_code {cs : List Cell} {is : List Instr} {exit : Instr}
    (h : Cell.code cs = is ++ [exit]) (hord : ∀ i ∈ is, i.Ordinary) (hexit : exit.opcode = .exit) :
    ∀ d ∈ cs, ∀ i ∈ d.instrs, i.opcode.isBranch = false ∧ i.isCallTo Hook.try_ = false := by
  intro d hd i hi
  have hmem : i ∈ is ++ [exit] := h ▸ List.mem_flatMap.mpr ⟨d, hd, hi⟩
  rcases List.mem_append.mp hmem with hi | hi
  · exact ⟨(hord i hi).isBranch, (hord i hi).hook⟩
  · rw [List.mem_singleton.mp hi]
    simp [Instr.isCallTo, hexit, Opcode.isBranch]

theorem kind?_exit {exit : Instr} (hexit : exit.opcode = .exit) : kind? exit = none := by
  rw [kind?, hexit]

/-! ## While -/

/-- Code around a `while`: the test leads past the loop, and the last jump leads back to its head. -/
structure WhileCode (pre key body : List Instr) (test back exit : Instr) (is : List Instr) : Prop where
  instrs : is = pre ++ key ++ [test] ++ body ++ [back, exit]
  leaves : test.opcode = .bf ∧ test.target? = some exit.address
  returns : back.opcode = .b ∧ back.target? = some (endFrom 0 pre)
  exits : exit.opcode = .exit

namespace WhileCode

section

variable (pre key body : List Instr) (test back exit : Instr)

def cells : List Cell :=
  let head := (lead pre 1).length
  lead pre 1 ++ [⟨key, some test, [head + 1, head + 2]⟩, ⟨body, some back, [head]⟩,
    ⟨[], some exit, []⟩]

/-- The blocks with the empty one at the end, which hangs after the exit. -/
def wired : List Cell :=
  let head := (lead pre 1).length
  lead pre 1 ++ [⟨key, some test, [head + 1, head + 2]⟩, ⟨body, some back, [head]⟩,
    ⟨[], some exit, [head + 3]⟩, ⟨[], none, []⟩]

/-- The blocks without the jump back. -/
def opened : List Cell :=
  let head := (lead pre 1).length
  lead pre 1 ++ [⟨key, some test, [head + 1, head + 2]⟩, ⟨body, none, []⟩,
    ⟨[], some exit, [head + 3]⟩, ⟨[], none, []⟩]

/-- The blocks without the loop's own code and edges. -/
def trimmed : List Cell :=
  let head := (lead pre 1).length
  lead pre 1 ++ [⟨key, none, []⟩, ⟨body, none, []⟩, ⟨[], some exit, [head + 3]⟩, ⟨[], none, []⟩]

def candidate : Candidate :=
  let head := (lead pre 1).length
  { kind := .whileLoop, head, tail := head + 1, next := head + 2 }

theorem length_cells : (cells pre key body test back exit).length = (lead pre 1).length + 3 := by
  simp [cells]

theorem cells_test : (cells pre key body test back exit)[(lead pre 1).length]? =
    some ⟨key, some test, [(lead pre 1).length + 1, (lead pre 1).length + 2]⟩ := by
  simp [cells]

theorem cells_back : (cells pre key body test back exit)[(lead pre 1).length + 1]? =
    some ⟨body, some back, [(lead pre 1).length]⟩ := by
  simp [cells]

theorem cells_exit : (cells pre key body test back exit)[(lead pre 1).length + 2]? =
    some ⟨[], some exit, []⟩ := by
  simp [cells]

theorem startOf_head : startOf (cells pre key body test back exit) (lead pre 1).length =
    endFrom 0 pre := by
  rw [cells, startOf_append, code_lead]

end

variable {key body : List Instr} {test back exit : Instr} {code : CodeEntry}
  (h : WhileCode pre key body test back exit code.instrs)
include h

theorem outlines (hcode : code.Single) (hord : ∀ i ∈ pre ++ key ++ body, i.Ordinary) :
    Outlines (cells pre key body test back exit) code ∧
      ∀ c ∈ cells pre key body test back exit, ∀ i ∈ c.straight, i.Ordinary := by
  have hcells : code.instrs = Cell.code (cells pre key body test back exit) := by
    rw [h.instrs, cells, code_lead_append]
    simp [Cell.code, Cell.instrs]
  have hlen := length_cells pre key body test back exit
  have hhead := startOf_head pre key body test back exit
  have hstop : startOf (cells pre key body test back exit) ((lead pre 1).length + 2) =
      exit.address := startOf_eq_address (hcells ▸ hcode.contiguous) (cells_exit ..) rfl
  refine hcode.outlines hcells ?_
  nth_rewrite 2 [cells]
  rw [eachFrom_append, Nat.zero_add]
  refine ⟨eachFrom_lead fun hpre hone => ?_, ?_, ?_, ?_, trivial⟩
  · refine ⟨by simpa [Cell.instrs] using hpre, fun i hi => hord i (by simp [hi]),
      ends_open rfl rfl fun _ => ?_, by simp [hlen]⟩
    refine ⟨⟨body, some back, [(lead pre 1).length]⟩, by simp [cells], back, rfl,
      by simp [Instr.jumps, h.returns], ?_⟩
    rw [h.returns.2, ← hhead, hone]
  · exact ⟨by simp [Cell.instrs], fun i hi => hord i (by simp [hi]),
      ends_twoWay (cells_test ..) rfl (by simp [h.leaves]) (by rw [h.leaves.2, hstop]) rfl,
      by simp [hlen]⟩
  · exact ⟨by simp [Cell.instrs], fun i hi => hord i (by simp [hi]),
      ends_jump rfl h.returns.1 (by rw [h.returns.2, hhead]) rfl, by simp [hlen]⟩
  · exact ⟨by simp [Cell.instrs], by simp, ends_exit rfl h.exits rfl, by simp⟩

variable {g : Graph} (hlaid : Outlines (cells pre key body test back exit) code)
  (hp : Planted (cells pre key body test back exit) code g)
include hlaid hp

theorem candidates_eq : candidates g = .ok [candidate pre] := by
  have hlen := length_cells pre key body test back exit
  have hhead := startOf_head pre key body test back exit
  have hstop : startOf (cells pre key body test back exit) ((lead pre 1).length + 2) =
    exit.address := startOf_eq_address hlaid.contiguous_code (cells_exit ..) rfl
  refine hp.candidates_eq hlaid.endsBlock (cells_back ..) rfl (k := .whileLoop) ?_ h.returns.2 ?_ ?_
  · have hback : endFrom 0 pre < back.address := by
      rw [← hhead]
      exact startOf_lt_closing hlaid (cells_back ..) rfl (Nat.lt_succ_self _)
    rw [kind?, h.returns.1]
    simp [offset_neg h.returns.2 hback]
  · have htest : test.address < exit.address := by
      rw [← hstop]
      exact lt_startOf hlaid (cells_test ..) rfl (by omega) (by rw [hlen]; omega)
    rw [cells, eachFrom_append, Nat.zero_add]
    refine ⟨eachFrom_lead (fun _ _ i hi => nomatch hi), fun i hi _ => ?_, fun i hi hne => ?_,
      fun i hi _ => ?_, trivial⟩
    · cases hi
      exact kind?_ahead (by simp [h.leaves]) h.leaves.2 htest
    · exact absurd rfl hne
    · cases hi
      exact kind?_exit h.exits
  · rw [candidateAt, if_neg (by decide), ← hhead, jumpCandidate,
      hp.blockAt?_startOf hlaid (by rw [hlen]; omega), nextBlock?_eq hp (by rw [hlen]; omega)]
    rfl

omit h hlaid in
theorem shows_wired : Shows (wired pre key body test back exit) g g := by
  have ho := length_lead_le pre 1
  have hlen := length_cells pre key body test back exit
  have hdead : ¬ Entered (cells pre key body test back exit) ((lead pre 1).length + 3) := by
    rintro ⟨c, hc, hk⟩
    rcases List.mem_append.mp hc with hc | hc
    · rw [(of_mem_lead hc).2, List.mem_singleton] at hk
      omega
    · simp only [List.mem_cons, List.not_mem_nil, or_false] at hc
      rcases hc with rfl | rfl | rfl <;> simp at hk
  refine shows_of_faces hp ?_
  rw [wired, eachFrom_append, Nat.zero_add]
  refine ⟨eachFrom_lead fun hpre hone => ?_, ?_, ?_, ?_, ?_, trivial⟩
  · refine face_of_entered hp (by simp [cells, lead, hpre])
      ⟨_, List.mem_of_getElem? (cells_back ..), by simp [hone]⟩
  · exact face_of_entered hp (cells_test ..) ⟨_, List.mem_of_getElem? (cells_test ..), by simp⟩
  · exact face_of_entered hp (cells_back ..) ⟨_, List.mem_of_getElem? (cells_test ..), by simp⟩
  · exact face_of_dead hp (cells_exit ..) hdead
  · have hlast := face_of_last hp
    rwa [hlen] at hlast

/-- The loop's own code and edges are taken out. -/
theorem strip_run : ∃ info g₁, (strip (candidate pre)).run g =
      .ok (info, (lead pre 1).length + 1) g₁ ∧ Shows (trimmed pre key body exit) g g₁ ∧
    info.kind = .whileLoop ∧ info.hasCondition = true ∧ info.continuesToStep = false := by
  have hlen := length_cells pre key body test back exit
  have hsize : (wired pre key body test back exit).length ≤ g.nodes.size := by
    rw [hp.size, hlen]
    simp [wired]
  have hcell : (opened pre key body test exit)[(lead pre 1).length]? =
      some ⟨key, some test, [(lead pre 1).length + 1, (lead pre 1).length + 2]⟩ := by
    simp [opened]
  have hopened : Shows (opened pre key body test exit) g (openTail (candidate pre) g) := by
    have hset : (wired pre key body test back exit).set ((lead pre 1).length + 1)
        ⟨body, none, []⟩ = opened pre key body test exit := by simp [wired, opened]
    rw [← hset]
    exact (shows_wired hp).cutEdge (c := ⟨body, some back, [(lead pre 1).length]⟩) hsize
      (by simp [wired]) [back] (by simp [Cell.instrs]) rfl (by simp [candidate])
  have htrimmed : Shows (trimmed pre key body exit) g
      (cutBlock (lead pre 1).length 1 (openTail (candidate pre) g)) := by
    have hset : (opened pre key body test exit).set (lead pre 1).length ⟨key, none, []⟩ =
        trimmed pre key body exit := by simp [opened, trimmed]
    rw [← hset]
    exact hopened.cutBlock (by simpa [wired, opened] using hsize) hcell [test]
      (by simp [Cell.instrs]) rfl rfl
  have hmono {j k : Nat} (hjk : j < k) (hk : k ≤ (lead pre 1).length + 3) :
      (g.node j).start < (g.node k).start := by
    rw [hp.start_eq (by rw [hlen]; omega), hp.start_eq (by rw [hlen]; omega)]
    exact startOf_lt hlaid.contiguous_code hlaid.filled hjk (by rw [hlen]; exact hk)
  have hstop : (g.node ((lead pre 1).length + 2)).start = exit.address := by
    rw [hp.start_eq (by rw [hlen]; omega)]
    exact startOf_eq_address hlaid.contiguous_code (cells_exit ..) rfl
  have hcondition : whileCondition? (openTail (candidate pre) g) (g.node (lead pre 1).length).start
      ((g.node ((lead pre 1).length + 1)).start + 1) (g.node ((lead pre 1).length + 2)).start =
        some (lead pre 1).length := by
    refine whileCondition?_eq (m := (cells pre key body test back exit).length + 1)
      (hopened.blocks.trans hp.blocks) (by rw [hlen]; omega) (fun j hj => ?_) ?_ ?_ ?_
    · rw [hopened.start_eq]
      exact hmono hj (by omega)
    · exact Nat.le_of_eq (hopened.start_eq _).symm
    · rw [hopened.start_eq]
      exact Nat.lt_succ_of_lt (hmono (Nat.lt_succ_self _) (by omega))
    · rw [endsInJump, lastInstr?, hopened.instrs_eq hcell, getLast?_closing rfl, hstop]
      simp [h.leaves]
  have hbody : ((openTail (candidate pre) g).node (lead pre 1).length).succs.head? =
      some ((lead pre 1).length + 1) := by
    rw [hopened.succs_eq hcell]
    rfl
  exact ⟨_, _, strip_while rfl hcondition hbody, htrimmed, rfl, rfl, rfl⟩

omit hlaid hp in
/-- The analysis folds the loop. -/
theorem analyze_eq (hcode : code.Single) (hord : ∀ i ∈ pre ++ key ++ body, i.Ordinary)
    (layout : TryCatch.Layout) : ∃ g info, analyze code layout = .ok g ∧
      Folded (trimmed pre key body exit) code (candidate pre) info ((lead pre 1).length + 1) g ∧
      info.kind = .whileLoop ∧ info.hasCondition = true ∧ info.continuesToStep = false := by
  obtain ⟨hlaid, hplain⟩ := h.outlines hcode hord
  have hlen := length_cells pre key body test back exit
  obtain ⟨base, g, hbase, hfound, hp⟩ := exists_planted hlaid (by simp [cells])
  obtain ⟨info, g₁, hstrip, hshows, hinfo⟩ := h.strip_run hlaid hp
  have hbreak : ∀ t, breakTarget? (candidate pre) = some t →
      t ≤ (cells pre key body test back exit).length := by
    rintro t ht
    cases ht
    rw [hlen]
    exact Nat.le_succ _
  have hquiet : EachFrom (fun j d => (candidate pre).head ≤ j → j < (candidate pre).next →
      ∀ t, breakTarget? (candidate pre) = some t ∨ t = (candidate pre).head → t ∉ d.nexts) 0
      (trimmed pre key body exit) := by
    rw [trimmed, eachFrom_append, Nat.zero_add]
    refine ⟨eachFrom_lead fun _ hone hlow => ?_, fun _ _ _ _ => List.not_mem_nil,
      fun _ _ _ _ => List.not_mem_nil, fun _ hhigh => ?_, fun _ _ _ _ => List.not_mem_nil, trivial⟩
    · exact absurd hlow (by simp [candidate, hone])
    · exact absurd hhigh (Nat.lt_irrefl _)
  have hcode : Cell.code (trimmed pre key body exit) = pre ++ key ++ body ++ [exit] := by
    rw [trimmed, code_lead_append]
    simp [Cell.code, Cell.instrs]
  obtain ⟨g', hrun, hfolded⟩ := exists_folded hbase hfound hp hlaid hplain (h.candidates_eq hlaid hp)
    hstrip hshows (by rw [hlen]; simp [trimmed]) (Nat.lt_add_of_pos_right (by decide))
    (by rw [hlen]; exact Nat.le_succ _) hbreak hquiet.getElem? (settled_of_code hcode hord h.exits)
    layout
  exact ⟨g', info, hrun, hfolded, hinfo⟩

end WhileCode

/-! ## Do and until -/

/-- Code around a `do`: the test at the end of the body leads back to its head. -/
structure DoUntilCode (pre key body : List Instr) (test exit : Instr) (is : List Instr) : Prop where
  instrs : is = pre ++ body ++ key ++ [test, exit]
  returns : test.opcode = .bf ∧ test.target? = some (endFrom 0 pre)
  exits : exit.opcode = .exit

namespace DoUntilCode

section

variable (pre key body : List Instr) (test exit : Instr)

def cells : List Cell :=
  let head := (lead pre 1).length
  lead pre 1 ++ [⟨body ++ key, some test, [head + 1, head]⟩, ⟨[], some exit, []⟩]

/-- The blocks with the empty one at the end, which hangs after the exit. -/
def wired : List Cell :=
  let head := (lead pre 1).length
  lead pre 1 ++ [⟨body ++ key, some test, [head + 1, head]⟩, ⟨[], some exit, [head + 2]⟩,
    ⟨[], none, []⟩]

/-- The blocks without the loop's own code and edges. -/
def trimmed : List Cell :=
  let head := (lead pre 1).length
  lead pre 1 ++ [⟨body ++ key, none, []⟩, ⟨[], some exit, [head + 2]⟩, ⟨[], none, []⟩]

def candidate : Candidate :=
  let head := (lead pre 1).length
  { kind := .doUntil, head, tail := head, next := head + 1 }

theorem length_cells : (cells pre key body test exit).length = (lead pre 1).length + 2 := by
  simp [cells]

theorem cells_test : (cells pre key body test exit)[(lead pre 1).length]? =
    some ⟨body ++ key, some test, [(lead pre 1).length + 1, (lead pre 1).length]⟩ := by
  simp [cells]

theorem cells_exit : (cells pre key body test exit)[(lead pre 1).length + 1]? =
    some ⟨[], some exit, []⟩ := by
  simp [cells]

theorem startOf_head : startOf (cells pre key body test exit) (lead pre 1).length =
    endFrom 0 pre := by
  rw [cells, startOf_append, code_lead]

end

variable {key body : List Instr} {test exit : Instr} {code : CodeEntry}
  (h : DoUntilCode pre key body test exit code.instrs)
include h

theorem outlines (hcode : code.Single) (hord : ∀ i ∈ pre ++ key ++ body, i.Ordinary) :
    Outlines (cells pre key body test exit) code ∧
      ∀ c ∈ cells pre key body test exit, ∀ i ∈ c.straight, i.Ordinary := by
  have hcells : code.instrs = Cell.code (cells pre key body test exit) := by
    rw [h.instrs, cells, code_lead_append]
    simp [Cell.code, Cell.instrs]
  have hlen := length_cells pre key body test exit
  have hhead := startOf_head pre key body test exit
  refine hcode.outlines hcells ?_
  nth_rewrite 2 [cells]
  rw [eachFrom_append, Nat.zero_add]
  refine ⟨eachFrom_lead fun hpre hone => ?_, ?_, ?_, trivial⟩
  · refine ⟨by simpa [Cell.instrs] using hpre, fun i hi => hord i (by simp [hi]),
      ends_open rfl rfl fun _ => ?_, by simp [hlen]⟩
    refine ⟨_, List.mem_of_getElem? (cells_test ..), test, rfl, by simp [Instr.jumps, h.returns], ?_⟩
    rw [h.returns.2, ← hhead, hone]
  · refine ⟨by simp [Cell.instrs], fun i hi => hord i ?_,
      ends_twoWay (cells_test ..) rfl (by simp [h.returns]) (by rw [h.returns.2, hhead]) rfl,
      by simp [hlen]⟩
    rcases List.mem_append.mp hi with hi | hi <;> simp [hi]
  · exact ⟨by simp [Cell.instrs], by simp, ends_exit rfl h.exits rfl, by simp⟩

variable {g : Graph} (hlaid : Outlines (cells pre key body test exit) code)
  (hp : Planted (cells pre key body test exit) code g)
include hlaid hp

theorem candidates_eq (hkey : key ≠ []) : candidates g = .ok [candidate pre] := by
  have hlen := length_cells pre key body test exit
  have hhead := startOf_head pre key body test exit
  refine hp.candidates_eq hlaid.endsBlock (cells_test ..) rfl (k := .doUntil) ?_ h.returns.2 ?_ ?_
  · have htest : endFrom 0 pre < test.address := by
      rw [← hhead]
      exact (closing_bounds hlaid (cells_test ..) rfl).2.2 (by simp [hkey])
    rw [kind?, h.returns.1]
    simp [offset_neg h.returns.2 htest]
  · rw [cells, eachFrom_append, Nat.zero_add]
    refine ⟨eachFrom_lead (fun _ _ i hi => nomatch hi), fun i hi hne => ?_, fun i hi _ => ?_,
      trivial⟩
    · exact absurd rfl hne
    · cases hi
      exact kind?_exit h.exits
  · rw [candidateAt, if_neg (by decide), ← hhead, jumpCandidate,
      hp.blockAt?_startOf hlaid (by rw [hlen]; omega), nextBlock?_eq hp (by rw [hlen]; omega)]
    rfl

omit h hlaid in
theorem shows_wired : Shows (wired pre key body test exit) g g := by
  have ho := length_lead_le pre 1
  have hlen := length_cells pre key body test exit
  have hdead : ¬ Entered (cells pre key body test exit) ((lead pre 1).length + 2) := by
    rintro ⟨c, hc, hk⟩
    rcases List.mem_append.mp hc with hc | hc
    · rw [(of_mem_lead hc).2, List.mem_singleton] at hk
      omega
    · simp only [List.mem_cons, List.not_mem_nil, or_false] at hc
      rcases hc with rfl | rfl <;> simp at hk
  refine shows_of_faces hp ?_
  rw [wired, eachFrom_append, Nat.zero_add]
  refine ⟨eachFrom_lead fun hpre hone => ?_, ?_, ?_, ?_, trivial⟩
  · refine face_of_entered hp (by simp [cells, lead, hpre])
      ⟨_, List.mem_of_getElem? (cells_test ..), by simp [hone]⟩
  · exact face_of_entered hp (cells_test ..) ⟨_, List.mem_of_getElem? (cells_test ..), by simp⟩
  · exact face_of_dead hp (cells_exit ..) hdead
  · have hlast := face_of_last hp
    rwa [hlen] at hlast

omit h hlaid in
/-- The loop's own code and edges are taken out. -/
theorem strip_run : ∃ info g₁, (strip (candidate pre)).run g =
      .ok (info, (lead pre 1).length) g₁ ∧ Shows (trimmed pre key body exit) g g₁ ∧
    info.kind = .doUntil := by
  have hsize : (wired pre key body test exit).length ≤ g.nodes.size := by
    rw [hp.size, length_cells]
    simp [wired]
  have htrimmed : Shows (trimmed pre key body exit) g (cutBlock (candidate pre).tail 1 g) := by
    have hset : (wired pre key body test exit).set (candidate pre).tail ⟨body ++ key, none, []⟩ =
        trimmed pre key body exit := by simp [wired, trimmed, candidate]
    rw [← hset]
    exact (shows_wired hp).cutBlock hsize (c := ⟨body ++ key, some test,
      [(lead pre 1).length + 1, (lead pre 1).length]⟩) (by simp [wired, candidate])
      [test] (by simp [Cell.instrs]) rfl rfl
  exact ⟨_, _, strip_doUntil rfl, htrimmed, rfl⟩

omit hlaid hp in
/-- The analysis folds the loop. -/
theorem analyze_eq (hcode : code.Single) (hord : ∀ i ∈ pre ++ key ++ body, i.Ordinary)
    (hkey : key ≠ []) (layout : TryCatch.Layout) : ∃ g info, analyze code layout = .ok g ∧
      Folded (trimmed pre key body exit) code (candidate pre) info (lead pre 1).length g ∧
      info.kind = .doUntil := by
  obtain ⟨hlaid, hplain⟩ := h.outlines hcode hord
  have hlen := length_cells pre key body test exit
  obtain ⟨base, g, hbase, hfound, hp⟩ := exists_planted hlaid (by simp [cells])
  obtain ⟨info, g₁, hstrip, hshows, hinfo⟩ := strip_run hp
  have hbreak : ∀ t, breakTarget? (candidate pre) = some t →
      t ≤ (cells pre key body test exit).length := by
    rintro t ht
    cases ht
    rw [hlen]
    exact Nat.le_succ _
  have hquiet : EachFrom (fun j d => (candidate pre).head ≤ j → j < (candidate pre).next →
      ∀ t, breakTarget? (candidate pre) = some t ∨ t = (candidate pre).head → t ∉ d.nexts) 0
      (trimmed pre key body exit) := by
    rw [trimmed, eachFrom_append, Nat.zero_add]
    refine ⟨eachFrom_lead fun _ hone hlow => ?_, fun _ _ _ _ => List.not_mem_nil,
      fun _ hhigh => ?_, fun _ _ _ _ => List.not_mem_nil, trivial⟩
    · exact absurd hlow (by simp [candidate, hone])
    · exact absurd hhigh (Nat.lt_irrefl _)
  have htrimmed : Cell.code (trimmed pre key body exit) = pre ++ (body ++ key) ++ [exit] := by
    rw [trimmed, code_lead_append]
    simp [Cell.code, Cell.instrs]
  have hord' : ∀ i ∈ pre ++ (body ++ key), i.Ordinary := fun i hi => hord i (by
    simp only [List.mem_append] at hi ⊢
    tauto)
  obtain ⟨g', hrun, hfolded⟩ := exists_folded hbase hfound hp hlaid hplain
    (h.candidates_eq hlaid hp hkey) hstrip hshows (by rw [hlen]; simp [trimmed])
    (Nat.lt_succ_self _) (by rw [hlen]; exact Nat.le_succ _) hbreak hquiet.getElem?
    (settled_of_code htrimmed hord' h.exits) layout
  exact ⟨g', info, hrun, hfolded, hinfo⟩

end DoUntilCode

end Loops

end GmlLift
