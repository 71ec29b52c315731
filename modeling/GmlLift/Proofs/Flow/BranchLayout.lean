import GmlLift.Proofs.Flow.LoopLayouts

/-! # The layout of nested conditionals

Conditionals stand in each other and after one another. Their code is a tree of blocks: a block that
jumps on false leads to its true branch, behind that to the else branch if there is one, and behind
both to the rest. Where code is laid out so, the search for blocks finds the blocks of the tree. -/
namespace GmlLift

open GmlLift.Graph Cell Pass

/-- Straight code that no pass before that for conditionals looks for. -/
structure Instr.Unmarked (i : Instr) : Prop extends Instr.Ordinary i where
  notResult : ¬ (i.opcode = .push ∧ i.type1 = .int16)

theorem ShortCircuit.result?_eq_none {g : Graph} {block : NodeId}
    (h : ∀ i ∈ g.instrs block, ¬ (i.opcode = .push ∧ i.type1 = .int16)) : result? g block = none := by
  unfold result?
  split
  · rename_i i hi
    exact if_neg (h i (by rw [hi]; simp))
  · rfl

namespace Branch

/-- A tree of the blocks of nested conditionals. -/
inductive Nest where
  /-- No block. -/
  | done
  /-- The last block, with the instruction that closes it if there is one. -/
  | last (straight : List Instr) (closing : Option Instr)
  /-- A block that goes on with its second branch on false, which is empty where there is no
  `else`, and then the rest. -/
  | cond (straight : List Instr) (skip : Instr) (onTrue onFalse rest : Nest)

namespace Nest

def count : Nest → Nat
  | done => 0
  | last .. => 1
  | cond _ _ onTrue onFalse rest => 1 + onTrue.count + onFalse.count + rest.count

def code : Nest → List Instr
  | done => []
  | last is closing => is ++ closing.toList
  | cond is skip onTrue onFalse rest => is ++ skip :: (onTrue.code ++ onFalse.code ++ rest.code)

/-- How the last block is closed, if there is one. -/
def final : Nest → Option (Option Instr)
  | done => none
  | last _ closing => some closing
  | cond _ _ _ _ rest => rest.final

/-- Control goes on behind the code. -/
def Open (s : Nest) : Prop := ∀ i, s.final ≠ some (some i)

/-- The blocks, numbered from `j` on. The last one leads to those given. -/
def cells : Nest → (j : Nat) → (out : List NodeId) → List Cell
  | done, _, _ => []
  | last is closing, _, out => [⟨is, closing, out⟩]
  | cond is skip onTrue onFalse rest, j, out =>
    let other := j + 1 + onTrue.count
    let after := other + onFalse.count
    ⟨is, some skip, [j + 1, other]⟩ :: (onTrue.cells (j + 1) [after] ++
      (onFalse.cells other [after] ++ rest.cells after out))

/-- The first branch jumps over the second one, where there is one. -/
def Joins (onTrue onFalse : Nest) (after : Nat) : Prop :=
  onFalse = done ∧ onTrue.Open ∨ onFalse ≠ done ∧
    ∃ jump, onTrue.final = some (some jump) ∧ jump.opcode = .b ∧ jump.target? = some after

/-- The jumps of conditionals lead where they must, in code that starts at an address. -/
def Laid : Nest → (start : Nat) → Prop
  | done, _ => True
  | last is closing, _ => (∀ i ∈ is, i.Unmarked) ∧ is ++ closing.toList ≠ []
  | cond is skip onTrue onFalse rest, start =>
    let inner := endFrom start (is ++ [skip])
    let other := endFrom inner onTrue.code
    let after := endFrom other onFalse.code
    (∀ i ∈ is, i.Unmarked) ∧ skip.opcode = .bf ∧ skip.target? = some other ∧
      Joins onTrue onFalse after ∧ onFalse.Open ∧
      onTrue.Laid inner ∧ onFalse.Laid other ∧ rest.Laid after

@[simp] theorem length_cells (s : Nest) (j : Nat) (out : List NodeId) :
    (s.cells j out).length = s.count := by
  induction s generalizing j out with
  | done | last => rfl
  | cond is skip onTrue onFalse rest iht ihf ihr =>
    simp only [cells, count, List.length_cons, List.length_append, iht, ihf, ihr]
    omega

theorem code_cells (s : Nest) (j : Nat) (out : List NodeId) : Cell.code (s.cells j out) = s.code := by
  have hfirst : ∀ (c : Cell) cs, Cell.code (c :: cs) = c.instrs ++ Cell.code cs := fun _ _ => rfl
  have happend : ∀ a b : List Cell, Cell.code (a ++ b) = Cell.code a ++ Cell.code b := fun _ _ =>
    List.flatMap_append
  induction s generalizing j out with
  | done => rfl
  | last is closing => simp [cells, code, Cell.code, Cell.instrs]
  | cond is skip onTrue onFalse rest iht ihf ihr =>
    simp [cells, code, hfirst, happend, iht, ihf, ihr, Cell.instrs]

theorem open_done : done.Open := fun _ h => by cases h

theorem Open.final_eq {s : Nest} (h : s.Open) {closing : Option Instr}
    (hf : s.final = some closing) : closing = none := by
  cases closing with
  | none => rfl
  | some i => exact absurd hf (h i)

/-- The last block of a tree leads out. -/
theorem exists_final {s : Nest} {closing : Option Instr} (h : s.final = some closing) (j : Nat)
    (out : List NodeId) : ∃ c ∈ s.cells j out, c.closing = closing ∧ c.nexts = out := by
  induction s generalizing j with
  | done => cases h
  | last is c =>
    cases h
    exact ⟨_, List.mem_singleton_self _, rfl, rfl⟩
  | cond is skip onTrue onFalse rest _ _ ihr =>
    obtain ⟨c, hc, hlast⟩ := ihr h (j + 1 + onTrue.count + onFalse.count)
    exact ⟨c, by simp [cells, hc], hlast⟩

theorem count_pos_of_final {s : Nest} {closing : Option Instr} (h : s.final = some closing) :
    0 < s.count := by
  obtain ⟨c, hc, -, -⟩ := exists_final h 0 []
  have hpos := List.length_pos_of_mem hc
  rwa [length_cells] at hpos

end Nest

/-! ## Blocks in their places -/

/-- Blocks stand in a layout from number `j` on. -/
def Placed (all : List Cell) (j : Nat) (cs : List Cell) : Prop :=
  EachFrom (fun k c => all[k]? = some c) j cs

section

variable {all : List Cell} {j : Nat}

theorem startOf_placed {cs : List Cell} (h : Placed all j cs) :
    startOf all (j + cs.length) = endFrom (startOf all j) (Cell.code cs) := by
  induction cs generalizing j with
  | nil => rfl
  | cons c cs ih =>
    have hcode : Cell.code (c :: cs) = c.instrs ++ Cell.code cs := rfl
    rw [hcode, endFrom_append, ← startOf_succ h.1, ← ih h.2, List.length_cons, Nat.add_right_comm,
      Nat.add_assoc]

theorem mem_of_placed {cs : List Cell} (h : Placed all j cs) {c : Cell} (hc : c ∈ cs) : c ∈ all := by
  obtain ⟨k, hk⟩ := List.getElem?_of_mem hc
  exact List.mem_of_getElem? (eachFrom_iff.mp h k c hk)

namespace Nest

/-- Where the code of a tree ends. -/
theorem startOf_nest {s : Nest} {out : List NodeId} (h : Placed all j (s.cells j out)) :
    startOf all (j + s.count) = endFrom (startOf all j) s.code := by
  have hend := startOf_placed h
  rwa [length_cells, code_cells] at hend

variable {is : List Instr} {skip : Instr} {onTrue onFalse rest : Nest} {out : List NodeId}

/-- A property of all blocks of a conditional. -/
theorem eachFrom_cond {P : Nat → Cell → Prop} :
    EachFrom P j ((cond is skip onTrue onFalse rest).cells j out) ↔
      P j ⟨is, some skip, [j + 1, j + 1 + onTrue.count]⟩ ∧
        EachFrom P (j + 1) (onTrue.cells (j + 1) [j + 1 + onTrue.count + onFalse.count]) ∧
        EachFrom P (j + 1 + onTrue.count)
          (onFalse.cells (j + 1 + onTrue.count) [j + 1 + onTrue.count + onFalse.count]) ∧
        EachFrom P (j + 1 + onTrue.count + onFalse.count)
          (rest.cells (j + 1 + onTrue.count + onFalse.count) out) := by
  rw [cells, EachFrom, eachFrom_append, eachFrom_append, length_cells, length_cells]

/-- The jumps of a placed conditional, by the blocks that they lead to. -/
theorem laid_cond (hp : Placed all j ((cond is skip onTrue onFalse rest).cells j out)) :
    (cond is skip onTrue onFalse rest).Laid (startOf all j) ↔
      (∀ i ∈ is, i.Unmarked) ∧ skip.opcode = .bf ∧
        skip.target? = some (startOf all (j + 1 + onTrue.count)) ∧
        Joins onTrue onFalse (startOf all (j + 1 + onTrue.count + onFalse.count)) ∧ onFalse.Open ∧
        onTrue.Laid (startOf all (j + 1)) ∧ onFalse.Laid (startOf all (j + 1 + onTrue.count)) ∧
        rest.Laid (startOf all (j + 1 + onTrue.count + onFalse.count)) := by
  obtain ⟨hhead, htrue, hfalse, -⟩ := eachFrom_cond.mp hp
  have hinner : startOf all (j + 1) = endFrom (startOf all j) (is ++ [skip]) := startOf_succ hhead
  rw [startOf_nest hfalse, startOf_nest htrue, hinner]
  rfl

/-- Control falls out of an open tree into the block behind it, which a jump leads to. -/
theorem Open.ends {s : Nest} (h : s.Open) {next : Nat} (hnext : next = j + s.count) {d : Cell}
    (hd : d ∈ all) {i : Instr} (hi : d.closing = some i) (hj : i.jumps = true)
    (ht : i.target? = some (startOf all next)) (is : List Instr) (closing : Option Instr)
    (hf : s.final = some closing) : Ends all (j + s.count - 1) ⟨is, closing, [next]⟩ := by
  obtain rfl := h.final_eq hf
  have hpos := count_pos_of_final hf
  have he : j + s.count - 1 + 1 = next := by omega
  refine ends_open rfl (by rw [he]) fun _ => ⟨d, hd, i, hi, hj, by rw [he, ht]⟩

/-- The blocks of a tree are blocks of a layout. -/
theorem fits {s : Nest} (hp : Placed all j (s.cells j out)) (hl : s.Laid (startOf all j))
    (hbound : j + s.count ≤ all.length) (hout : ∀ k ∈ out, k ≤ all.length)
    (hend : ∀ is closing, s.final = some closing → Ends all (j + s.count - 1) ⟨is, closing, out⟩) :
    EachFrom (Cell.Fits all) j (s.cells j out) := by
  induction s generalizing j out with
  | done => trivial
  | last is closing =>
    have hends := hend is closing rfl
    exact ⟨⟨hl.2, fun i hi => (hl.1 i hi).toOrdinary, hends, hout⟩, trivial⟩
  | cond is skip onTrue onFalse rest iht ihf ihr =>
    obtain ⟨hord, hop, htarget, hjoins, hopen, hltrue, hlfalse, hlrest⟩ := (laid_cond hp).mp hl
    obtain ⟨hhead, htrue, hfalse, hrest⟩ := eachFrom_cond.mp hp
    rw [count] at hbound hend
    have hnexts : ∀ k ∈ [j + 1, j + 1 + onTrue.count], k ≤ all.length := by
      intro k hk
      simp only [List.mem_cons, List.not_mem_nil, or_false] at hk
      omega
    have hmeet : ∀ k ∈ [j + 1 + onTrue.count + onFalse.count], k ≤ all.length := by
      simp only [List.mem_singleton, forall_eq]
      omega
    refine eachFrom_cond.mpr ⟨⟨by simp [Cell.instrs], fun i hi => (hord i hi).toOrdinary,
      ends_twoWay hhead rfl (by simp [hop]) htarget rfl, hnexts⟩, ?_, ?_, ?_⟩
    · refine iht htrue hltrue (by omega) hmeet fun is closing hf => ?_
      rcases hjoins with ⟨rfl, htopen⟩ | ⟨-, jump, hfinal, hjump, hover⟩
      · exact htopen.ends rfl (List.mem_of_getElem? hhead) rfl (by simp [Instr.jumps, hop]) htarget
          is closing hf
      · obtain rfl : some jump = closing := Option.some.inj (hfinal.symm.trans hf)
        exact ends_jump rfl hjump hover rfl
    · refine ihf hfalse hlfalse (by omega) hmeet fun is closing hf => ?_
      rcases hjoins with ⟨rfl, -⟩ | ⟨-, jump, hfinal, hjump, hover⟩
      · cases hf
      · obtain ⟨d, hd, hclosing, -⟩ := exists_final hfinal (j + 1)
          [j + 1 + onTrue.count + onFalse.count]
        exact hopen.ends rfl (mem_of_placed htrue hd) hclosing (by simp [Instr.jumps, hjump]) hover
          is closing hf
    · refine ihr hrest hlrest (by omega) hout fun is closing hf => ?_
      have hends := hend is closing hf
      have hindex : j + (1 + onTrue.count + onFalse.count + rest.count) - 1 =
          j + 1 + onTrue.count + onFalse.count + rest.count - 1 := by
        omega
      rwa [hindex] at hends

/-! ## Which blocks are entered -/

/-- Every block but the first is entered. -/
theorem entered {s : Nest} {start : Nat} (hl : s.Laid start) (hp : Placed all j (s.cells j out))
    {k : Nat} (hlow : j < k) (hhigh : k < j + s.count) : Entered all k := by
  induction s generalizing j out start with
  | done | last => simp only [count] at hhigh; omega
  | cond is skip onTrue onFalse rest iht ihf ihr =>
    obtain ⟨-, -, -, hjoins, -, hltrue, hlfalse, hlrest⟩ := hl
    obtain ⟨hhead, htrue, hfalse, hrest⟩ := eachFrom_cond.mp hp
    have hentered : k ∈ [j + 1, j + 1 + onTrue.count] → Entered all k := fun hk =>
      ⟨_, List.mem_of_getElem? hhead, hk⟩
    simp only [List.mem_cons, List.not_mem_nil, or_false] at hentered
    rw [count] at hhigh
    by_cases hk : k = j + 1 ∨ k = j + 1 + onTrue.count
    · exact hentered hk
    · rcases Nat.lt_trichotomy k (j + 1 + onTrue.count + onFalse.count) with hlt | rfl | hgt
      · rcases Nat.lt_or_ge k (j + 1 + onTrue.count) with hlt' | hge
        · exact iht hltrue htrue (by omega) hlt'
        · exact ihf hlfalse hfalse (by omega) hlt
      · rcases hjoins with ⟨rfl, -⟩ | ⟨-, jump, hfinal, -, -⟩
        · exact absurd (.inr rfl) hk
        · obtain ⟨d, hd, -, hnexts⟩ := exists_final hfinal (j + 1)
            [j + 1 + onTrue.count + onFalse.count]
          exact ⟨d, mem_of_placed htrue hd, by rw [hnexts]; exact List.mem_singleton_self _⟩
      · exact ihr hlrest hrest (by omega) (by omega)

/-- Each block leads on inside of the tree, or it leads out. -/
theorem mem_nexts {s : Nest} {c : Cell} (hc : c ∈ s.cells j out) {k : Nat} (hk : k ∈ c.nexts) :
    k ∈ out ∨ k < j + s.count ∨ s.final = none ∧ k = j + s.count := by
  induction s generalizing j out with
  | done => cases hc
  | last is closing =>
    rw [List.mem_singleton.mp hc] at hk
    exact .inl hk
  | cond is skip onTrue onFalse rest iht ihf ihr =>
    have hrest : rest.count = 0 → rest.final = none := fun h0 => by
      cases hf : rest.final with
      | none => rfl
      | some closing => exact absurd (count_pos_of_final hf) (by omega)
    rw [cells, List.mem_cons, List.mem_append, List.mem_append] at hc
    rw [count, final]
    rcases hc with rfl | hc | hc | hc
    · simp only [List.mem_cons, List.not_mem_nil, or_false] at hk
      grind
    · have := iht hc
      simp only [List.mem_singleton] at this
      grind
    · have := ihf hc
      simp only [List.mem_singleton] at this
      grind
    · have := ihr hc
      grind

/-- Blocks lead ahead. -/
theorem ahead {s : Nest} (hout : ∀ n ∈ out, j + s.count ≤ n) :
    EachFrom (fun k c => ∀ n ∈ c.nexts, k < n) j (s.cells j out) := by
  induction s generalizing j out with
  | done => trivial
  | last is closing => exact ⟨hout, trivial⟩
  | cond is skip onTrue onFalse rest iht ihf ihr =>
    rw [count] at hout
    refine eachFrom_cond.mpr ⟨fun n hn => ?_, iht fun n hn => ?_, ihf fun n hn => ?_,
      ihr fun n hn => ?_⟩
    · simp only [List.mem_cons, List.not_mem_nil, or_false] at hn
      rcases hn with rfl | rfl <;> omega
    · rw [List.mem_singleton.mp hn]
      omega
    · exact Nat.le_of_eq (List.mem_singleton.mp hn).symm
    · have := hout n hn
      omega

/-- A block is straight code and what closes it, which is a jump of a conditional or closes the
tree. -/
theorem of_mem_cells {s : Nest} {start : Nat} (hl : s.Laid start) {c : Cell}
    (hc : c ∈ s.cells j out) : (∀ i ∈ c.straight, i.Unmarked) ∧
      ∀ i, c.closing = some i → i.opcode = .bf ∨ i.opcode = .b ∨ s.final = some (some i) := by
  induction s generalizing j out start with
  | done => cases hc
  | last is closing =>
    obtain rfl := List.mem_singleton.mp hc
    exact ⟨hl.1, fun i hi => .inr (.inr (congrArg some hi))⟩
  | cond is skip onTrue onFalse rest iht ihf ihr =>
    obtain ⟨hplain, hop, -, hjoins, hopen, hltrue, hlfalse, hlrest⟩ := hl
    rw [cells, List.mem_cons, List.mem_append, List.mem_append] at hc
    rcases hc with rfl | hc | hc | hc
    · refine ⟨hplain, fun i hi => ?_⟩
      cases hi
      exact .inl hop
    · obtain ⟨hstraight, hclosing⟩ := iht hltrue hc
      refine ⟨hstraight, fun i hi => (hclosing i hi).imp_right fun h => h.elim .inl fun h => ?_⟩
      rcases hjoins with ⟨-, htopen⟩ | ⟨-, jump, hfinal, hjump, -⟩
      · exact absurd h (htopen i)
      · obtain rfl : jump = i := Option.some.inj (Option.some.inj (hfinal.symm.trans h))
        exact .inl hjump
    · obtain ⟨hstraight, hclosing⟩ := ihf hlfalse hc
      exact ⟨hstraight, fun i hi => (hclosing i hi).imp_right (·.imp_right fun h => absurd h (hopen i))⟩
    · exact ihr hlrest hc

end Nest

end

/-! ## Before conditionals are folded -/

/-- The blocks of code that an `exit` ends. -/
def Nest.blocks (s : Nest) : List Cell := s.cells 0 []

/-- Code of nested conditionals that an `exit` ends. -/
structure NestCode (s : Nest) (code : CodeEntry) : Prop where
  single : code.Single
  instrs : code.instrs = s.code
  laid : s.Laid 0
  exits : ∃ exit, s.final = some (some exit) ∧ exit.opcode = .exit

namespace NestCode

variable {s : Nest} {code : CodeEntry} (h : NestCode s code)

theorem placed (s : Nest) : Placed s.blocks 0 (s.cells 0 []) :=
  eachFrom_iff.mpr fun k c hc => by rwa [Nat.zero_add]

include h

theorem fits : EachFrom (Cell.Fits s.blocks) 0 s.blocks := by
  obtain ⟨exit, hfinal, hop⟩ := h.exits
  refine Nest.fits (placed s) h.laid (by simp [Nest.blocks]) (List.forall_mem_nil _) fun is closing hf => ?_
  obtain rfl : some exit = closing := Option.some.inj (hfinal.symm.trans hf)
  exact ends_exit rfl hop rfl

/-- The code is cut into the blocks of the tree. -/
theorem outlines : Outlines s.blocks code ∧ ∀ c ∈ s.blocks, ∀ i ∈ c.straight, i.Ordinary :=
  h.single.outlines (h.instrs.trans (Nest.code_cells ..).symm) h.fits

theorem closing_cases {c : Cell} (hc : c ∈ s.blocks) {i : Instr} (hi : c.closing = some i) :
    i.opcode = .bf ∨ i.opcode = .b ∨ i.opcode = .exit := by
  obtain ⟨exit, hfinal, hop⟩ := h.exits
  refine ((Nest.of_mem_cells h.laid hc).2 i hi).imp_right (·.imp_right fun hf => ?_)
  obtain rfl : exit = i := Option.some.inj (Option.some.inj (hfinal.symm.trans hf))
  exact hop

/-- What holds of straight code and of the jumps of conditionals, every instruction satisfies. -/
theorem forall_instrs {p : Instr → Prop} (hplain : ∀ i : Instr, i.Unmarked → p i)
    (hclosing : ∀ i : Instr, i.opcode = .bf ∨ i.opcode = .b ∨ i.opcode = .exit → p i) :
    ∀ c ∈ s.blocks, ∀ i ∈ c.instrs, p i := by
  intro c hc i hi
  rcases List.mem_append.mp hi with hi | hi
  · exact hplain i ((Nest.of_mem_cells h.laid hc).1 i hi)
  · exact hclosing i (h.closing_cases hc (Option.mem_toList.mp hi))

theorem notResult : ∀ c ∈ s.blocks, ∀ i ∈ c.instrs, ¬ (i.opcode = .push ∧ i.type1 = .int16) :=
  h.forall_instrs (fun _ hi => hi.notResult) fun i hop => by
    rcases hop with hop | hop | hop <;> simp [hop]

theorem hook : ∀ c ∈ s.blocks, ∀ i ∈ c.instrs, i.isCallTo Hook.try_ = false :=
  h.forall_instrs (fun _ hi => hi.hook) fun i hop => by
    rcases hop with hop | hop | hop <;> simp [Instr.isCallTo, hop]

theorem opcode_ne_bt : ∀ c ∈ s.blocks, ∀ i ∈ c.instrs, i.opcode ≠ .bt :=
  h.forall_instrs (fun i hi hop => by
    have hends := hi.endsBlock
    simp [Instr.endsBlock, hop] at hends)
    fun i hop => by rcases hop with hop | hop | hop <;> simp [hop]

/-- No block opens or closes a loop. -/
theorem kind?_closing {j : Nat} {c : Cell} (hj : s.blocks[j]? = some c) {i : Instr}
    (hi : c.closing = some i) : Loops.kind? i = none := by
  have hlaid := h.outlines.1
  have heach : EachFrom (fun k c => ∀ n ∈ c.nexts, k < n) 0 s.blocks := Nest.ahead (List.forall_mem_nil _)
  have hahead := heach.getElem? j c hj
  have hends := hlaid.ends j c hj
  rw [Cell.Ends, hi] at hends
  have hlead : ∀ t, i.target? = some t → t ∈ i.nexts → i.address < t := by
    intro t ht hmem
    rw [hends.2.1] at hmem
    obtain ⟨k, hk, rfl⟩ := List.mem_map.mp hmem
    exact Loops.lt_startOf hlaid hj hi (hahead k hk) (hlaid.nexts c (List.mem_of_getElem? hj) k hk)
  rcases h.closing_cases (List.mem_of_getElem? hj) hi with hop | hop | hop
  · obtain ⟨t, ht⟩ := Option.isSome_iff_exists.mp (hends.2.2.1 (by simp [Instr.jumps, hop]))
    exact Loops.kind?_ahead (by simp [hop]) ht (hlead t ht (by simp [Instr.nexts, hop, ht]))
  · obtain ⟨t, ht⟩ := Option.isSome_iff_exists.mp (hends.2.2.1 (by simp [Instr.jumps, hop]))
    exact Loops.kind?_ahead (by simp [hop]) ht (hlead t ht (by simp [Instr.nexts, hop, ht]))
  · exact Loops.kind?_exit hop

/-- Before conditionals are folded, the graph of the code is that of the blocks of its tree. -/
theorem exists_planted : ∃ g, Planted s.blocks code g ∧ ∀ layout found g',
    findBranches.run g = .ok found g' → analyze code layout = .ok g' := by
  obtain ⟨hlaid, hord⟩ := h.outlines
  obtain ⟨exit, hfinal, -⟩ := h.exits
  have hne : s.blocks ≠ [] := by
    intro hnil
    have hpos := Nest.count_pos_of_final hfinal
    rw [← Nest.length_cells s 0 [], ← Nest.blocks, hnil] at hpos
    exact Nat.lt_irrefl 0 hpos
  obtain ⟨base, g, hbase, hfound, hp⟩ := hlaid.sketches.exists_planted hne
  refine ⟨g, hp, fun layout found g' hrun => analyze_of_run hbase ?_⟩
  have hloops : findLoops.run g = .ok [] g := by
    refine findLoops_idle fun b hb => hp.kind?_eq_none hlaid.endsBlock (t := s.blocks.length + 1)
      (eachFrom_iff.mpr fun k c hc i hi _ => h.kind?_closing hc hi) hb ?_
    rw [hp.blocks, List.mem_range] at hb
    exact Nat.ne_of_lt hb
  have hresult : findShortCircuits.run g = .ok [] g := by
    refine findShortCircuits_idle fun b hb op hop => ?_
    rw [ShortCircuit.result?_eq_none (hp.forall_instrs h.notResult hb)] at hop
    cases hop
  have hhandlers : (findTryCatch layout).run g = .ok [] g :=
    findTryCatch_idle (fun b hb => TryCatch.hook?_eq_none (hp.forall_instrs h.hook hb)) layout
  have hswitches : findSwitches.run g = .ok [] g :=
    findSwitches_idle fun b hb => Switch.candidate?_eq_none fun i hi =>
      hp.forall_instrs h.opcode_ne_bt hb i (List.mem_of_getLast? hi)
  rw [foldConstructs, run_bind_ok hfound, run_bind_ok (hp.findStaticInits hlaid hord),
    run_bind_ok (hp.findNullish hlaid hord), run_bind_ok hloops, run_bind_ok hresult,
    run_bind_ok hhandlers, run_bind_ok hswitches, run_bind_ok hrun]
  rfl

end NestCode

end Branch
end GmlLift
