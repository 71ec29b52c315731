import GmlLift.Proofs.Flow.Outline

/-! # Layouts by address

The code of a layout says where control goes by addresses. When every address that its jumps name is
the start of a block or the end of the code, the numbers of the blocks follow. -/
namespace GmlLift

open GmlLift.Graph

namespace Cell

variable {cells : List Cell} {j : Nat} {c : Cell} {a : Nat}

/-- A block starts at the address, or the code ends there. -/
def Starts (cells : List Cell) (a : Nat) : Prop := ∃ k ≤ cells.length, startOf cells k = a

/-- A jump leads to the address. -/
def Targeted (cells : List Cell) (a : Nat) : Prop :=
  ∃ d ∈ cells, ∃ i, d.closing = some i ∧ i.jumps = true ∧ i.target? = some a

/-- What a block that comes after some code has to satisfy. -/
structure Sits (cells : List Cell) (before : List Instr) (c : Cell) : Prop where
  filled : c.instrs ≠ []
  straight : ∀ i ∈ c.straight, i.Straight
  opens : c.closing = none → Targeted cells (endFrom 0 (before ++ c.instrs)) ∨
    endFrom 0 (before ++ c.instrs) = endFrom 0 (code cells)
  closes : ∀ i, c.closing = some i → i.endsBlock = true ∧ i.opcode ≠ .popEnv ∧
    (i.jumps = true → i.target?.isSome = true) ∧ ∀ a ∈ i.nexts, Starts cells a

/-- A property of blocks and the code before them. -/
def EachAfter (P : List Instr → Cell → Prop) : List Instr → List Cell → Prop
  | _, [] => True
  | before, c :: rest => P before c ∧ EachAfter P (before ++ c.instrs) rest

theorem eachAfter_append {P : List Instr → Cell → Prop} {before : List Instr} {more : List Cell} :
    EachAfter P before (cells ++ more) ↔
      EachAfter P before cells ∧ EachAfter P (before ++ code cells) more := by
  induction cells generalizing before with
  | nil => simp [EachAfter, code]
  | cons c cells ih =>
    rw [List.cons_append, EachAfter, EachAfter, ih, and_assoc, List.append_assoc]
    rfl

theorem EachAfter.getElem? {P : List Instr → Cell → Prop} {before : List Instr}
    (h : EachAfter P before cells) (hj : cells[j]? = some c) :
    P (before ++ code (cells.take j)) c := by
  induction cells generalizing before j with
  | nil => cases hj
  | cons d cells ih =>
    cases j with
    | zero =>
      cases hj
      simpa [code] using h.1
    | succ j =>
      have hrest := ih h.2 hj
      rw [List.append_assoc] at hrest
      exact hrest

/-- The blocks before some point end where the next one starts. -/
theorem starts_append (left right : List Cell) : Starts (left ++ right) (endFrom 0 (code left)) :=
  ⟨left.length, by simp, by rw [startOf, List.take_left]⟩

/-- The number of the block that starts at an address. -/
def indexOf (cells : List Cell) (a : Nat) : Nat :=
  ((List.range (cells.length + 1)).find? fun k => startOf cells k == a).getD 0

theorem indexOf_spec (h : Starts cells a) :
    indexOf cells a ≤ cells.length ∧ startOf cells (indexOf cells a) = a := by
  obtain ⟨k, hk, hstart⟩ := h
  cases hfind : (List.range (cells.length + 1)).find? fun k => startOf cells k == a with
  | none =>
    have hnot := List.find?_eq_none.mp hfind k (List.mem_range.mpr (Nat.lt_succ_of_le hk))
    exact absurd (beq_iff_eq.mpr hstart) hnot
  | some m =>
    have hm : startOf cells m = a := by simpa using List.find?_some hfind
    rw [indexOf, hfind]
    exact ⟨Nat.le_of_lt_succ (List.mem_range.mp (List.mem_of_find?_eq_some hfind)), hm⟩

/-- A layout with the numbers of the blocks where control goes. -/
def resolve (cells : List Cell) : List Cell := cells.mapIdx fun j c =>
  { c with nexts := (c.closing.map fun i => i.nexts.map (indexOf cells)).getD [j + 1] }

@[simp] theorem length_resolve (cells : List Cell) : (resolve cells).length = cells.length := by
  simp [resolve]

theorem getElem?_resolve (hj : cells[j]? = some c) : (resolve cells)[j]? = some { c with
    nexts := (c.closing.map fun i => i.nexts.map (indexOf cells)).getD [j + 1] } := by
  rw [resolve, List.getElem?_mapIdx, hj]
  rfl

theorem exists_of_resolve {d : Cell} (hj : (resolve cells)[j]? = some d) : ∃ c, cells[j]? = some c ∧
    d = { c with nexts := (c.closing.map fun i => i.nexts.map (indexOf cells)).getD [j + 1] } := by
  rw [resolve, List.getElem?_mapIdx] at hj
  obtain ⟨c, hc, he⟩ := Option.map_eq_some_iff.mp hj
  exact ⟨c, hc, he.symm⟩

theorem code_take_resolve (cells : List Cell) (j : Nat) :
    code ((resolve cells).take j) = code (cells.take j) := by
  have hmap : ∀ cells : List Cell, code cells = (cells.map Cell.instrs).flatten := fun cells => by
    rw [code, List.flatMap_def]
  have hinstrs : (resolve cells).map Cell.instrs = cells.map Cell.instrs := by
    refine List.ext_getElem? fun k => ?_
    rw [List.getElem?_map, List.getElem?_map, resolve, List.getElem?_mapIdx]
    cases cells[k]? <;> rfl
  rw [hmap, hmap, List.map_take, List.map_take, hinstrs]

theorem startOf_resolve (cells : List Cell) (j : Nat) :
    startOf (resolve cells) j = startOf cells j := by
  rw [startOf, code_take_resolve, startOf]

theorem code_resolve (cells : List Cell) : code (resolve cells) = code cells := by
  have h := code_take_resolve cells cells.length
  rwa [List.take_length, ← length_resolve, List.take_length] at h

/-! ## Parts that may be empty -/

/-- The parts of a layout that hold code. -/
def filled (cells : List Cell) : List Cell := cells.filter fun c => !c.instrs.isEmpty

theorem mem_filled : c ∈ filled cells ↔ c ∈ cells ∧ c.instrs ≠ [] := by
  simp [filled]

theorem filled_append (left right : List Cell) :
    filled (left ++ right) = filled left ++ filled right := List.filter_append ..

theorem filled_eq_self (h : ∀ c ∈ cells, c.instrs ≠ []) : filled cells = cells :=
  List.filter_eq_self.mpr fun c hc => by simpa using h c hc

theorem code_filled (cells : List Cell) : code (filled cells) = code cells := by
  induction cells with
  | nil => rfl
  | cons c cells ih =>
    by_cases hc : c.instrs = []
    · have hskip : filled (c :: cells) = filled cells := by simp [filled, hc]
      rw [hskip, ih, code, code, List.flatMap_cons, hc, List.nil_append]
    · have hkeep : filled (c :: cells) = c :: filled cells := by simp [filled, hc]
      rw [hkeep, code, List.flatMap_cons, code, List.flatMap_cons]
      exact congrArg (c.instrs ++ ·) ih

theorem eachAfter_filled {P : List Instr → Cell → Prop} {before : List Instr}
    (h : EachAfter (fun before c => c.instrs ≠ [] → P before c) before cells) :
    EachAfter P before (filled cells) := by
  induction cells generalizing before with
  | nil => trivial
  | cons c cells ih =>
    obtain ⟨hc, hrest⟩ := h
    by_cases hne : c.instrs = []
    · have hskip : filled (c :: cells) = filled cells := by simp [filled, hne]
      rw [hne, List.append_nil] at hrest
      rw [hskip]
      exact ih hrest
    · have hkeep : filled (c :: cells) = c :: filled cells := by simp [filled, hne]
      rw [hkeep]
      exact ⟨hc hne, ih hrest⟩

theorem eachAfter_of_getElem? {P : List Instr → Cell → Prop} {before : List Instr}
    (h : ∀ j c, cells[j]? = some c → P (before ++ code (cells.take j)) c) :
    EachAfter P before cells := by
  induction cells generalizing before with
  | nil => trivial
  | cons d cells ih =>
    refine ⟨by simpa [code] using h 0 d rfl, ih fun j c hj => ?_⟩
    have hc := h (j + 1) c hj
    rw [List.take_succ_cons, code, List.flatMap_cons, ← List.append_assoc] at hc
    exact hc

theorem starts_filled (left right : List Cell) :
    Starts (filled (left ++ right)) (endFrom 0 (code left)) := by
  rw [filled_append, ← code_filled left]
  exact starts_append ..

theorem targeted_filled (h : Targeted cells a) : Targeted (filled cells) a := by
  obtain ⟨d, hd, i, hi, hjump⟩ := h
  exact ⟨d, mem_filled.mpr ⟨hd, by simp [Cell.instrs, hi]⟩, i, hi, hjump⟩

/-- How a part may end: control goes on behind it, to the start of some part or nowhere. -/
structure Closes (cells : List Cell) (i : Instr) : Prop where
  endsBlock : i.endsBlock = true
  popEnv : i.opcode ≠ .popEnv
  target : i.jumps = true → i.target?.isSome = true
  nexts : ∀ a ∈ i.nexts, a = i.endAddress ∨ Starts (filled cells) a

/-- What a part after some code has to satisfy if no instruction closes it: a jump leads past it, or
it is the last. -/
def Opens (cells : List Cell) (before : List Instr) (c : Cell) : Prop :=
  c.closing = none → Targeted cells (endFrom 0 (before ++ c.instrs)) ∨
    endFrom 0 (before ++ c.instrs) = endFrom 0 (code cells)

theorem closes_jump {i : Instr} (hop : i.opcode = .b ∨ i.opcode = .bt) (ht : i.target? = some a)
    (ha : Starts (filled cells) a) : Closes cells i := by
  rcases hop with hop | hop <;> constructor <;>
    simp [Instr.endsBlock, Instr.nexts, hop, ht, ha]

theorem closes_leave {i : Instr} (hop : i.opcode = .exit ∨ i.opcode = .ret) : Closes cells i := by
  rcases hop with hop | hop <;> constructor <;>
    simp [Instr.endsBlock, Instr.nexts, Instr.jumps, hop]

end Cell

open Cell

/-- Code in blocks whose jumps lead to starts of blocks is laid out in them. -/
theorem CodeEntry.Single.outlines_resolve {code : CodeEntry} (hcode : code.Single)
    {cells : List Cell} (hinstrs : code.instrs = Cell.code cells)
    (h : EachAfter (Sits cells) [] cells) : Outlines (resolve cells) code := by
  have hcontiguous : Contiguous 0 (Cell.code cells) := hinstrs ▸ hcode.contiguous
  have hsits {j : Nat} {c : Cell} (hj : cells[j]? = some c) :
      Sits cells (Cell.code (cells.take j)) c := by
    have hp := h.getElem? hj
    rwa [List.nil_append] at hp
  have hfilled : ∀ c ∈ cells, c.instrs ≠ [] := fun c hc => by
    obtain ⟨j, hj⟩ := List.getElem?_of_mem hc
    exact (hsits hj).filled
  have hmem {d : Cell} (hd : d ∈ resolve cells) : ∃ (j : Nat) (c : Cell), cells[j]? = some c ∧
      d = { c with nexts := (c.closing.map fun i => i.nexts.map (indexOf cells)).getD [j + 1] } := by
    obtain ⟨j, hj⟩ := List.getElem?_of_mem hd
    exact ⟨j, exists_of_resolve hj⟩
  refine ⟨by rw [code_resolve, hinstrs], hcode.contiguous, hcode.length, hcode.alone,
    fun d hd => ?_, fun d hd => ?_, fun j d hd => ?_, fun d hd k hk => ?_⟩
  · obtain ⟨j, c, hj, rfl⟩ := hmem hd
    exact (hsits hj).filled
  · obtain ⟨j, c, hj, rfl⟩ := hmem hd
    exact (hsits hj).straight
  · obtain ⟨c, hj, rfl⟩ := exists_of_resolve hd
    have hnext : startOf cells (j + 1) = endFrom 0 (Cell.code (cells.take j) ++ c.instrs) := by
      rw [startOf_succ hj, startOf, endFrom_append]
    rw [Cell.Ends]
    cases hclosing : c.closing with
    | none =>
      refine ⟨rfl, fun hlt => ?_⟩
      rw [length_resolve] at hlt
      rcases (hsits hj).opens hclosing with ⟨d, hd, i, hi, hjumps, htarget⟩ | hend
      · obtain ⟨k, hk⟩ := List.getElem?_of_mem hd
        refine ⟨_, List.mem_of_getElem? (getElem?_resolve hk), i, hi, hjumps, ?_⟩
        rw [htarget, startOf_resolve, hnext]
      · have hlast := startOf_lt hcontiguous hfilled hlt (Nat.le_refl _)
        rw [startOf_length, hnext, hend] at hlast
        exact absurd hlast (Nat.lt_irrefl _)
    | some i =>
      obtain ⟨hends, hpop, hjumps, hstarts⟩ := (hsits hj).closes i hclosing
      refine ⟨hends, ?_, hjumps, fun hop => absurd hop hpop⟩
      have hmap : i.nexts.map (fun a => startOf cells (indexOf cells a)) = i.nexts :=
        (List.map_congr_left fun a ha => (indexOf_spec (hstarts a ha)).2).trans (List.map_id _)
      change i.nexts = (i.nexts.map (indexOf cells)).map (startOf (resolve cells))
      rw [List.map_map, funext (startOf_resolve cells)]
      exact hmap.symm
  · obtain ⟨j, c, hj, rfl⟩ := hmem hd
    rw [length_resolve]
    cases hclosing : c.closing with
    | none =>
      have hk : k = j + 1 := by simpa [hclosing] using hk
      rw [hk]
      exact (List.getElem?_eq_some_iff.mp hj).1
    | some i =>
      have hk : k ∈ i.nexts.map (indexOf cells) := by simpa [hclosing] using hk
      obtain ⟨a, ha, rfl⟩ := List.mem_map.mp hk
      exact (indexOf_spec (((hsits hj).closes i hclosing).2.2.2 a ha)).1

/-- The same for code in parts of which some may be empty. -/
theorem CodeEntry.Single.outlines_filled {code : CodeEntry} (hcode : code.Single)
    {cells : List Cell} (hinstrs : code.instrs = Cell.code cells)
    (hstraight : ∀ c ∈ cells, ∀ i ∈ c.straight, i.Straight)
    (hcloses : ∀ c ∈ cells, ∀ i, c.closing = some i → Closes cells i)
    (hopens : EachAfter (Opens cells) [] cells) : Outlines (resolve (filled cells)) code := by
  refine hcode.outlines_resolve (hinstrs.trans (code_filled cells).symm)
    (eachAfter_filled (eachAfter_of_getElem? fun j c hj hne => ?_))
  have hc := List.mem_of_getElem? hj
  refine ⟨hne, hstraight c hc, fun hopen => ?_, fun i hi => ?_⟩
  · rw [code_filled]
    exact (hopens.getElem? hj hopen).imp_left targeted_filled
  · obtain ⟨hends, hpop, htarget, hnexts⟩ := hcloses c hc i hi
    refine ⟨hends, hpop, htarget, fun a ha => (hnexts a ha).elim (fun he => ?_) id⟩
    have hend : endFrom 0 (Cell.code (cells.take (j + 1))) = i.endAddress :=
      (startOf_succ hj).trans (endFrom_getLast _ (getLast?_closing hi))
    have hstart := starts_filled (cells.take (j + 1)) (cells.drop (j + 1))
    rwa [List.take_append_drop, hend, ← he] at hstart

namespace Outlined

variable {cells : List Cell} {g : Graph} {j : Nat} (h : Outlined (resolve cells) g)
include h

theorem instrs_resolve {c : Cell} (hj : cells[j]? = some c) : g.instrs j = c.instrs := by
  have he := congrArg Node.instrs (h.face j _ (getElem?_resolve hj))
  exact he

theorem instrs_of_length_le (hj : cells.length ≤ j) : g.instrs j = [] := by
  have hsize : g.nodes.size = cells.length + 1 := by rw [h.size, length_resolve]
  rcases Nat.lt_or_eq_of_le hj with hlt | rfl
  · rw [Graph.instrs, node_of_size_le (by omega)]
    rfl
  · have he := congrArg Node.instrs h.last
    rw [length_resolve] at he
    exact he

theorem blocks_resolve : g.blocks = List.range (cells.length + 1) := by
  rw [h.blocks, length_resolve]

theorem start_resolve (hj : j ≤ cells.length) : (g.node j).start = startOf cells j := by
  rcases Nat.lt_or_eq_of_le hj with hlt | rfl
  · have he := congrArg Node.start (h.face j _ (getElem?_resolve (List.getElem?_eq_getElem hlt)))
    exact (show (g.node j).start = _ from he).trans (startOf_resolve cells j)
  · have he := congrArg Node.start h.last
    rw [length_resolve, startOf_resolve] at he
    exact he

/-- An address where a part starts is the start of a block. -/
theorem exists_block {a : Nat} (ha : Starts cells a) : ∃ b ∈ g.blocks, (g.node b).start = a := by
  obtain ⟨k, hk, rfl⟩ := ha
  exact ⟨k, by rw [h.blocks_resolve, List.mem_range]; omega, h.start_resolve hk⟩

theorem kind_resolve (i : NodeId) : ∃ is, (g.node i).kind = .block is ∨ (g.node i).kind = .empty := by
  have hsize : g.nodes.size = cells.length + 1 := by rw [h.size, length_resolve]
  rcases Nat.lt_trichotomy i cells.length with hlt | rfl | hlt
  · have he := congrArg Node.kind (h.face i _ (getElem?_resolve (List.getElem?_eq_getElem hlt)))
    exact ⟨_, .inl he⟩
  · have he := congrArg Node.kind h.last
    rw [length_resolve] at he
    exact ⟨_, .inl he⟩
  · rw [node_of_size_le (show g.nodes.size ≤ i by omega)]
    exact ⟨[], .inr rfl⟩

end Outlined

end GmlLift
