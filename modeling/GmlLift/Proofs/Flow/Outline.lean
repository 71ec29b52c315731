import GmlLift.Proofs.Flow.ControlFlow
import GmlLift.Proofs.Flow.Faces
import GmlLift.Proofs.Flow.SplitPoints

/-! # The block graph of laid out code

A layout says of what blocks code is made and where each of them leads. When the instructions bear
that out, the search for blocks finds exactly those blocks, and every node of its graph is known. -/
namespace GmlLift

open GmlLift.Graph

/-- Control goes on to the next instruction, and no exception handler begins or ends. -/
structure Instr.Straight (i : Instr) : Prop where
  endsBlock : i.endsBlock = false
  hook : i.isCallTo Hook.try_ = false
  finish : i.isCallTo Hook.finishFinally = false

instance (i : Instr) : Decidable i.Straight :=
  decidable_of_iff (i.endsBlock = false ∧ i.isCallTo Hook.try_ = false ∧
    i.isCallTo Hook.finishFinally = false)
    ⟨fun ⟨h, h', h''⟩ => ⟨h, h', h''⟩, fun ⟨h, h', h''⟩ => ⟨h, h', h''⟩⟩

theorem Instr.endsBlock_of_jumps {i : Instr} (h : i.jumps = true) :
    i.endsBlock = true ∧ i.opcode.hasOffset = true := by
  obtain ⟨_, op, _, _, _, _⟩ := i
  cases op <;> first | exact ⟨rfl, rfl⟩ | cases h

/-- A block of a layout: straight code, the instruction that ends it if there is one, and the numbers
of the blocks where control goes. -/
structure Cell where
  straight : List Instr
  closing : Option Instr := none
  nexts : List NodeId

namespace Cell

def instrs (c : Cell) : List Instr := c.straight ++ c.closing.toList

/-- The code of a layout. -/
def code (cells : List Cell) : List Instr := cells.flatMap instrs

/-- Where a block starts. The number after the last one is that of the end of the code. -/
def startOf (cells : List Cell) (j : Nat) : Nat := endFrom 0 (code (cells.take j))

/-- Some block leads there. -/
def Entered (cells : List Cell) (j : Nat) : Prop := ∃ c ∈ cells, j ∈ c.nexts

instance (cells : List Cell) (j : Nat) : Decidable (Entered cells j) :=
  inferInstanceAs (Decidable (∃ c ∈ cells, _))

/-- How a block ends. One without a closing instruction ends because a jump leads past it. -/
def Ends (cells : List Cell) (j : Nat) (c : Cell) : Prop := match c.closing with
  | none => c.nexts = [j + 1] ∧ (j + 1 < cells.length → ∃ d ∈ cells, ∃ i, d.closing = some i ∧
      i.jumps = true ∧ i.target? = some (startOf cells (j + 1)))
  | some i => i.endsBlock = true ∧ i.nexts = c.nexts.map (startOf cells) ∧
      (i.jumps = true → i.target?.isSome = true) ∧
      (i.opcode = .popEnv → ∀ t, i.target? = some t → ∃ k ≤ cells.length, t = startOf cells k)

end Cell

open Cell

/-- The code of an entry that holds no other entry. -/
structure CodeEntry.Single (code : CodeEntry) : Prop where
  contiguous : Contiguous 0 code.instrs
  length : endOf code.instrs = code.length
  alone : code.descendants = []

/-- The code of an entry is laid out in the given blocks. -/
structure Outlines (cells : List Cell) (code : CodeEntry) : Prop where
  instrs : code.instrs = Cell.code cells
  contiguous : Contiguous 0 code.instrs
  length : CodeEntry.endOf code.instrs = code.length
  entries : code.descendants = []
  filled : ∀ c ∈ cells, c.instrs ≠ []
  straight : ∀ c ∈ cells, ∀ i ∈ c.straight, i.Straight
  ends : ∀ j c, cells[j]? = some c → Ends cells j c
  nexts : ∀ c ∈ cells, ∀ k ∈ c.nexts, k ≤ cells.length

/-- The blocks of a layout start where the code of an entry asks to be cut, and control goes from
them where the layout says. -/
structure Sketches (cells : List Cell) (code : CodeEntry) : Prop where
  instrs : code.instrs = Cell.code cells
  contiguous : Contiguous 0 code.instrs
  length : CodeEntry.endOf code.instrs = code.length
  entries : code.descendants = []
  filled : ∀ c ∈ cells, c.instrs ≠ []
  points : ∃ asked, Blocks.splitsFrom [] code.instrs = .ok asked ∧
    (∀ p ∈ asked, ∃ k ≤ cells.length, p = startOf cells k) ∧
    ∀ k, 0 < k → k < cells.length → startOf cells k ∈ asked
  leads : ∀ j c, cells[j]? = some c → ∀ n : Node, n.instrs = c.instrs →
    n.stop = startOf cells (j + 1) → Blocks.exits n = c.nexts.map (startOf cells)
  nexts : ∀ c ∈ cells, ∀ k ∈ c.nexts, k ≤ cells.length

/-- A graph of the blocks of a layout, with an empty one at the end and dead code hung after the
block before it. -/
structure Outlined (cells : List Cell) (g : Graph) : Prop where
  sound : g.Sound
  size : g.nodes.size = cells.length + 1
  blocks : g.blocks = List.range (cells.length + 1)
  fragments : g.fragments = []
  loops : g.loops = []
  codeLength : g.codeLength = startOf cells cells.length
  face : ∀ j c, cells[j]? = some c → g.face j =
    { start := startOf cells j, stop := startOf cells (j + 1), kind := .block c.instrs
      succs := c.nexts ++ if Entered cells (j + 1) then [] else [j + 1]
      unreachable := decide (0 < j ∧ ¬ Entered cells j) }
  last : g.face cells.length =
    { start := startOf cells cells.length, stop := startOf cells cells.length, kind := .block []
      unreachable := decide (0 < cells.length ∧ ¬ Entered cells cells.length) }

/-! ## Where blocks start -/

namespace Cell

variable {cells : List Cell} {j k : Nat} {c : Cell}

theorem startOf_succ (h : cells[j]? = some c) :
    startOf cells (j + 1) = endFrom (startOf cells j) c.instrs := by
  rw [startOf, List.take_add_one, h, startOf, code, List.flatMap_append, endFrom_append]
  simp [code]

theorem startOf_length (cells : List Cell) : startOf cells cells.length = endFrom 0 (code cells) := by
  rw [startOf, List.take_length]

theorem code_split (h : cells[j]? = some c) :
    code cells = code (cells.take j) ++ c.instrs ++ code (cells.drop (j + 1)) := by
  obtain ⟨hj, rfl⟩ := List.getElem?_eq_some_iff.mp h
  have hsplit := List.take_append_drop j cells
  rw [List.drop_eq_getElem_cons hj] at hsplit
  conv_lhs => rw [← hsplit]
  rw [code, List.flatMap_append, List.flatMap_cons, List.append_assoc]
  rfl

/-- A block of contiguous code is contiguous from its start on. -/
theorem contiguous_cell (hc : Contiguous 0 (code cells)) (h : cells[j]? = some c) :
    Contiguous (startOf cells j) c.instrs := by
  rw [code_split h, List.append_assoc, Contiguous.append, Contiguous.append] at hc
  exact hc.2.1

theorem startOf_lt_succ (hc : Contiguous 0 (code cells)) (hf : ∀ c ∈ cells, c.instrs ≠ [])
    (hj : j < cells.length) : startOf cells j < startOf cells (j + 1) := by
  have hcell : cells[j]? = some cells[j] := List.getElem?_eq_getElem hj
  rw [startOf_succ hcell]
  exact (contiguous_cell hc hcell).lt_endFrom (hf _ (List.getElem_mem hj))

theorem startOf_lt (hc : Contiguous 0 (code cells)) (hf : ∀ c ∈ cells, c.instrs ≠ [])
    (hjk : j < k) (hk : k ≤ cells.length) : startOf cells j < startOf cells k := by
  induction k with
  | zero => omega
  | succ k ih =>
    have hstep := startOf_lt_succ hc hf (j := k) (by omega)
    rcases Nat.lt_succ_iff_lt_or_eq.mp hjk with hjk | rfl
    · exact Nat.lt_trans (ih hjk (by omega)) hstep
    · exact hstep

theorem startOf_inj (hc : Contiguous 0 (code cells)) (hf : ∀ c ∈ cells, c.instrs ≠ [])
    (hj : j ≤ cells.length) (hk : k ≤ cells.length) (h : startOf cells j = startOf cells k) :
    j = k := by
  rcases Nat.lt_trichotomy j k with hlt | heq | hlt
  · exact absurd h (Nat.ne_of_lt (startOf_lt hc hf hlt hk))
  · exact heq
  · exact absurd h (Nat.ne_of_gt (startOf_lt hc hf hlt hj))

/-- Inside a block no block starts. -/
theorem ne_startOf_of_mem_tail (hc : Contiguous 0 (code cells)) (hf : ∀ c ∈ cells, c.instrs ≠ [])
    (h : cells[j]? = some c) {i : Instr} (hi : i ∈ c.instrs.tail) (hk : k ≤ cells.length) :
    i.address ≠ startOf cells k := by
  obtain ⟨hj, -⟩ := List.getElem?_eq_some_iff.mp h
  have hcell := contiguous_cell hc h
  have hlow : startOf cells j < i.address := by
    cases hcode : c.instrs with
    | nil => exact absurd hcode (hf c (List.mem_of_getElem? h))
    | cons first rest =>
      rw [hcode] at hcell hi
      have hpair := List.rel_of_pairwise_cons hcell.pairwise hi
      have hfirst := hcell.1
      omega
  have hhigh : i.address < startOf cells (j + 1) := by
    rw [startOf_succ h]
    exact (hcell.bounds (List.mem_of_mem_tail hi)).2
  rcases Nat.lt_or_ge j k with hjk | hkj
  · rcases Nat.lt_or_eq_of_le (Nat.succ_le_of_lt hjk) with hjk | rfl
    · have := startOf_lt hc hf hjk hk
      simp only [Nat.succ_eq_add_one] at this
      omega
    · exact Nat.ne_of_lt hhigh
  · rcases Nat.lt_or_eq_of_le hkj with hkj | rfl
    · have := startOf_lt hc hf hkj (Nat.le_of_lt hj)
      omega
    · exact Nat.ne_of_gt hlow

theorem mem_code {i : Instr} : i ∈ code cells ↔ ∃ c ∈ cells, i ∈ c.straight ∨ c.closing = some i := by
  simp [code, instrs]

end Cell

/-! ## How a block ends -/

namespace Cell

variable {cells : List Cell} {j k : Nat} {c : Cell} {i : Instr}

/-- The last instruction of a block. -/
theorem getLast?_closing (hi : c.closing = some i) : c.instrs.getLast? = some i := by
  rw [Cell.instrs, hi, Option.toList_some, List.getLast?_concat]

theorem endAddress_closing (hj : cells[j]? = some c) (hi : c.closing = some i) :
    i.endAddress = startOf cells (j + 1) := by
  rw [startOf_succ hj, endFrom_getLast _ (getLast?_closing hi)]

/-- A block closes before the blocks after it start. -/
theorem closing_lt_startOf (hc : Contiguous 0 (code cells)) (hf : ∀ c ∈ cells, c.instrs ≠ [])
    (hj : cells[j]? = some c) (hi : c.closing = some i) (hjk : j < k) (hk : k ≤ cells.length) :
    i.address < startOf cells k := by
  have hnext : i.address < startOf cells (j + 1) := by
    rw [← endAddress_closing hj hi]
    exact i.address_lt_endAddress
  rcases Nat.lt_or_eq_of_le (Nat.succ_le_of_lt hjk) with hlt | rfl
  · exact Nat.lt_trans hnext (startOf_lt hc hf hlt hk)
  · exact hnext

/-- A block starts with its first instruction. -/
theorem startOf_eq_address (hc : Contiguous 0 (code cells)) (hj : cells[j]? = some c)
    (hi : c.instrs.head? = some i) : startOf cells j = i.address := by
  have hcell := contiguous_cell hc hj
  obtain ⟨is, his⟩ := List.head?_eq_some_iff.mp hi
  rw [his] at hcell
  exact hcell.1.symm

/-- A block that ends where a jump leads past it. -/
theorem ends_open (hclosing : c.closing = none) (hnexts : c.nexts = [j + 1])
    (hjump : j + 1 < cells.length → ∃ d ∈ cells, ∃ i, d.closing = some i ∧ i.jumps = true ∧
      i.target? = some (startOf cells (j + 1))) : Ends cells j c := by
  rw [Ends, hclosing]
  exact ⟨hnexts, hjump⟩

theorem ends_exit (hclosing : c.closing = some i) (hop : i.opcode = .exit) (hnexts : c.nexts = []) :
    Ends cells j c := by
  rw [Ends, hclosing]
  simp [Instr.endsBlock, Instr.nexts, Instr.jumps, hop, hnexts]

theorem ends_jump (hclosing : c.closing = some i) (hop : i.opcode = .b)
    (ht : i.target? = some (startOf cells k)) (hnexts : c.nexts = [k]) : Ends cells j c := by
  rw [Ends, hclosing]
  simp [Instr.endsBlock, Instr.nexts, Instr.jumps, hop, hnexts, ht]

/-- A conditional jump, or the start of a `with`. -/
theorem ends_twoWay (hj : cells[j]? = some c) (hclosing : c.closing = some i)
    (hop : i.opcode ∈ [Opcode.bt, .bf, .pushEnv]) (ht : i.target? = some (startOf cells k))
    (hnexts : c.nexts = [j + 1, k]) : Ends cells j c := by
  rw [Ends, hclosing]
  simp only [List.mem_cons, List.not_mem_nil, or_false] at hop
  rcases hop with hop | hop | hop <;>
    simp [Instr.endsBlock, Instr.nexts, Instr.jumps, hop, hnexts, ht, endAddress_closing hj hclosing]

theorem ends_popEnv (hj : cells[j]? = some c) (hclosing : c.closing = some i)
    (hop : i.opcode = .popEnv)
    (ht : ∀ t, i.target? = some t → ∃ k ≤ cells.length, t = startOf cells k)
    (hnexts : c.nexts = [j + 1]) : Ends cells j c := by
  rw [Ends, hclosing]
  simpa [Instr.endsBlock, Instr.nexts, Instr.jumps, hop, hnexts, endAddress_closing hj hclosing]
    using ht

end Cell

/-! ## Cutting -/

namespace Blocks

/-- Without a handler that begins or ends, the split points that code asks for are the ends of the
instructions that end blocks and the targets of those that hold an offset. What ends a handler asks
for the point behind the `popz` that follows it. -/
theorem mem_splitsFrom_iff {is : List Instr} (before : List Instr)
    (hhook : ∀ i ∈ is, i.isCallTo Hook.try_ = false)
    (hfinish : (∀ i ∈ is, i.isCallTo Hook.finishFinally = false) ∨ ∀ i ∈ is, i.opcode ≠ .popz) :
    ∃ points, splitsFrom before is = .ok points ∧ ∀ p, p ∈ points ↔ ∃ i ∈ is,
      i.endsBlock = true ∧ (p = i.endAddress ∨ i.opcode.hasOffset = true ∧ i.target? = some p) := by
  induction is generalizing before with
  | nil => exact ⟨[], rfl, by simp⟩
  | cons i is ih =>
    obtain ⟨later, hlater, hall⟩ := ih (i :: before) (fun j hj => hhook j (by simp [hj]))
      (hfinish.imp (fun h j hj => h j (by simp [hj])) fun h j hj => h j (by simp [hj]))
    have here : ∃ points, splitsAt before i is = .ok points ∧ ∀ p, p ∈ points ↔
        i.endsBlock = true ∧ (p = i.endAddress ∨ i.opcode.hasOffset = true ∧ i.target? = some p) := by
      unfold splitsAt
      cases hop : i.opcode with
      | b | bt | bf | pushEnv | popEnv =>
        exact ⟨_, rfl, fun p => by simp [Instr.endsBlock, hop, Opcode.hasOffset, or_comm]⟩
      | ret | exit =>
        exact ⟨_, rfl, fun p => by simp [Instr.endsBlock, hop, Opcode.hasOffset]⟩
      | call =>
        dsimp only
        rw [hhook i (by simp), if_neg Bool.false_ne_true]
        split
        · rename_i hcall
          rcases hfinish with hfinish | hpop
          · rw [hfinish i (by simp)] at hcall
            cases hcall
          · refine ⟨afterPop is, rfl, fun p => ?_⟩
            cases is with
            | nil => simp [afterPop, Instr.endsBlock, hop]
            | cons j is => simp [afterPop, hpop j (by simp), Instr.endsBlock, hop]
        · exact ⟨[], rfl, fun p => by simp [Instr.endsBlock, hop]⟩
      | _ => exact ⟨[], rfl, fun p => by simp [Instr.endsBlock, hop]⟩
    obtain ⟨now, hnow, hfirst⟩ := here
    refine ⟨now ++ later, ?_, fun p => ?_⟩
    · rw [splitsFrom, hnow, hlater]
      rfl
    · rw [List.mem_append, hfirst, hall]
      simp only [List.mem_cons, exists_eq_or_imp]

/-- A group in front of code that is cut where it starts. -/
theorem cut_append {points : List Nat} {group rest : List Instr} (hne : group ≠ [])
    (htail : ∀ i ∈ group.tail, i.address ∉ points)
    (hrest : ∀ i, rest.head? = some i → i.address ∈ points) :
    cut points (group ++ rest) = group :: cut points rest := by
  induction group with
  | nil => exact absurd rfl hne
  | cons i group ih =>
    rw [List.cons_append, cut]
    cases group with
    | nil =>
      rw [List.nil_append]
      cases hcut : cut points rest with
      | nil => rfl
      | cons next groups =>
        obtain ⟨j, next, rfl⟩ := List.exists_cons_of_ne_nil
          (cut_ne_nil points rest next (by rw [hcut]; simp))
        have hj : j.address ∈ points := hrest j (by rw [← cut_flatten points rest, hcut]; rfl)
        dsimp only
        rw [if_pos (List.contains_iff_mem.mpr hj)]
    | cons j group =>
      rw [ih (by simp) fun k hk => htail k (List.mem_of_mem_tail hk)]
      have hj := htail j (by simp)
      dsimp only
      rw [if_neg fun h => hj (List.contains_iff_mem.mp h)]

/-- Code is cut into the groups that start at the points and have no point inside. -/
theorem cut_eq {points : List Nat} {groups : List (List Instr)} (hne : ∀ group ∈ groups, group ≠ [])
    (htail : ∀ group ∈ groups, ∀ i ∈ group.tail, i.address ∉ points)
    (hhead : ∀ group ∈ groups.tail, ∀ i, group.head? = some i → i.address ∈ points) :
    cut points groups.flatten = groups := by
  induction groups with
  | nil => rfl
  | cons group groups ih =>
    rw [List.flatten_cons, cut_append (hne group (by simp)) (htail group (by simp)) fun i hi => ?_,
      ih (fun g hg => hne g (by simp [hg])) (fun g hg => htail g (by simp [hg]))
        fun g hg => hhead g (List.mem_of_mem_tail hg)]
    cases groups with
    | nil => cases hi
    | cons next groups =>
      obtain ⟨j, next, rfl⟩ := List.exists_cons_of_ne_nil (hne next (by simp))
      exact hhead (j :: next) (by simp) i hi

/-- The nodes of groups that follow one another, by number. -/
theorem nodesFrom_getElem? (start stop : Nat) {groups : List (List Instr)} (hne : groups ≠ [])
    (hg : ∀ group ∈ groups, group ≠ []) (hc : Contiguous start groups.flatten)
    (hstop : endFrom start groups.flatten = stop) :
    (nodesFrom stop start groups).length = groups.length + 1 ∧
      (nodesFrom stop start groups)[groups.length]? = some (.ofKind (.block []) stop stop 0) ∧
      ∀ (j : Nat) group, groups[j]? = some group → (nodesFrom stop start groups)[j]? =
        some (.ofKind (.block group) (endFrom start (groups.take j).flatten)
          (endFrom start (groups.take (j + 1)).flatten) 0) := by
  induction groups generalizing start with
  | nil => exact absurd rfl hne
  | cons group groups ih =>
    rw [List.flatten_cons] at hc hstop
    cases groups with
    | nil =>
      rw [List.flatten_nil, List.append_nil] at hstop
      refine ⟨rfl, rfl, fun j group' hj => ?_⟩
      cases j with
      | zero =>
        cases hj
        simp [nodesFrom, endFrom, hstop]
      | succ j => simp at hj
    | cons next groups =>
      obtain ⟨i, next', rfl⟩ := List.exists_cons_of_ne_nil (hg next (by simp))
      have hrest := (Contiguous.append.mp hc).2
      have hi : i.address = endFrom start group := hrest.1
      rw [endFrom_append, ← hi] at hstop
      rw [← hi] at hrest
      obtain ⟨hlength, hlast, hnodes⟩ := ih _ (by simp)
        (fun g hm => hg g (List.mem_cons_of_mem _ hm)) hrest hstop
      refine ⟨congrArg (· + 1) hlength, hlast, fun j group' hj => ?_⟩
      cases j with
      | zero =>
        cases hj
        simp [nodesFrom, endFrom, hi]
      | succ j =>
        have hrec := hnodes j group' (by simpa using hj)
        simp only [nodesFrom, List.head?_cons, Option.map_some, Option.getD_some,
          List.getElem?_cons_succ, List.take_succ_cons, List.flatten_cons, endFrom_append] at hrec ⊢
        rw [hrec, hi]

/-! ## Connecting -/

/-- A node without its edges and the mark of dead code. -/
def hull (g : Graph) (x : NodeId) : Node :=
  { g.node x with preds := [], succs := [], unreachable := false }

variable {g : Graph}

theorem hull_connect (g : Graph) (a b x : NodeId) : hull (g.connect a b) x = hull g x :=
  congrArg (fun n : Node => { n with unreachable := false }) (bare_connect g a b x)

theorem hull_setUnreachable (g : Graph) (n x : NodeId) (b : Bool) :
    hull (g.setUnreachable n b) x = hull g x := by
  rw [hull, setUnreachable, node_modifyNode]
  split <;> rfl

/-- Hanging dead code only connects and marks blocks. -/
theorem chainDead_keeps {β : Type} (read : Graph → β)
    (hconnect : ∀ g a b, read (g.connect a b) = read g)
    (hmark : ∀ g n b, read (g.setUnreachable n b) = read g) (g : Graph) (bs : List NodeId) :
    read (chainDead g bs) = read g := by
  induction bs generalizing g with
  | nil => rfl
  | cons a bs ih =>
    cases bs with
    | nil => rfl
    | cons b rest =>
      rw [chainDead, ih]
      split
      · rw [hconnect, hmark]
      · rfl

theorem face_eq_hull (g : Graph) (x : NodeId) : g.face x =
    { hull g x with succs := (g.node x).succs, unreachable := (g.node x).unreachable } := rfl

/-- A found graph has its blocks in the slots where they were cut and nothing else, and its nodes
differ from those that were cut in edges and marks alone. -/
theorem hull_findBlocks {code : CodeEntry} (h : findBlocks code = .ok g) : ∃ asked,
    splitsFrom [] code.instrs = .ok asked ∧
    let nodes := nodesOf (0 :: code.length :: code.descendants.map CodeEntry.start ++ asked) code
    g.loops = [] ∧ g.fragments = [] ∧ g.codeLength = code.length ∧
      g.blocks = List.range nodes.length ∧ g.nodes.size = nodes.length ∧
      ∀ x, hull g x = hull (islands nodes code.length) x := by
  unfold findBlocks at h
  dsimp only at h
  split at h
  · cases h
  · obtain ⟨points, hpoints, h⟩ := ok_of_bind h
    obtain ⟨asked, hasked, hpoints⟩ := ok_of_bind hpoints
    cases hpoints
    split at h
    · cases h
    · cases h
      refine ⟨asked, hasked, ?_⟩
      dsimp only
      generalize nodesOf _ code = nodes
      have hkeeps {β : Type} (read : Graph → β)
          (hconnect : ∀ g a b, read (g.connect a b) = read g)
          (hmark : ∀ g n b, read (g.setUnreachable n b) = read g) :
          read (chainDead ((islands nodes code.length).blocks.foldl wire
            (islands nodes code.length)) (islands nodes code.length).blocks) =
            read (islands nodes code.length) :=
        (chainDead_keeps read hconnect hmark _ _).trans
          (foldl_keeps read (fun g b => foldl_keeps read (fun g' t => hconnect g' b t) g _) _ _)
      refine ⟨hkeeps (·.loops) (fun _ _ _ => rfl) fun _ _ _ => rfl,
        hkeeps (·.fragments) (fun _ _ _ => rfl) fun _ _ _ => rfl,
        hkeeps (·.codeLength) (fun _ _ _ => rfl) fun _ _ _ => rfl,
        hkeeps (·.blocks) (fun _ _ _ => rfl) fun _ _ _ => rfl, ?_, fun x =>
        hkeeps (hull · x) (fun g a b => hull_connect g a b x)
          fun g n b => hull_setUnreachable g n x b⟩
      exact (hkeeps (·.nodes.size) size_connect fun _ _ _ => size_modifyNode ..).trans
        (size_islands nodes code.length)

end Blocks

/-- Straight code goes on where its block ends. -/
theorem Blocks.exits_of_straight {n : Node} {i : Instr} (hi : n.instrs.getLast? = some i)
    (h : i.endsBlock = false) : exits n = [n.stop] := by
  rw [exits, hi]
  obtain ⟨_, op, _, _, _, _⟩ := i
  cases op <;> first | rfl | cases h

/-- Control goes from the node of a block where the layout says. -/
theorem Cell.exits_eq {cells : List Cell} {j : Nat} {c : Cell} (hj : cells[j]? = some c)
    (hne : c.instrs ≠ []) (hflow : ∀ i ∈ c.straight, i.endsBlock = false)
    (hopen : c.closing = none → c.nexts = [j + 1])
    (hclosed : ∀ i, c.closing = some i → i.nexts = c.nexts.map (startOf cells) ∧
      (i.jumps = true → i.target?.isSome = true)) {n : Node} (hn : n.instrs = c.instrs)
    (hstop : n.stop = startOf cells (j + 1)) : Blocks.exits n = c.nexts.map (startOf cells) := by
  cases hclosing : c.closing with
  | some i =>
    obtain ⟨hnexts, htarget⟩ := hclosed i hclosing
    have hi : n.instrs.getLast? = some i := hn ▸ getLast?_closing hclosing
    rw [exits_eq_nexts hi ((endAddress_closing hj hclosing).trans hstop.symm) htarget, hnexts]
  | none =>
    have hstraight : c.instrs = c.straight := by rw [Cell.instrs, hclosing]; simp
    obtain ⟨i, hi⟩ := Option.isSome_iff_exists.mp (List.getLast?_isSome.mpr (hstraight ▸ hne))
    rw [Blocks.exits_of_straight (hn.trans hstraight ▸ hi) (hflow i (List.mem_of_getLast? hi)), hstop,
      hopen hclosing]
    rfl

/-! ## Blocks that end as they say -/

section

open Blocks

variable {cells : List Cell} {code : CodeEntry} (hinstrs : code.instrs = Cell.code cells)
  (hflow : ∀ c ∈ cells, ∀ i ∈ c.straight, i.endsBlock = false)
  (hends : ∀ j c, cells[j]? = some c → Ends cells j c)
include hinstrs hflow hends

/-- What an instruction of the code asks for is the start of a block. -/
theorem Cell.asked_startOf (hnexts : ∀ c ∈ cells, ∀ k ∈ c.nexts, k ≤ cells.length) {i : Instr}
    (hi : i ∈ code.instrs) (hend : i.endsBlock = true) {p : Nat}
    (hp : p = i.endAddress ∨ i.opcode.hasOffset = true ∧ i.target? = some p) :
    ∃ k ≤ cells.length, p = startOf cells k := by
  rw [hinstrs, mem_code] at hi
  obtain ⟨c, hc, hi | hi⟩ := hi
  · rw [hflow c hc i hi] at hend
    cases hend
  · obtain ⟨j, hj⟩ := List.getElem?_of_mem hc
    obtain ⟨hlt, -⟩ := List.getElem?_eq_some_iff.mp hj
    rcases hp with rfl | ⟨hop, ht⟩
    · exact ⟨j + 1, hlt, endAddress_closing hj hi⟩
    · have hend := hends j c hj
      rw [Ends, hi] at hend
      obtain ⟨-, hto, -, hpop⟩ := hend
      have hlead : ∀ t, t ∈ i.nexts → ∃ k ≤ cells.length, t = startOf cells k := by
        intro t ht
        rw [hto] at ht
        obtain ⟨k, hk, rfl⟩ := List.mem_map.mp ht
        exact ⟨k, hnexts c hc k hk, rfl⟩
      cases hopcode : i.opcode with
      | b | bt | bf | pushEnv => exact hlead p (by simp [Instr.nexts, hopcode, ht])
      | popEnv => exact hpop hopcode p ht
      | _ =>
        rw [hopcode] at hop
        cases hop

omit hflow in
/-- Each block but the first starts where some instruction asks for it. -/
theorem Cell.startOf_asked {k : Nat} (hpos : 0 < k) (hk : k < cells.length) :
    ∃ i ∈ code.instrs, i.endsBlock = true ∧ (startOf cells k = i.endAddress ∨
      i.opcode.hasOffset = true ∧ i.target? = some (startOf cells k)) := by
  obtain ⟨j, rfl⟩ : ∃ j, k = j + 1 := ⟨k - 1, by omega⟩
  have hj : cells[j]? = some cells[j] := List.getElem?_eq_getElem (by omega)
  have hend := hends j _ hj
  unfold Ends at hend
  cases hclosing : cells[j].closing with
  | none =>
    rw [hclosing] at hend
    obtain ⟨d, hd, i, hi, hjumps, htarget⟩ := hend.2 hk
    have hcode : i ∈ code.instrs := by
      rw [hinstrs, mem_code]
      exact ⟨d, hd, .inr hi⟩
    obtain ⟨hends, hoffset⟩ := Instr.endsBlock_of_jumps hjumps
    exact ⟨i, hcode, hends, .inr ⟨hoffset, htarget⟩⟩
  | some i =>
    rw [hclosing] at hend
    have hcode : i ∈ code.instrs := by
      rw [hinstrs, mem_code]
      exact ⟨_, List.mem_of_getElem? hj, .inr hclosing⟩
    exact ⟨i, hcode, hend.1, .inl (endAddress_closing hj hclosing).symm⟩

/-- Code whose blocks end as they say, and in which no handler begins or ends, is cut into them. -/
theorem CodeEntry.Single.sketches (hcode : code.Single) (hfilled : ∀ c ∈ cells, c.instrs ≠ [])
    (hnexts : ∀ c ∈ cells, ∀ k ∈ c.nexts, k ≤ cells.length)
    (hhook : ∀ i ∈ code.instrs, i.isCallTo Hook.try_ = false)
    (hfinish : (∀ i ∈ code.instrs, i.isCallTo Hook.finishFinally = false) ∨
      ∀ i ∈ code.instrs, i.opcode ≠ .popz) : Sketches cells code := by
  have hleads : ∀ j c, cells[j]? = some c → ∀ n : Node, n.instrs = c.instrs →
      n.stop = startOf cells (j + 1) → exits n = c.nexts.map (startOf cells) := by
    intro j c hj n hn hstop
    have hc := List.mem_of_getElem? hj
    have hend := hends j c hj
    refine exits_eq hj (hfilled c hc) (hflow c hc) (fun hopen => ?_) (fun i hi => ?_) hn hstop
    · rw [Ends, hopen] at hend
      exact hend.1
    · rw [Ends, hi] at hend
      exact ⟨hend.2.1, hend.2.2.1⟩
  refine ⟨hinstrs, hcode.contiguous, hcode.length, hcode.alone, hfilled, ?_, hleads, hnexts⟩
  obtain ⟨asked, hasked, hmem⟩ := mem_splitsFrom_iff [] hhook hfinish
  refine ⟨asked, hasked, fun p hp => ?_, fun k hpos hk => (hmem _).mpr ?_⟩
  · obtain ⟨i, hi, hend, hp⟩ := (hmem p).mp hp
    exact asked_startOf hinstrs hflow hends hnexts hi hend hp
  · exact startOf_asked hinstrs hends hpos hk

end

namespace Outlines

variable {cells : List Cell} {code : CodeEntry} (h : Outlines cells code)
include h

theorem contiguous_code : Contiguous 0 (Cell.code cells) := h.instrs ▸ h.contiguous

theorem endsBlock : ∀ c ∈ cells, ∀ i ∈ c.straight, i.endsBlock = false := fun c hc i hi =>
  (h.straight c hc i hi).endsBlock

theorem sketches : Sketches cells code := by
  have hhook : ∀ i ∈ code.instrs,
      i.isCallTo Hook.try_ = false ∧ i.isCallTo Hook.finishFinally = false := by
    intro i hi
    rw [h.instrs, mem_code] at hi
    obtain ⟨c, hc, hi | hi⟩ := hi
    · exact ⟨(h.straight c hc i hi).hook, (h.straight c hc i hi).finish⟩
    · obtain ⟨j, hj⟩ := List.getElem?_of_mem hc
      have hend := h.ends j c hj
      rw [Ends, hi] at hend
      have hcall : i.opcode ≠ .call := fun he => by
        simp [Instr.endsBlock, he] at hend
      simp [Instr.isCallTo, hcall]
  have hcode : code.Single := ⟨h.contiguous, h.length, h.entries⟩
  exact hcode.sketches h.instrs h.endsBlock h.ends h.filled h.nexts
    (fun i hi => (hhook i hi).1) (.inl fun i hi => (hhook i hi).2)

end Outlines

/-! ## The graph -/

namespace Sketches

open Blocks

variable {cells : List Cell} {code : CodeEntry} (h : Sketches cells code)
include h

theorem contiguous_code : Contiguous 0 (Cell.code cells) := h.instrs ▸ h.contiguous

theorem length_eq : code.length = startOf cells cells.length := by
  rw [← h.length, h.instrs, endOf_eq_endFrom_zero, startOf_length]

/-- The points where the code is cut. -/
theorem exists_points : ∃ asked, splitsFrom [] code.instrs = .ok asked ∧
    (∀ p ∈ 0 :: code.length :: code.descendants.map CodeEntry.start ++ asked,
      ∃ k ≤ cells.length, p = startOf cells k) ∧
    ∀ k, 0 < k → k < cells.length → startOf cells k ∈ asked := by
  obtain ⟨asked, hasked, hpoints, hall⟩ := h.points
  refine ⟨asked, hasked, fun p hp => ?_, hall⟩
  rw [h.entries] at hp
  rcases List.mem_append.mp hp with hp | hp
  · rcases List.mem_cons.mp hp with rfl | hp
    · exact ⟨0, Nat.zero_le _, rfl⟩
    · rw [List.mem_singleton.mp hp]
      exact ⟨cells.length, Nat.le_refl _, h.length_eq⟩
  · exact hpoints p hp

theorem boundary_startOf {k : Nat} (hk : k ≤ cells.length) : code.Boundary (startOf cells k) := by
  rcases Nat.lt_or_eq_of_le hk with hk | rfl
  · have hcell : cells[k]? = some cells[k] := List.getElem?_eq_getElem hk
    have hc := contiguous_cell h.contiguous_code hcell
    obtain ⟨i, is, his⟩ := List.exists_cons_of_ne_nil (h.filled _ (List.getElem_mem hk))
    rw [his] at hc
    refine .inr ⟨i, ?_, hc.1⟩
    rw [h.instrs, code_split hcell, his]
    simp
  · exact .inl h.length_eq.symm

theorem exists_findBlocks : ∃ g, findBlocks code = .ok g := by
  obtain ⟨asked, hasked, hpoints, -⟩ := h.exists_points
  refine (exists_findBlocks_iff h.contiguous).mpr ⟨h.length, _, by rw [splitPoints, hasked]; rfl,
    fun p hp => ?_⟩
  obtain ⟨k, hk, rfl⟩ := hpoints p hp
  exact h.boundary_startOf hk

/-- The blocks are those of the layout. -/
theorem nodesOf_getElem? {points : List Nat}
    (hpoints : ∀ p ∈ points, ∃ k ≤ cells.length, p = startOf cells k)
    (hall : ∀ k, 0 < k → k < cells.length → startOf cells k ∈ points) :
    (nodesOf points code).length = cells.length + 1 ∧
      (nodesOf points code)[cells.length]? =
        some (.ofKind (.block []) code.length code.length 0) ∧
      ∀ (j : Nat) c, cells[j]? = some c → (nodesOf points code)[j]? =
        some (.ofKind (.block c.instrs) (startOf cells j) (startOf cells (j + 1)) 0) := by
  have hflat : code.instrs = (cells.map Cell.instrs).flatten := h.instrs.trans List.flatMap_def
  have hcut : cut points code.instrs = cells.map Cell.instrs := by
    rw [hflat]
    refine cut_eq (fun group hg => ?_) (fun group hg i hi hp => ?_) fun group hg i hi => ?_
    · obtain ⟨c, hc, rfl⟩ := List.mem_map.mp hg
      exact h.filled c hc
    · obtain ⟨c, hc, rfl⟩ := List.mem_map.mp hg
      obtain ⟨j, hj⟩ := List.getElem?_of_mem hc
      obtain ⟨k, hk, he⟩ := hpoints _ hp
      exact ne_startOf_of_mem_tail h.contiguous_code h.filled hj hi hk he
    · rw [← List.map_tail] at hg
      obtain ⟨c, hc, rfl⟩ := List.mem_map.mp hg
      obtain ⟨j, hj⟩ := List.getElem?_of_mem hc
      rw [List.getElem?_tail] at hj
      obtain ⟨hlt, -⟩ := List.getElem?_eq_some_iff.mp hj
      have hcell := contiguous_cell h.contiguous_code hj
      obtain ⟨first, rest, hfirst⟩ := List.exists_cons_of_ne_nil (h.filled c (List.mem_of_getElem? hj))
      rw [hfirst] at hcell hi
      cases hi
      rw [hcell.1]
      exact hall (j + 1) (Nat.succ_pos j) hlt
  unfold nodesOf
  rw [hcut]
  cases hcells : cells with
  | nil => exact ⟨rfl, rfl, fun j c hj => by simp at hj⟩
  | cons first rest =>
    rw [← hcells]
    have hne : cells.map Cell.instrs ≠ [] := by simp [hcells]
    have htake : ∀ j, endFrom 0 ((cells.map Cell.instrs).take j).flatten = startOf cells j := by
      intro j
      rw [startOf, Cell.code, List.flatMap_def, List.map_take]
    obtain ⟨hlength, hlast, hnodes⟩ := nodesFrom_getElem? 0 code.length hne
      (fun group hg => by
        obtain ⟨c, hc, rfl⟩ := List.mem_map.mp hg
        exact h.filled c hc)
      (hflat ▸ h.contiguous) (by rw [← hflat, ← endOf_eq_endFrom_zero, h.length])
    rw [List.length_map] at hlength hlast
    split
    · rename_i hnil
      exact absurd hnil hne
    · refine ⟨hlength, hlast, fun j c hj => ?_⟩
      rw [hnodes j c.instrs (by rw [List.getElem?_map, hj]; rfl), htake, htake]

end Sketches

theorem pair_infix_range_iff {x y m : Nat} : [x, y] <:+: List.range m ↔ y = x + 1 ∧ y < m := by
  constructor
  · rintro ⟨before, after, he⟩
    have hx : (List.range m)[before.length]? = some x := by rw [← he]; simp
    have hy : (List.range m)[before.length + 1]? = some y := by rw [← he]; simp
    obtain ⟨hm, rfl⟩ := List.getElem?_eq_some_iff.mp hx
    obtain ⟨hm', rfl⟩ := List.getElem?_eq_some_iff.mp hy
    rw [List.length_range] at hm'
    simp only [List.getElem_range]
    exact ⟨trivial, hm'⟩
  · rintro ⟨rfl, hy⟩
    refine ⟨List.range x, List.range' (x + 2) (m - (x + 2)), ?_⟩
    have hsplit : [x, x + 1] = List.range' x 2 := rfl
    have hfront := List.range'_append_1 (s := 0) (m := x) (n := 2 + (m - (x + 2)))
    rw [Nat.zero_add] at hfront
    rw [hsplit, List.range_eq_range', List.append_assoc, List.range'_append_1, hfront,
      List.range_eq_range']
    congr 1
    omega

namespace Sketches

open Blocks

variable {cells : List Cell} {code : CodeEntry} {g : Graph} (h : Sketches cells code)
  (hg : findBlocks code = .ok g)
include h hg

/-- The nodes as they were cut. -/
theorem hull_eq : g.loops = [] ∧ g.fragments = [] ∧ g.codeLength = code.length ∧
    g.blocks = List.range (cells.length + 1) ∧ g.nodes.size = cells.length + 1 ∧
    hull g cells.length = { start := code.length, stop := code.length, kind := .block [] } ∧
    ∀ j c, cells[j]? = some c → hull g j =
      { start := startOf cells j, stop := startOf cells (j + 1), kind := .block c.instrs } := by
  obtain ⟨asked, hasked, hloops, hfragments, hlength, hblocks, hsize, hhull⟩ := hull_findBlocks hg
  obtain ⟨asked', hasked', hpoints, hall⟩ := h.exists_points
  obtain rfl : asked = asked' := Except.ok.inj (hasked.symm.trans hasked')
  obtain ⟨hcount, hlast, hnodes⟩ := h.nodesOf_getElem? hpoints
    fun k hpos hk => List.mem_append_right _ (hall k hpos hk)
  generalize nodesOf _ code = nodes at *
  rw [hcount] at hblocks hsize
  have hhulls : ∀ (j : Nat) n, nodes[j]? = some n → hull g j =
      { n with preds := [], succs := [], unreachable := false } := fun j n hj => by
    rw [hhull, hull, node_islands, hj]
    rfl
  exact ⟨hloops, hfragments, hlength, hblocks, hsize, hhulls _ _ hlast,
    fun j c hj => hhulls j _ (hnodes j c hj)⟩

theorem start_eq {j : Nat} (hj : j ≤ cells.length) : (g.node j).start = startOf cells j := by
  obtain ⟨-, -, -, -, -, hlast, hcells⟩ := h.hull_eq hg
  rcases Nat.lt_or_eq_of_le hj with hj | rfl
  · have he := congrArg Node.start (hcells j _ (List.getElem?_eq_getElem hj))
    exact he
  · have he := congrArg Node.start hlast
    exact he.trans h.length_eq

/-- Control goes from a block to the blocks that the layout says. -/
theorem targets_eq {j : Nat} {c : Cell} (hj : cells[j]? = some c) : targets g j = c.nexts := by
  obtain ⟨-, -, -, hblocks, -, -, hcells⟩ := h.hull_eq hg
  have hkind : (g.node j).kind = .block c.instrs := by
    have he := congrArg Node.kind (hcells j c hj)
    exact he
  have hstop : (g.node j).stop = startOf cells (j + 1) := by
    have he := congrArg Node.stop (hcells j c hj)
    exact he
  have hinstrs : (g.node j).instrs = c.instrs := by rw [Node.instrs, hkind]
  have hc := List.mem_of_getElem? hj
  have hexits := h.leads j c hj (g.node j) hinstrs hstop
  rw [targets, hexits, List.filterMap_map]
  refine (List.filterMap_congr fun k hk => ?_).trans (List.filterMap_some ..)
  have hk := h.nexts c hc k hk
  exact (findBlocks_tiled h.contiguous hg).startingAt?_eq_some_iff.mpr
    ⟨by rw [hblocks, List.mem_range]; exact Nat.lt_succ_of_le hk, h.start_eq hg hk⟩

theorem targets_end : targets g cells.length = [] := by
  obtain ⟨-, -, -, -, -, hlast, -⟩ := h.hull_eq hg
  have hkind : (g.node cells.length).kind = .block [] := by
    have he := congrArg Node.kind hlast
    exact he
  rw [targets, exits, Node.instrs, hkind]
  rfl

theorem not_entered_iff (y : Nat) :
    (∀ c ∈ List.range (cells.length + 1), y ∉ targets g c) ↔ ¬ Entered cells y := by
  rw [Entered, not_exists]
  constructor
  · rintro hy c ⟨hc, hm⟩
    obtain ⟨j, hj⟩ := List.getElem?_of_mem hc
    obtain ⟨hlt, -⟩ := List.getElem?_eq_some_iff.mp hj
    exact hy j (List.mem_range.mpr (by omega)) (h.targets_eq hg hj ▸ hm)
  · intro hy j hj hm
    rcases Nat.lt_or_eq_of_le (Nat.lt_succ_iff.mp (List.mem_range.mp hj)) with hlt | rfl
    · have hcell : cells[j]? = some cells[j] := List.getElem?_eq_getElem hlt
      rw [h.targets_eq hg hcell] at hm
      exact hy _ ⟨List.getElem_mem hlt, hm⟩
    · rw [h.targets_end hg] at hm
      cases hm

theorem succs_eq {j : Nat} (hj : j ≤ cells.length) : (g.node j).succs = targets g j ++
    if j < cells.length ∧ ¬ Entered cells (j + 1) then [j + 1] else [] := by
  obtain ⟨-, -, -, hblocks, -⟩ := h.hull_eq hg
  obtain ⟨extra, hextra, hlen, hmem⟩ := (findBlocks_edges hg).1 j
    (by rw [hblocks, List.mem_range]; omega)
  simp only [hblocks, h.not_entered_iff hg, pair_infix_range_iff] at hmem
  rw [hextra]
  congr 1
  split
  · rename_i hc
    have hin : j + 1 ∈ extra := (hmem _).mpr ⟨⟨rfl, by omega⟩, hc.2⟩
    obtain ⟨y, rfl⟩ := List.length_eq_one_iff.mp
      (Nat.le_antisymm hlen (List.length_pos_of_mem hin))
    rw [List.mem_singleton.mp hin]
  · rename_i hc
    refine List.eq_nil_iff_forall_not_mem.mpr fun y hy => ?_
    obtain ⟨⟨rfl, hlt⟩, hne⟩ := (hmem y).mp hy
    exact hc ⟨by omega, hne⟩

theorem unreachable_eq {j : Nat} (hj : j ≤ cells.length) :
    (g.node j).unreachable = decide (0 < j ∧ ¬ Entered cells j) := by
  obtain ⟨-, -, -, hblocks, -⟩ := h.hull_eq hg
  rw [Bool.eq_iff_iff, (findBlocks_edges hg).2, decide_eq_true_iff]
  simp only [hblocks, h.not_entered_iff hg, pair_infix_range_iff]
  constructor
  · rintro ⟨x, ⟨rfl, -⟩, hne⟩
    exact ⟨Nat.succ_pos x, hne⟩
  · rintro ⟨hpos, hne⟩
    exact ⟨j - 1, ⟨by omega, by omega⟩, hne⟩

end Sketches

/-- Code that is cut into the blocks of a layout has a block graph, and its nodes are those of the
layout. -/
theorem Sketches.findBlocks_eq {cells : List Cell} {code : CodeEntry} (h : Sketches cells code) :
    ∃ g, findBlocks code = .ok g ∧ Outlined cells g := by
  obtain ⟨g, hg⟩ := h.exists_findBlocks
  obtain ⟨hloops, hfragments, hlength, hblocks, hsize, hlast, hcells⟩ := h.hull_eq hg
  refine ⟨g, hg, findBlocks_sound hg, hsize, hblocks, hfragments, hloops,
    hlength.trans h.length_eq, fun j c hj => ?_, ?_⟩
  · obtain ⟨hlt, -⟩ := List.getElem?_eq_some_iff.mp hj
    rw [Blocks.face_eq_hull, hcells j c hj, h.succs_eq hg (Nat.le_of_lt hlt), h.targets_eq hg hj,
      h.unreachable_eq hg (Nat.le_of_lt hlt)]
    by_cases he : Entered cells (j + 1) <;> simp [he, hlt]
  · rw [Blocks.face_eq_hull, hlast, h.succs_eq hg (Nat.le_refl _), h.targets_end hg,
      h.unreachable_eq hg (Nat.le_refl _), h.length_eq]
    simp

/-- Code that is laid out in blocks has a block graph, and its nodes are those of the layout. -/
theorem findBlocks_outline {cells : List Cell} {code : CodeEntry} (h : Outlines cells code) :
    ∃ g, findBlocks code = .ok g ∧ Outlined cells g := h.sketches.findBlocks_eq

end GmlLift
