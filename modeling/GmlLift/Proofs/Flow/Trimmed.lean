import GmlLift.Proofs.Flow.LoneLoop

/-! # Blocks without a loop's own code

Before a loop is folded, its own instructions and edges are taken out of its blocks. The blocks that
are left are a layout again, and each such edit changes one block of it. -/
namespace GmlLift

open GmlLift.Graph Cell Pass

/-! ## Code that no pass looks for -/

/-- Straight code that neither sets up statics nor tests for a missing value. -/
structure Instr.Ordinary (i : Instr) : Prop extends Instr.Straight i where
  notStatic : i.isExtended .hasStatic = false
  notNullish : i.isExtended .isNullish = false

instance (i : Instr) : Decidable i.Ordinary :=
  decidable_of_iff (i.Straight ∧ i.isExtended .hasStatic = false ∧ i.isExtended .isNullish = false)
    ⟨fun ⟨h, h', h''⟩ => ⟨h, h', h''⟩, fun ⟨h, h', h''⟩ => ⟨h, h', h''⟩⟩

theorem Instr.ordinary_of_opcode {i : Instr} (h : i.endsBlock = false) (hc : i.opcode ≠ .call)
    (he : i.opcode ≠ .extended) : i.Ordinary where
  endsBlock := h
  hook := by simp [isCallTo, hc]
  finish := by simp [isCallTo, hc]
  notStatic := by simp [isExtended, he]
  notNullish := by simp [isExtended, he]

theorem Instr.isExtended_of_endsBlock {i : Instr} (h : i.endsBlock = true) (op : ExtOpcode) :
    i.isExtended op = false := by
  obtain ⟨_, opcode, _, _, _, _⟩ := i
  cases opcode <;> first | rfl | cases h

theorem Instr.isBranch_eq_false {i : Instr} (h : i.endsBlock = false) :
    i.opcode.isBranch = false := by
  obtain ⟨_, opcode, _, _, _, _⟩ := i
  cases opcode <;> first | rfl | cases h

theorem Instr.Straight.isBranch {i : Instr} (h : i.Straight) : i.opcode.isBranch = false :=
  isBranch_eq_false h.endsBlock

theorem Loops.kind?_of_not_endsBlock {i : Instr} (h : i.endsBlock = false) : kind? i = none := by
  obtain ⟨_, opcode, _, _, _, _⟩ := i
  cases opcode <;> first | rfl | cases h

/-! ## Layouts in numbered blocks -/

namespace Cell

/-- A property of the blocks that are numbered from `j` on. -/
def EachFrom (P : Nat → Cell → Prop) : Nat → List Cell → Prop
  | _, [] => True
  | j, c :: rest => P j c ∧ EachFrom P (j + 1) rest

variable {P : Nat → Cell → Prop} {j : Nat} {cells : List Cell}

theorem eachFrom_iff : EachFrom P j cells ↔ ∀ k c, cells[k]? = some c → P (j + k) c := by
  induction cells generalizing j with
  | nil => simp [EachFrom]
  | cons c cells ih =>
    rw [EachFrom, ih]
    constructor
    · rintro ⟨hc, hrest⟩ k d hd
      cases k with
      | zero =>
        cases hd
        exact hc
      | succ k =>
        have hk := hrest k d hd
        rwa [Nat.add_right_comm] at hk
    · intro h
      refine ⟨h 0 c rfl, fun k d hd => ?_⟩
      have hk := h (k + 1) d hd
      rwa [← Nat.add_assoc, Nat.add_right_comm] at hk

theorem eachFrom_append {more : List Cell} : EachFrom P j (cells ++ more) ↔
    EachFrom P j cells ∧ EachFrom P (j + cells.length) more := by
  induction cells generalizing j with
  | nil => simp [EachFrom]
  | cons c cells ih =>
    rw [List.cons_append, EachFrom, EachFrom, ih, List.length_cons, and_assoc, Nat.add_assoc,
      Nat.add_comm 1]

theorem EachFrom.getElem? (h : EachFrom P 0 cells) (k : Nat) (c : Cell) (hk : cells[k]? = some c) :
    P k c := by
  have hp := eachFrom_iff.mp h k c hk
  rwa [Nat.zero_add] at hp

theorem startOf_append (left right : List Cell) :
    startOf (left ++ right) left.length = endFrom 0 (code left) := by
  rw [startOf, List.take_left]

end Cell

/-! ## Laid out code with its entry -/

namespace Planted

variable {cells : List Cell} {code : CodeEntry} {g : Graph} (h : Planted cells code g)
include h

theorem instrs_eq {j : Nat} {c : Cell} (hj : cells[j]? = some c) : g.instrs j = c.instrs := by
  rw [Graph.instrs, ← instrs_face, h.face j c hj]
  rfl

theorem instrs_last : g.instrs cells.length = [] := by
  rw [Graph.instrs, ← instrs_face, h.last]
  rfl

theorem lastInstr?_closing {j : Nat} {c : Cell} {i : Instr} (hj : cells[j]? = some c)
    (hi : c.closing = some i) : g.lastInstr? j = some i := by
  rw [lastInstr?, h.instrs_eq hj, getLast?_closing hi]

/-- What every instruction of the layout satisfies, every instruction of a block does. -/
theorem forall_instrs {p : Instr → Prop} (hp : ∀ c ∈ cells, ∀ i ∈ c.instrs, p i) {b : NodeId}
    (hb : b ∈ g.blocks) : ∀ i ∈ g.instrs b, p i := by
  rw [h.blocks, List.mem_range] at hb
  rcases Nat.lt_or_eq_of_le (Nat.le_of_lt_succ hb) with hlt | rfl
  · have hcell : cells[b]? = some cells[b] := List.getElem?_eq_getElem hlt
    rw [h.instrs_eq hcell]
    exact hp _ (List.getElem_mem hlt)
  · rw [h.instrs_last]
    exact fun i hi => nomatch hi

section

variable (hlaid : Outlines cells code) (hord : ∀ c ∈ cells, ∀ i ∈ c.straight, i.Ordinary)
include hlaid hord

/-- Neither statics nor missing values are tested for. -/
theorem isExtended_eq_false {b : NodeId} (hb : b ∈ g.blocks) : ∀ i ∈ g.instrs b,
    i.isExtended .hasStatic = false ∧ i.isExtended .isNullish = false := by
  refine h.forall_instrs (fun c hc i hi => ?_) hb
  rcases List.mem_append.mp hi with hi | hi
  · exact ⟨(hord c hc i hi).notStatic, (hord c hc i hi).notNullish⟩
  · obtain ⟨j, hj⟩ := List.getElem?_of_mem hc
    have hclosing : c.closing = some i := Option.mem_toList.mp hi
    have hends := hlaid.ends j c hj
    rw [Cell.Ends, hclosing] at hends
    exact ⟨Instr.isExtended_of_endsBlock hends.1 _, Instr.isExtended_of_endsBlock hends.1 _⟩

theorem findStaticInits : findStaticInits.run g = .ok [] g :=
  findStaticInits_idle fun _ hb => StaticInit.guard?_eq_none fun i hi =>
    (h.isExtended_eq_false hlaid hord hb i hi).1

theorem findNullish : findNullish.run g = .ok [] g :=
  findNullish_idle fun _ hb => Nullish.test?_eq_none fun i hi =>
    (h.isExtended_eq_false hlaid hord hb i hi).2

end

/-- No block but those given opens or closes a loop. -/
theorem kind?_eq_none (hstraight : ∀ c ∈ cells, ∀ i ∈ c.straight, i.endsBlock = false) {t : NodeId}
    (hother : EachFrom (fun j c => ∀ i, c.closing = some i → j ≠ t → Loops.kind? i = none) 0 cells)
    {b : NodeId} (hb : b ∈ g.blocks) (ht : b ≠ t) : (g.lastInstr? b).bind Loops.kind? = none := by
  rw [h.blocks, List.mem_range] at hb
  rcases Nat.lt_or_eq_of_le (Nat.le_of_lt_succ hb) with hlt | rfl
  · have hcell : cells[b]? = some cells[b] := List.getElem?_eq_getElem hlt
    cases hclosing : cells[b].closing with
    | some i =>
      rw [h.lastInstr?_closing hcell hclosing]
      exact hother.getElem? b _ hcell i hclosing ht
    | none =>
      rw [lastInstr?, h.instrs_eq hcell, Cell.instrs, hclosing, Option.toList_none, List.append_nil]
      cases hlast : cells[b].straight.getLast? with
      | none => rfl
      | some i =>
        exact Loops.kind?_of_not_endsBlock
          (hstraight _ (List.getElem_mem hlt) i (List.mem_of_getLast? hlast))
  · rw [lastInstr?, h.instrs_last]
    rfl

/-- The only loop is the one that a block opens or closes. -/
theorem candidates_eq (hstraight : ∀ c ∈ cells, ∀ i ∈ c.straight, i.endsBlock = false) {t : Nat}
    {d : Cell} {i : Instr} {k : LoopKind} {target : Nat} {c : Loops.Candidate}
    (ht : cells[t]? = some d) (hi : d.closing = some i)
    (hkind : Loops.kind? i = some k) (htarget : i.target? = some target)
    (hother : EachFrom (fun j c => ∀ i, c.closing = some i → j ≠ t → Loops.kind? i = none) 0 cells)
    (hc : Loops.candidateAt g k t i.address target = .ok c) : Loops.candidates g = .ok [c] := by
  obtain ⟨hlt, -⟩ := List.getElem?_eq_some_iff.mp ht
  have hsplit := range_split (m := cells.length + 1) (j := t) (Nat.lt_succ_of_lt hlt)
  refine Loops.candidates_of_lone (h.blocks.trans hsplit) (fun b hb => ?_)
    (h.lastInstr?_closing ht hi) hkind htarget hc
  have hne : b ≠ t := by
    rcases List.mem_append.mp hb with hb | hb
    · exact Nat.ne_of_lt (List.mem_range.mp hb)
    · exact Nat.ne_of_gt (List.mem_range'_1.mp hb).1
  refine h.kind?_eq_none hstraight hother ?_ hne
  rw [h.blocks, hsplit]
  rcases List.mem_append.mp hb with hb | hb
  · exact List.mem_append_left _ hb
  · exact List.mem_append_right _ (List.mem_cons_of_mem _ hb)

end Planted

/-! ## Layouts of a graph under edits -/

/-- The graph has the blocks of a layout where another one has its own; all else is the same. -/
structure Shows (cs : List Cell) (base g : Graph) : Prop where
  sound : g.Sound
  size : g.nodes.size = base.nodes.size
  blocks : g.blocks = base.blocks
  fragments : g.fragments = base.fragments
  cell : ∀ j c, cs[j]? = some c →
    g.face j = { base.face j with kind := .block c.instrs, succs := c.nexts }
  other : ∀ j, cs.length ≤ j → g.face j = base.face j

namespace Shows

variable {cs : List Cell} {base g g' : Graph} (h : Shows cs base g)
include h

theorem instrs_eq {j : Nat} {c : Cell} (hj : cs[j]? = some c) : g.instrs j = c.instrs := by
  rw [Graph.instrs, ← instrs_face, h.cell j c hj]
  rfl

theorem succs_eq {j : Nat} {c : Cell} (hj : cs[j]? = some c) : (g.node j).succs = c.nexts := by
  rw [← succs_face, h.cell j c hj]

theorem start_eq (j : Nat) : (g.node j).start = (base.node j).start := by
  rw [← start_face]
  rcases Nat.lt_or_ge j cs.length with hlt | hge
  · rw [h.cell j _ (List.getElem?_eq_getElem hlt)]
    rfl
  · rw [h.other j hge]
    rfl

theorem stop_eq (j : Nat) : (g.node j).stop = (base.node j).stop := by
  rw [← stop_face]
  rcases Nat.lt_or_ge j cs.length with hlt | hge
  · rw [h.cell j _ (List.getElem?_eq_getElem hlt)]
    rfl
  · rw [h.other j hge]
    rfl

theorem stands {cells : List Cell} (hb : Stands cells base) : Stands cells g :=
  ⟨h.blocks.trans hb.blocks, fun k hk => (h.start_eq k).trans (hb.start k hk),
    fun k hk => (h.stop_eq k).trans (hb.stop k hk)⟩

/-- A mark of dead code taken off or put on. -/
theorem setUnreachable (n : NodeId) (b : Bool) :
    Shows cs (base.setUnreachable n b) (g.setUnreachable n b) := by
  have hface : ∀ (g : Graph) x, (g.setUnreachable n b).face x =
      if x = n ∧ n < g.nodes.size then { g.face x with unreachable := b } else g.face x := by
    intro g x
    rw [face, Graph.setUnreachable, node_modifyNode]
    split <;> rfl
  refine ⟨h.sound.modifyNode rfl rfl (h.sound.parents n) (h.sound.children n), ?_, h.blocks,
    h.fragments, fun j c hj => ?_, fun j hj => ?_⟩
  · rw [size_setUnreachable, size_setUnreachable, h.size]
  · rw [hface, hface, h.size, h.cell j c hj]
    split <;> rfl
  · rw [hface, hface, h.size, h.other j hj]

/-- An edit of one block. -/
theorem edit {j : Nat} {c c' : Cell} (hj : cs[j]? = some c) (hsound : g'.Sound)
    (hsize : g'.nodes.size = g.nodes.size) (hblocks : g'.blocks = g.blocks)
    (hfragments : g'.fragments = g.fragments) (hface : ∀ x, g'.face x =
      if x = j then { g.face x with kind := .block c'.instrs, succs := c'.nexts } else g.face x) :
    Shows (cs.set j c') base g' := by
  obtain ⟨hlt, -⟩ := List.getElem?_eq_some_iff.mp hj
  refine ⟨hsound, hsize.trans h.size, hblocks.trans h.blocks, hfragments.trans h.fragments,
    fun k d hd => ?_, fun k hk => ?_⟩
  · rw [List.getElem?_set] at hd
    rw [hface]
    by_cases hkj : j = k
    · subst hkj
      rw [if_pos rfl, if_pos hlt] at hd
      cases hd
      rw [if_pos rfl, h.cell j c hj]
    · rw [if_neg hkj] at hd
      rw [if_neg (Ne.symm hkj), h.cell k d hd]
  · rw [List.length_set] at hk
    have hne : k ≠ j := Nat.ne_of_gt (Nat.lt_of_lt_of_le hlt hk)
    rw [hface, if_neg hne, h.other k hk]

/-- A block that leads nowhere any more. -/
theorem cutSuccessors {j : Nat} {c : Cell} (hj : cs[j]? = some c) :
    Shows (cs.set j { c with nexts := [] }) base (g.disconnectSuccessors j) := by
  refine h.edit hj (h.sound.disconnectSuccessors _) (size_disconnectSuccessors ..)
    (blocks_disconnectSuccessors ..) (fragments_disconnectSuccessors ..) fun x => ?_
  rw [face_disconnectSuccessors]
  split
  · rename_i hx
    rw [hx, h.cell j c hj]
    rfl
  · rfl

variable (hcs : cs.length ≤ base.nodes.size) {j : Nat} {c d : Cell} (hj : cs[j]? = some c)
include hcs hj

theorem lt_size : j < g.nodes.size := by
  obtain ⟨hlt, -⟩ := List.getElem?_eq_some_iff.mp hj
  rw [h.size]
  exact Nat.lt_of_lt_of_le hlt hcs

/-- A block without its last instructions. -/
theorem face_stripLast {count : Nat} {cut : List Instr} (hinstrs : c.instrs = d.instrs ++ cut)
    (hcount : cut.length = count) (x : NodeId) : (g.stripLast j count).face x =
      if x = j then { g.face x with kind := .block d.instrs } else g.face x := by
  rw [stripLast, face_mapInstrs (h.lt_size hcs hj)]
  split
  · rename_i hx
    have htake : c.instrs.take (c.instrs.length - count) = d.instrs := by
      rw [hinstrs, List.length_append, hcount, Nat.add_sub_cancel, List.take_left]
    rw [hx, h.cell j c hj, ← htake]
    rfl
  · rfl

/-- A block without its last instructions. -/
theorem strip {count : Nat} (cut : List Instr) (hinstrs : c.instrs = d.instrs ++ cut)
    (hcount : cut.length = count) (hnexts : d.nexts = c.nexts) :
    Shows (cs.set j d) base (g.stripLast j count) := by
  refine h.edit hj (h.sound.mapInstrs _ _) (by simp) rfl rfl fun x => ?_
  rw [h.face_stripLast hcs hj hinstrs hcount]
  split
  · rename_i hx
    rw [hx, h.cell j c hj, hnexts]
  · rfl

/-- A block without its first instructions. -/
theorem stripFront {count : Nat} (cut : List Instr) (hinstrs : c.instrs = cut ++ d.instrs)
    (hcount : cut.length = count) (hnexts : d.nexts = c.nexts) :
    Shows (cs.set j d) base (g.stripFirst j count) := by
  refine h.edit hj (h.sound.mapInstrs _ _) (by simp) rfl rfl fun x => ?_
  rw [stripFirst, face_mapInstrs (h.lt_size hcs hj)]
  split
  · rename_i hx
    have hdrop : c.instrs.drop count = d.instrs := by
      rw [hinstrs, ← hcount, List.drop_left]
    rw [hx, h.cell j c hj, ← hdrop, hnexts]
    rfl
  · rfl

/-- A block without its last instructions and without one of its edges. -/
theorem cutEdge {count : Nat} (cut : List Instr) {t : NodeId}
    (hinstrs : c.instrs = d.instrs ++ cut) (hcount : cut.length = count)
    (hnexts : d.nexts = c.nexts.erase t) :
    Shows (cs.set j d) base ((g.stripLast j count).disconnect j t) := by
  refine h.edit hj ((h.sound.mapInstrs _ _).disconnect _ _) (by simp) rfl rfl fun x => ?_
  rw [face_disconnect, h.face_stripLast hcs hj hinstrs hcount]
  split
  · rename_i hx
    rw [hx, h.cell j c hj, hnexts]
  · rfl

/-- A block without its last instructions and without its edges. -/
theorem cutBlock {count : Nat} (cut : List Instr) (hinstrs : c.instrs = d.instrs ++ cut)
    (hcount : cut.length = count) (hnexts : d.nexts = []) :
    Shows (cs.set j d) base (Loops.cutBlock j count g) := by
  refine h.edit hj ((h.sound.mapInstrs _ _).disconnectSuccessors _)
    (by simp [Loops.cutBlock]) (blocks_disconnectSuccessors ..) (fragments_disconnectSuccessors ..)
    fun x => ?_
  rw [Loops.cutBlock, face_disconnectSuccessors, h.face_stripLast hcs hj hinstrs hcount]
  split
  · rename_i hx
    rw [hnexts]
  · rfl

/-- The block after a `repeat` without the drop of the counter. -/
theorem dropCounter {i : Instr} (hi : c.instrs.head? = some i) (hpop : i.opcode = .popz)
    (hinstrs : d.instrs = c.instrs.tail) (hnexts : d.nexts = c.nexts) :
    Shows (cs.set j d) base (Loops.dropCounter j g) := by
  have hfirst : ((g.firstInstr? j).any fun i => i.opcode == .popz) = true := by
    rw [firstInstr?, h.instrs_eq hj, hi]
    simpa using hpop
  rw [Loops.dropCounter, if_pos hfirst]
  refine h.edit hj (h.sound.mapInstrs _ _) (by simp) rfl rfl fun x => ?_
  rw [stripFirst, face_mapInstrs (h.lt_size hcs hj)]
  split
  · rename_i hx
    rw [hx, h.cell j c hj, hinstrs, hnexts, ← List.drop_one]
    rfl
  · rfl

end Shows

/-! ## The one loop folded -/

namespace Loops

/-- The graph of laid out code with its one loop folded. The root has the number after all blocks,
then comes the loop's node. -/
structure Folded (cs : List Cell) (code : CodeEntry) (c : Candidate) (info : LoopInfo)
    (body : NodeId) (g : Graph) : Prop where
  size : g.nodes.size = cs.length + 3
  root : g.root? = some cs.length
  kind_root : ∃ blocks, (g.node cs.length).kind = .fragment code.name code.argumentCount blocks
  children_root : (g.node cs.length).children = [some (if c.head = 0 then cs.length + 1 else 0)]
  kind_node : (g.node (cs.length + 1)).kind = .loop info
  succs_node : (g.node (cs.length + 1)).succs = [c.next]
  children_node : (g.node (cs.length + 1)).children =
    [some c.head, some c.tail, some (cs.length + 2), some body]
  kind : ∀ j d, cs[j]? = some d → (g.node j).kind = .block d.instrs
  inside : ∀ j d, cs[j]? = some d → c.head ≤ j → j < c.next → (g.node j).succs = d.nexts
  outside : ∀ j d, cs[j]? = some d → j < c.head ∨ c.next ≤ j →
    (g.node j).succs = rename c.head (cs.length + 1) d.nexts

variable {cells cs : List Cell} {code : CodeEntry} {base g g₁ : Graph} {c : Candidate}
  {info : LoopInfo} {body : NodeId}

/-- Which blocks stand between the starts of two of them. -/
theorem within_iff (hlaid : Sketches cells code) {n : Node} {j head next : Nat}
    (hn : n.start = startOf cells j) (hj : j ≤ cells.length) (hhead : head ≤ cells.length)
    (hnext : next ≤ cells.length) :
    within (startOf cells head) (startOf cells next) n = true ↔ head ≤ j ∧ j < next := by
  have hmono {a b : Nat} (hab : a < b) (hb : b ≤ cells.length) : startOf cells a < startOf cells b :=
    startOf_lt hlaid.contiguous_code hlaid.filled hab hb
  have hlower : startOf cells head ≤ startOf cells j ↔ head ≤ j := by
    constructor
    · intro h
      by_contra hlt
      exact absurd (hmono (Nat.lt_of_not_le hlt) hhead) (Nat.not_lt.mpr h)
    · intro h
      rcases Nat.lt_or_eq_of_le h with hlt | rfl
      · exact Nat.le_of_lt (hmono hlt hj)
      · exact Nat.le_refl _
  have hupper : startOf cells j < startOf cells next ↔ j < next := by
    constructor
    · intro h
      by_contra hle
      rcases Nat.lt_or_eq_of_le (Nat.le_of_not_lt hle) with hlt | rfl
      · exact absurd (hmono hlt hj) (Nat.lt_asymm h)
      · exact Nat.lt_irrefl _ h
    · exact fun h => hmono h hnext
  rw [within, hn, Bool.and_eq_true, decide_eq_true_iff, decide_eq_true_iff, hlower, hupper]

section

variable (hp : Planted cells code g) (hshows : Shows cs g g₁) (hlen : cs.length = cells.length + 1)
include hp hshows hlen

/-- Beyond the blocks there is only the root, which leads nowhere and holds no code. -/
theorem bare_beyond {x : NodeId} (hx : cs.length ≤ x) :
    (g₁.node x).succs = [] ∧ g₁.instrs x = [] := by
  rw [← succs_face, Graph.instrs, ← instrs_face, hshows.other x hx]
  rw [hlen] at hx
  rcases Nat.lt_or_eq_of_le hx with hlt | rfl
  · have hsize : g.nodes.size ≤ x := by
      rw [hp.size]
      exact hlt
    rw [face_of_size_le hsize]
    exact ⟨rfl, rfl⟩
  · rw [hp.root]
    exact ⟨rfl, rfl⟩

theorem settled_of_shows (h : ∀ d ∈ cs, ∀ i ∈ d.instrs, i.opcode.isBranch = false ∧
    i.isCallTo Hook.try_ = false) : g₁.Settled := by
  intro x i hi
  rcases Nat.lt_or_ge x cs.length with hlt | hge
  · rw [hshows.instrs_eq (List.getElem?_eq_getElem hlt)] at hi
    exact h _ (List.getElem_mem hlt) i hi
  · rw [(bare_beyond hp hshows hlen hge).2] at hi
    cases hi

theorem quiet_of_shows (hlaid : Outlines cells code) (hhead : c.head ≤ cells.length)
    (hnext : c.next ≤ cells.length)
    (h : ∀ j d, cs[j]? = some d → c.head ≤ j → j < c.next →
      ∀ t, breakTarget? c = some t ∨ t = c.head → t ∉ d.nexts) :
    Quiet c (within (startOf cells c.head) (startOf cells c.next)) g₁ := by
  intro x hx t ht
  rcases Nat.lt_or_ge x cs.length with hlt | hge
  · have hle : x ≤ cells.length := by
      rw [hlen] at hlt
      exact Nat.le_of_lt_succ hlt
    have hcell : cs[x]? = some cs[x] := List.getElem?_eq_getElem hlt
    have hstart : (g₁.node x).start = startOf cells x := by rw [hshows.start_eq, hp.start_eq hle]
    obtain ⟨hlow, hhigh⟩ := (within_iff hlaid.sketches hstart hle hhead hnext).mp hx
    rw [hshows.succs_eq hcell]
    exact h x _ hcell hlow hhigh t ht
  · rw [(bare_beyond hp hshows hlen hge).1]
    exact List.not_mem_nil

theorem Spliced.folded (hlaid : Outlines cells code) {g' : Graph} (hs : Spliced c info body
      (within (startOf cells c.head) (startOf cells c.next)) g₁ g')
    (hhead : c.head < c.next) (hnext : c.next ≤ cells.length) : Folded cs code c info body g' := by
  have hsize : g₁.nodes.size = cs.length + 1 := by rw [hshows.size, hp.size, hlen]
  have hlt {j : Nat} {d : Cell} (hd : cs[j]? = some d) : j < cs.length :=
    (List.getElem?_eq_some_iff.mp hd).1
  have hin {j : Nat} {d : Cell} (hd : cs[j]? = some d) : within (startOf cells c.head)
      (startOf cells c.next) (g₁.node j) = true ↔ c.head ≤ j ∧ j < c.next := by
    have hle : j ≤ cells.length := Nat.le_of_lt_succ (Nat.lt_of_lt_of_eq (hlt hd) hlen)
    have hstart : (g₁.node j).start = startOf cells j := by rw [hshows.start_eq, hp.start_eq hle]
    exact within_iff hlaid.sketches hstart hle (Nat.le_of_lt (Nat.lt_of_lt_of_le hhead hnext)) hnext
  have hroot : g₁.face cs.length = { start := 0, stop := code.length, children := [some 0]
                                     kind := .fragment code.name code.argumentCount
                                       (List.range (cells.length + 1)) } := by
    rw [hshows.other cs.length (Nat.le_refl _), hlen, hp.root]
  have hrootlt : cs.length < g₁.nodes.size := by
    rw [hsize]
    exact Nat.lt_succ_self _
  have hparent : (g₁.node c.head).parent = if c.head = 0 then some cs.length else none := by
    have hhead : c.head < cells.length := Nat.lt_of_lt_of_le hhead hnext
    have hheadlt : c.head < cs.length := by
      rw [hlen]
      exact Nat.lt_succ_of_lt hhead
    have hcell : cs[c.head]? = some cs[c.head] := List.getElem?_eq_getElem hheadlt
    rw [← parent_face, hshows.cell c.head _ hcell, hp.face c.head _ (List.getElem?_eq_getElem hhead),
      hlen]
  refine ⟨by rw [hs.size, hsize], ?_, ⟨List.range (cells.length + 1), ?_⟩, ?_, ?_, ?_, ?_,
    fun j d hd => ?_,
    fun j d hd hlow hhigh => ?_, fun j d hd hout => ?_⟩
  · rw [root?, hs.fragments, hshows.fragments, hp.fragments, hlen]
    rfl
  · rw [hs.kind _ hrootlt, ← kind_face, hroot]
  · rw [hs.children _ hrootlt, ← children_face, hroot, hparent, hsize]
    by_cases hzero : c.head = 0
    · simp [hzero]
    · simp [hzero]
  · rw [← hsize, hs.kind_node]
  · rw [← hsize, hs.succs_node]
  · rw [← hsize, hs.children_node, hsize]
  · have hj : j < g₁.nodes.size := by
      rw [hsize]
      exact Nat.lt_succ_of_lt (hlt hd)
    rw [hs.kind j hj, ← kind_face, hshows.cell j d hd]
  · have hj : j < g₁.nodes.size := by
      rw [hsize]
      exact Nat.lt_succ_of_lt (hlt hd)
    rw [hs.succs j hj, if_pos ((hin hd).mpr ⟨hlow, hhigh⟩), hshows.succs_eq hd]
  · have hj : j < g₁.nodes.size := by
      rw [hsize]
      exact Nat.lt_succ_of_lt (hlt hd)
    have hnot : ¬ within (startOf cells c.head) (startOf cells c.next) (g₁.node j) = true := by
      rw [hin hd]
      rintro ⟨hlow, hhigh⟩
      rcases hout with hbefore | hafter
      · exact absurd hlow (Nat.not_le.mpr hbefore)
      · exact absurd hhigh (Nat.not_lt.mpr hafter)
    rw [hs.succs j hj, if_neg hnot, hshows.succs_eq hd, hsize]

end

/-- Laid out code with a single loop, none of whose blocks breaks or continues, is analyzed to the
graph with that loop folded. -/
theorem exists_folded (hbase : findBlocks code = .ok base)
    (hfound : (findFragments code).run base = .ok () g) (hp : Planted cells code g)
    (hlaid : Outlines cells code) (hord : ∀ c ∈ cells, ∀ i ∈ c.straight, i.Ordinary)
    (hc : candidates g = .ok [c]) (hstrip : (strip c).run g = .ok (info, body) g₁)
    (hshows : Shows cs g g₁) (hlen : cs.length = cells.length + 1) (hhead : c.head < c.next)
    (hnext : c.next ≤ cells.length) (hbreak : ∀ t, breakTarget? c = some t → t ≤ cells.length)
    (hquiet : ∀ j d, cs[j]? = some d → c.head ≤ j → j < c.next →
      ∀ t, breakTarget? c = some t ∨ t = c.head → t ∉ d.nexts)
    (hsettled : ∀ d ∈ cs, ∀ i ∈ d.instrs, i.opcode.isBranch = false ∧ i.isCallTo Hook.try_ = false)
    (layout : TryCatch.Layout) : ∃ g', analyze code layout = .ok g' ∧ Folded cs code c info body g' := by
  have hle : c.head ≤ cells.length := Nat.le_of_lt (Nat.lt_of_lt_of_le hhead hnext)
  have hlt {x : Nat} (hx : x ≤ cells.length) : x < g₁.nodes.size := by
    rw [hshows.size, hp.size]
    omega
  have hq := quiet_of_shows hp hshows hlen hlaid hle hnext hquiet
  rw [← hp.start_eq hle, ← hp.start_eq hnext] at hq
  obtain ⟨g', hfold, hs⟩ := fold_of_strip hstrip hshows.sound (hlt hle)
    (fun t ht => hlt (hbreak t ht)) hq
  rw [hp.start_eq hle, hp.start_eq hnext] at hs
  have hg' : g'.Settled := hs.settled (settled_of_shows hp hshows hlen hsettled)
  refine ⟨g', ?_, hs.folded hp hshows hlen hlaid hhead hnext⟩
  have hrun : (foldConstructs code layout).run base = .ok () g' := by
    rw [foldConstructs, run_bind_ok hfound, run_bind_ok (hp.findStaticInits hlaid hord),
      run_bind_ok (hp.findNullish hlaid hord), run_bind_ok (findLoops_of_lone hc hfold),
      run_bind_ok hg'.findShortCircuits, run_bind_ok (hg'.findTryCatch layout),
      run_bind_ok hg'.findSwitches, run_bind_ok hg'.findBranches]
    rfl
  exact analyze_of_run hbase hrun

end Loops

end GmlLift
