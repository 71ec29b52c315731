import GmlLift.Proofs.Flow.BlockList

/-! # Blocks and the control flow of the code

A block graph says where control can go: its edges are those of the last instruction of each block,
and besides them one edge into each block that control never comes to, from the block before it.
`ControlFlow` states this of a graph against the code it was made from. -/
namespace GmlLift

open GmlLift.Graph

/-- Whether control may go elsewhere than on to the next instruction. -/
def Instr.endsBlock (i : Instr) : Bool := match i.opcode with
  | .b | .bt | .bf | .pushEnv | .popEnv | .ret | .exit => true
  | _ => false

/-- Whether control may go on at an address that the instruction names. -/
def Instr.jumps (i : Instr) : Bool := match i.opcode with
  | .b | .bt | .bf | .pushEnv => true
  | _ => false

/-- Where control can go after an instruction, the fall-through before the jump. The way back from
the end of a `with` body belongs to the loop. -/
def Instr.nexts (i : Instr) : List Nat := match i.opcode with
  | .b => i.target?.toList
  | .bt | .bf | .pushEnv => i.endAddress :: i.target?.toList
  | .ret | .exit => []
  | _ => [i.endAddress]

namespace Graph

/-- Where control can go after a block. -/
def nexts (g : Graph) (b : NodeId) : List Nat := ((g.lastInstr? b).map Instr.nexts).getD []

/-- A block right after another that control comes to from nowhere. -/
def Chained (g : Graph) (a b : NodeId) : Prop :=
  [a, b] <:+: g.blocks ∧ ∀ c ∈ g.blocks, (g.node b).start ∉ g.nexts c

/-- A graph of blocks whose edges are the control flow of an entry's code. -/
structure ControlFlow (code : CodeEntry) (g : Graph) : Prop where
  code : g.blocks.flatMap g.instrs = code.instrs
  ends : ∀ b ∈ g.blocks, ∀ i ∈ (g.instrs b).dropLast, i.endsBlock = false
  succs : ∀ a ∈ g.blocks, ∃ flow extra, (g.node a).succs = flow ++ extra ∧
    flow.map (fun b => (g.node b).start) = g.nexts a ∧ (∀ b ∈ flow, b ∈ g.blocks) ∧
    extra.length ≤ 1 ∧ ∀ b, b ∈ extra ↔ g.Chained a b
  unreachable : ∀ b ∈ g.blocks, (g.node b).unreachable = true ↔ ∃ a, g.Chained a b

end Graph

/-! ## Cutting -/

theorem endFrom_getLast (start : Nat) {is : List Instr} {i : Instr} (hi : is.getLast? = some i) :
    endFrom start is = i.endAddress := by
  have hne : is ≠ [] := by rintro rfl; cases hi
  rw [← endOf_eq_endFrom start hne, CodeEntry.endOf, hi]
  rfl

/-- What is not last is followed by an instruction that starts where it ends. -/
theorem Contiguous.follower {start : Nat} {is : List Instr} (h : Contiguous start is) {i : Instr}
    (hi : i ∈ is.dropLast) : ∃ j ∈ is.tail, j.address = i.endAddress := by
  induction is generalizing start with
  | nil => cases hi
  | cons k is ih =>
    cases is with
    | nil => cases hi
    | cons j is =>
      rw [List.dropLast_cons_of_ne_nil (by simp)] at hi
      rcases List.mem_cons.mp hi with rfl | hi
      · exact ⟨j, by simp, h.2.1⟩
      · obtain ⟨l, hl, he⟩ := ih h.2 hi
        exact ⟨l, List.mem_cons_of_mem _ hl, he⟩

namespace Blocks

/-- Only the first instruction of a group may stand at a split point. -/
theorem cut_tail (points : List Nat) (is : List Instr) :
    ∀ group ∈ cut points is, ∀ j ∈ group.tail, j.address ∉ points := by
  induction is with
  | nil => intro group h; cases h
  | cons i is ih =>
    simp only [cut]
    cases hc : cut points is with
    | nil =>
      intro group h j hj
      rw [List.mem_singleton.mp h] at hj
      cases hj
    | cons first rest =>
      rw [hc] at ih
      have hrest : ∀ group ∈ rest, ∀ j ∈ group.tail, j.address ∉ points := fun group hm =>
        ih group (List.mem_cons_of_mem _ hm)
      have alone : ∀ group ∈ [i] :: rest, ∀ j ∈ group.tail, j.address ∉ points := by
        intro group hm j hj
        rcases List.mem_cons.mp hm with rfl | hm
        · cases hj
        · exact hrest group hm j hj
      cases first with
      | nil => exact alone
      | cons k first =>
        dsimp only
        split
        · intro group hm j hj
          rcases List.mem_cons.mp hm with rfl | hm
          · cases hj
          · exact ih group hm j hj
        · rename_i hk
          intro group hm j hj
          rcases List.mem_cons.mp hm with rfl | hm
          · rcases List.mem_cons.mp hj with rfl | hj
            · simpa using hk
            · exact ih (k :: first) (by simp) j hj
          · exact hrest group hm j hj

/-- A block whose code runs from its start to its end without gaps. -/
structure Filled (n : Node) : Prop where
  contiguous : Contiguous n.start n.instrs
  stop : endFrom n.start n.instrs = n.stop

theorem nodesFrom_filled {stop start : Nat} {groups : List (List Instr)} (hne : groups ≠ [])
    (hg : ∀ group ∈ groups, group ≠ []) (hc : Contiguous start groups.flatten)
    (hstop : endFrom start groups.flatten = stop) :
    (nodesFrom stop start groups).map Node.instrs = groups ++ [[]] ∧
      ∀ n ∈ nodesFrom stop start groups, Filled n := by
  induction groups generalizing start with
  | nil => exact absurd rfl hne
  | cons group groups ih =>
    rw [List.flatten_cons] at hc hstop
    have hgroup := (Contiguous.append.mp hc).1
    cases groups with
    | nil =>
      rw [List.flatten_nil, List.append_nil] at hstop
      refine ⟨rfl, fun n hn => ?_⟩
      rcases List.mem_cons.mp hn with rfl | hn
      · exact ⟨hgroup, hstop⟩
      · rw [List.mem_singleton.mp hn]
        exact ⟨trivial, rfl⟩
    | cons next groups =>
      obtain ⟨j, next', rfl⟩ := List.exists_cons_of_ne_nil (hg next (by simp))
      have hrest := (Contiguous.append.mp hc).2
      have hj : j.address = endFrom start group := hrest.1
      rw [endFrom_append] at hstop
      rw [← hj] at hrest hstop
      obtain ⟨hmap, hfilled⟩ := ih (by simp) (fun g hm => hg g (List.mem_cons_of_mem _ hm)) hrest
        hstop
      refine ⟨congrArg (group :: ·) hmap, fun n hn => ?_⟩
      rcases List.mem_cons.mp hn with rfl | hn
      · exact ⟨hgroup, hj.symm⟩
      · exact hfilled n hn

/-- The blocks of an entry hold its code in order, each from its start to its end. -/
theorem nodesOf_filled (points : List Nat) {code : CodeEntry} (hc : Contiguous 0 code.instrs)
    (hlength : CodeEntry.endOf code.instrs = code.length) :
    (nodesOf points code).map Node.instrs = cut points code.instrs ++ [[]] ∧
      ∀ n ∈ nodesOf points code, Filled n := by
  have hflat := cut_flatten points code.instrs
  unfold nodesOf
  split
  · rename_i hcut
    rw [hcut]
    refine ⟨rfl, fun n hn => ?_⟩
    rw [List.mem_singleton.mp hn]
    exact ⟨trivial, rfl⟩
  · rename_i hne
    refine nodesFrom_filled hne (cut_ne_nil points code.instrs) (hflat.symm ▸ hc) ?_
    rw [hflat, ← endOf_eq_endFrom 0 fun he => hne (by rw [he]; rfl)]
    exact hlength

/-! ## Split points -/

theorem splitsAt_endAddress {before rest : List Instr} {i : Instr} {ps : List Nat}
    (h : splitsAt before i rest = .ok ps) (hi : i.endsBlock = true) : i.endAddress ∈ ps := by
  unfold Instr.endsBlock at hi
  unfold splitsAt at h
  split at hi <;> rename_i hop
  case h_8 => cases hi
  all_goals
    rw [hop] at h
    cases h
    simp

theorem splitsAt_target {before rest : List Instr} {i : Instr} {ps : List Nat} {t : Nat}
    (h : splitsAt before i rest = .ok ps) (hi : i.jumps = true) (ht : i.target? = some t) :
    t ∈ ps := by
  unfold Instr.jumps at hi
  unfold splitsAt at h
  split at hi <;> rename_i hop
  case h_5 => cases hi
  all_goals
    rw [hop] at h
    cases h
    simp [ht]

/-- What an instruction of the code asks for is among the split points. -/
theorem mem_splitsFrom {before is : List Instr} {ps : List Nat}
    (h : splitsFrom before is = .ok ps) {i : Instr} (hi : i ∈ is) :
    (i.endsBlock = true → i.endAddress ∈ ps) ∧
      (i.jumps = true → ∀ t, i.target? = some t → t ∈ ps) := by
  induction is generalizing before ps with
  | nil => cases hi
  | cons j is ih =>
    obtain ⟨here, hhere, h⟩ := ok_of_bind h
    obtain ⟨later, hlater, h⟩ := ok_of_bind h
    cases h
    rcases List.mem_cons.mp hi with rfl | hi
    · exact ⟨fun he => List.mem_append_left _ (splitsAt_endAddress hhere he),
        fun hj t ht => List.mem_append_left _ (splitsAt_target hhere hj ht)⟩
    · obtain ⟨hends, hjumps⟩ := ih hlater hi
      exact ⟨fun he => List.mem_append_right _ (hends he),
        fun hj t ht => List.mem_append_right _ (hjumps hj t ht)⟩

/-! ## Wiring -/

section

variable {base g : Graph}

theorem Wired.exits_eq (h : Wired base g) (b : NodeId) : exits (g.node b) = exits (base.node b) := by
  unfold exits Node.instrs
  rw [h.kind, h.stop]

theorem Wired.startingAt?_eq (h : Wired base g) (address : Nat) :
    startingAt? g address = startingAt? base address := by
  unfold startingAt?
  rw [h.blocks]
  simp only [h.start]

theorem succs_connectAll (ts : List NodeId) {g : Graph} {block : NodeId}
    (hb : block < g.nodes.size) (x : NodeId) :
    ((ts.foldl (fun g t => g.connect block t) g).node x).succs =
      (g.node x).succs ++ if x = block then ts else [] := by
  induction ts generalizing g with
  | nil => simp
  | cons t ts ih =>
    rw [List.foldl_cons, ih (by simpa using hb), connect, succs_addPred, addSucc, node_modifyNode]
    by_cases hx : x = block
    · subst hx; simp [hb]
    · simp [hx]

theorem mem_blocks_of_startingAt? {address : Nat} {b : NodeId}
    (h : startingAt? g address = some b) : b ∈ g.blocks ∧ (g.node b).start = address :=
  ⟨List.mem_of_find?_eq_some h, by simpa using List.find?_some h⟩

/-- The blocks where control goes after a block. -/
def targets (g : Graph) (b : NodeId) : List NodeId := (exits (g.node b)).filterMap (startingAt? g)

theorem Wired.succs_wireAll {bs : List NodeId} (h : Wired base g)
    (hbs : ∀ b ∈ bs, b ∈ base.blocks) (hnodup : bs.Nodup) (x : NodeId) :
    ((bs.foldl Blocks.wire g).node x).succs =
      (g.node x).succs ++ if x ∈ bs then targets base x else [] := by
  induction bs generalizing g with
  | nil => simp
  | cons b bs ih =>
    obtain ⟨hb, hnodup⟩ := List.nodup_cons.mp hnodup
    have hmem := hbs b (by simp)
    rw [List.foldl_cons, ih (h.wire hmem) (fun x hx => hbs x (by simp [hx])) hnodup, Blocks.wire,
      succs_connectAll _ (h.sound.blocks b (h.blocks ▸ hmem)), h.exits_eq,
      funext h.startingAt?_eq]
    by_cases hx : x = b
    · subst hx; simp [hb, targets]
    · simp [hx]

theorem unreachable_connect (g : Graph) (a b x : NodeId) :
    ((g.connect a b).node x).unreachable = (g.node x).unreachable := by
  have h := congrArg Node.unreachable (bare_connect g a b x)
  exact h

theorem unreachable_wireAll (bs : List NodeId) (g : Graph) (x : NodeId) :
    ((bs.foldl Blocks.wire g).node x).unreachable = (g.node x).unreachable :=
  foldl_keeps (fun g => (g.node x).unreachable) (fun g b => foldl_keeps
    (fun g => (g.node x).unreachable) (fun g' t => unreachable_connect g' b t x) g _) _ _

/-! ## Hanging dead code -/

theorem preds_connect_of_ne {a b x : NodeId} (hx : x ≠ b) :
    ((g.connect a b).node x).preds = (g.node x).preds := by
  rw [connect, addPred, node_modifyNode, if_neg fun h => hx h.1, preds_addSucc]

theorem node_setUnreachable_of_ne {n x : NodeId} {b : Bool} (hx : x ≠ n) :
    (g.setUnreachable n b).node x = g.node x := by
  rw [setUnreachable, node_modifyNode, if_neg fun h => hx h.1]

theorem succs_setUnreachable (n x : NodeId) (b : Bool) :
    ((g.setUnreachable n b).node x).succs = (g.node x).succs := by
  rw [setUnreachable, node_modifyNode]; split <;> rfl

theorem pair_infix_cons_iff {a b x y : NodeId} {rest : List NodeId} :
    [x, y] <:+: a :: b :: rest ↔ x = a ∧ y = b ∨ [x, y] <:+: b :: rest := by
  rw [List.infix_cons_iff, List.cons_prefix_cons, List.cons_prefix_cons]
  simp

/-- The second of two neighbours is not the first of the list. -/
theorem ne_head_of_infix_pair {b x y : NodeId} {rest : List NodeId} (hnodup : (b :: rest).Nodup)
    (h : [x, y] <:+: b :: rest) : y ≠ b := by
  obtain ⟨hb, -⟩ := List.nodup_cons.mp hnodup
  rintro rfl
  rcases List.infix_cons_iff.mp h with h | h
  · rw [List.cons_prefix_cons] at h
    exact hb (h.2.subset (by simp))
  · exact hb (h.subset (by simp))

/-- One step of hanging dead code: an edge from `a` and the mark, if nothing enters `b`. -/
theorem hang_spec {a b : NodeId} (ha : a < g.nodes.size) (hb : b < g.nodes.size) {g' : Graph}
    (hg : g' = if (g.node b).preds.isEmpty then (g.setUnreachable b true).connect a b else g) :
    g'.nodes.size = g.nodes.size ∧
      (∀ x, (g'.node x).succs =
        (g.node x).succs ++ if x = a ∧ (g.node b).preds = [] then [b] else []) ∧
      (∀ y, y ≠ b → (g'.node y).preds = (g.node y).preds) ∧
      ∀ y, (g'.node y).unreachable = true ↔
        (g.node y).unreachable = true ∨ y = b ∧ (g.node b).preds = [] := by
  subst hg
  by_cases he : (g.node b).preds = []
  · rw [if_pos (by simp [he])]
    refine ⟨by simp [setUnreachable], fun x => ?_, fun y hy => ?_, fun y => ?_⟩
    · by_cases hx : x = a
      · subst hx
        rw [connect, succs_addPred, addSucc, node_modifyNode,
          if_pos ⟨rfl, by simpa [setUnreachable] using ha⟩]
        simp [succs_setUnreachable, he]
      · rw [succs_connect_of_ne _ _ hx, succs_setUnreachable]
        simp [hx]
    · rw [preds_connect_of_ne hy, node_setUnreachable_of_ne hy]
    · rw [unreachable_connect]
      by_cases hy : y = b
      · subst hy
        rw [setUnreachable, node_modifyNode, if_pos ⟨rfl, hb⟩]
        simp [he]
      · rw [node_setUnreachable_of_ne hy]
        simp [hy]
  · rw [if_neg (by simpa using he)]
    exact ⟨rfl, fun x => by simp [he], fun y _ => rfl, fun y => by simp [he]⟩

/-- Each block that nothing enters gets one edge, from the block before it, and its mark. The edges
that are added on the way enter other blocks than those still to be looked at. -/
theorem chainDead_spec {bs : List NodeId} (hbs : ∀ b ∈ bs, b < g.nodes.size) (hnodup : bs.Nodup) :
    (∀ x, ∃ extra, ((chainDead g bs).node x).succs = (g.node x).succs ++ extra ∧
      extra.length ≤ 1 ∧ ∀ y, y ∈ extra ↔ [x, y] <:+: bs ∧ (g.node y).preds = []) ∧
    ∀ y, ((chainDead g bs).node y).unreachable = true ↔
      (g.node y).unreachable = true ∨ ∃ x, [x, y] <:+: bs ∧ (g.node y).preds = [] := by
  have short : ∀ {x y : NodeId} {l : List NodeId}, l.length ≤ 1 → ¬ [x, y] <:+: l := fun hl hi => by
    have := hi.length_le
    simp only [List.length_cons, List.length_nil] at this
    omega
  induction bs generalizing g with
  | nil =>
    exact ⟨fun x => ⟨[], by simp [chainDead], by simp, fun y => by simp [short]⟩,
      fun y => by simp [chainDead, short]⟩
  | cons a bs ih =>
    cases bs with
    | nil =>
      exact ⟨fun x => ⟨[], by simp [chainDead], by simp, fun y => by simp [short]⟩,
        fun y => by simp [chainDead, short]⟩
    | cons b rest =>
      obtain ⟨ha, hnodup'⟩ := List.nodup_cons.mp hnodup
      rw [chainDead]
      generalize hg : (if (g.node b).preds.isEmpty = true then
        (g.setUnreachable b true).connect a b else g) = g'
      obtain ⟨hsize, hsucc, hpred, hmark⟩ :=
        hang_spec (hbs a (by simp)) (hbs b (by simp)) hg.symm
      obtain ⟨hedges, hmarks⟩ := ih (g := g')
        (fun x hx => hsize ▸ hbs x (List.mem_cons_of_mem _ hx)) hnodup'
      have later : ∀ x y, [x, y] <:+: b :: rest ∧ (g'.node y).preds = [] ↔
          [x, y] <:+: b :: rest ∧ (g.node y).preds = [] := fun x y =>
        and_congr_right fun hi => by rw [hpred y (ne_head_of_infix_pair hnodup' hi)]
      refine ⟨fun x => ?_, fun y => ?_⟩
      · obtain ⟨extra, hextra, hlen, hmem⟩ := hedges x
        refine ⟨(if x = a ∧ (g.node b).preds = [] then [b] else []) ++ extra, ?_, ?_, fun y => ?_⟩
        · rw [hextra, hsucc, List.append_assoc]
        · -- only the first of the list gets the new edge, and it gets no other one
          by_cases hx : x = a
          · have : extra = [] := List.eq_nil_iff_forall_not_mem.mpr fun y hy =>
              ha (hx ▸ ((hmem y).mp hy).1.subset (by simp))
            rw [this, List.append_nil]
            split <;> simp
          · simpa [hx] using hlen
        · rw [List.mem_append, hmem, later, pair_infix_cons_iff, or_and_right]
          refine or_congr_left ?_
          by_cases hc : x = a ∧ (g.node b).preds = []
          · rw [if_pos hc, List.mem_singleton]
            exact ⟨fun hy => ⟨⟨hc.1, hy⟩, hy ▸ hc.2⟩, fun hy => hy.1.2⟩
          · rw [if_neg hc]
            constructor
            · intro hy
              cases hy
            · rintro ⟨⟨hx, hy⟩, he⟩
              exact absurd ⟨hx, hy ▸ he⟩ hc
      · rw [hmarks, hmark, or_assoc]
        refine or_congr_right ?_
        simp only [later, pair_infix_cons_iff, or_and_right, exists_or]
        refine or_congr_left ⟨fun hy => ⟨a, ⟨rfl, hy.1⟩, hy.1 ▸ hy.2⟩, ?_⟩
        rintro ⟨x, ⟨-, hy⟩, he⟩
        exact ⟨hy, hy ▸ he⟩

end

end Blocks

/-! ## The graph of an entry -/

open Blocks

/-- What a successful search for blocks went through: the points where the code was cut, all of
them block starts, and the two loops that connect the blocks. -/
theorem findBlocks_eq {code : CodeEntry} {g : Graph} (h : findBlocks code = .ok g) :
    CodeEntry.endOf code.instrs = code.length ∧ ∃ points asked,
      splitsFrom [] code.instrs = .ok asked ∧ (∀ p ∈ asked, p ∈ points) ∧
      (∀ c ∈ code.descendants, c.start ∈ points) ∧
      (∀ p ∈ points, ∃ n ∈ nodesOf points code, n.start = p) ∧
      g = chainDead ((islands (nodesOf points code) code.length).blocks.foldl wire
        (islands (nodesOf points code) code.length))
        (islands (nodesOf points code) code.length).blocks := by
  unfold findBlocks at h
  dsimp only at h
  split at h
  · cases h
  · rename_i hlength
    obtain ⟨points, hpoints, h⟩ := ok_of_bind h
    obtain ⟨asked, hasked, hpoints⟩ := ok_of_bind hpoints
    cases hpoints
    split at h
    · cases h
    · rename_i hmin
      cases h
      refine ⟨Classical.not_not.mp hlength, _, asked, hasked, fun p hp => by simp [hp],
        fun c hc => by simp [List.mem_map_of_mem (f := CodeEntry.start) hc], fun p hp => ?_, rfl⟩
      rw [List.min?_eq_none_iff, List.filter_eq_nil_iff] at hmin
      simpa using hmin p hp

theorem Tiles.next {stop start : Nat} {ns : List Node} (h : Tiles stop start ns) {n : Node}
    (hn : n ∈ ns) (hlt : n.start < n.stop) : ∃ m ∈ ns, m.start = n.stop := by
  induction ns generalizing start with
  | nil => cases hn
  | cons k ns ih =>
    cases ns with
    | nil =>
      obtain ⟨-, hstart, hstop⟩ := h
      rw [List.mem_singleton.mp hn] at hlt
      omega
    | cons m ns =>
      obtain ⟨-, -, hrest⟩ := h
      rcases List.mem_cons.mp hn with rfl | hn
      · refine ⟨m, by simp, ?_⟩
        cases ns with
        | nil => exact hrest.2.1.trans hrest.1.symm
        | cons => exact hrest.1
      · obtain ⟨l, hl, he⟩ := ih hrest hn
        exact ⟨l, List.mem_cons_of_mem _ hl, he⟩

/-- The edges of a block lead where its last instruction does, if its jumps know their targets. -/
theorem exits_eq_nexts {n : Node} {i : Instr} (hi : n.instrs.getLast? = some i)
    (hstop : i.endAddress = n.stop) (hoffset : i.jumps = true → i.target?.isSome = true) :
    exits n = i.nexts := by
  unfold exits Instr.nexts
  rw [hi, ← hstop]
  dsimp only
  cases ht : i.target? with
  | some t => rfl
  | none =>
    have hj : i.jumps ≠ true := fun hj => by simpa [ht] using hoffset hj
    unfold Instr.jumps at hj
    cases hop : i.opcode <;> simp_all

theorem mem_nexts {i : Instr} {address : Nat} (h : address ∈ i.nexts) :
    address = i.endAddress ∨ i.jumps = true ∧ i.target? = some address := by
  unfold Instr.nexts at h
  unfold Instr.jumps
  cases hop : i.opcode <;> simp_all

namespace Graph

variable {code : CodeEntry} {g : Graph}

theorem Tiled.startingAt?_eq_some_iff (h : g.Tiled code) {address : Nat} {b : NodeId} :
    startingAt? g address = some b ↔ b ∈ g.blocks ∧ (g.node b).start = address := by
  refine ⟨mem_blocks_of_startingAt?, fun ⟨hb, hs⟩ => ?_⟩
  obtain ⟨c, hc⟩ : ∃ c, startingAt? g address = some c := by
    rw [← Option.isSome_iff_exists, startingAt?, List.find?_isSome]
    exact ⟨b, hb, by simpa using hs⟩
  obtain ⟨hcb, hcs⟩ := mem_blocks_of_startingAt? hc
  have hb' := (blockAt?_eq_some_iff h.ascending).mpr ⟨hb, hs⟩
  have hc' := (blockAt?_eq_some_iff h.ascending).mpr ⟨hcb, hcs⟩
  rw [hc, ← hc', hb']

end Graph

namespace Blocks

variable {points asked : List Nat} {code : CodeEntry} {base g : Graph}

/-- Every address where control can go after a block is where a block starts. -/
theorem exists_block_of_mem_exits
    (hoffset : ∀ i ∈ code.instrs, i.jumps = true → i.offset?.isSome = true) (ht : g.Tiled code)
    (hfilled : ∀ b ∈ g.blocks, Filled (g.node b))
    (hjumps : ∀ i ∈ code.instrs, i.jumps = true → ∀ t, i.target? = some t →
      ∃ b ∈ g.blocks, (g.node b).start = t) {a : NodeId} (ha : a ∈ g.blocks) :
    exits (g.node a) = g.nexts a ∧
      ∀ address ∈ g.nexts a, ∃ b ∈ g.blocks, (g.node b).start = address := by
  unfold Graph.nexts Graph.lastInstr? Graph.instrs
  cases hi : (g.node a).instrs.getLast? with
  | none =>
    refine ⟨by rw [exits, hi]; rfl, fun address hm => by cases hm⟩
  | some i =>
    have hcode : i ∈ code.instrs := (ht.holds a ha).sublist.subset (List.mem_of_getLast? hi)
    have hstop : i.endAddress = (g.node a).stop := by
      rw [← (hfilled a ha).stop, endFrom_getLast _ hi]
    refine ⟨exits_eq_nexts hi hstop fun hj => ?_, fun address hm => ?_⟩
    · rw [Instr.target?, Option.isSome_map]
      exact hoffset i hcode hj
    · rcases mem_nexts hm with rfl | ⟨hj, htarget⟩
      · have hbounds := (ht.holds a ha).bounds i (List.mem_of_getLast? hi)
        obtain ⟨m, hm, hstart⟩ := ht.tiles.next (List.mem_map_of_mem ha) (by omega)
        obtain ⟨b, hb, rfl⟩ := List.mem_map.mp hm
        exact ⟨b, hb, hstart.trans hstop.symm⟩
      · exact hjumps i hcode hj address htarget

/-- The blocks found for addresses start there, where each address has a block. -/
theorem map_start_filterMap (ht : g.Tiled code) {addresses : List Nat}
    (h : ∀ address ∈ addresses, ∃ b ∈ g.blocks, (g.node b).start = address) :
    (addresses.filterMap (startingAt? g)).map (fun b => (g.node b).start) = addresses := by
  induction addresses with
  | nil => rfl
  | cons address rest ih =>
    obtain ⟨b, hb⟩ := h address (by simp)
    rw [List.filterMap_cons_some (ht.startingAt?_eq_some_iff.mpr hb), List.map_cons, hb.2,
      ih fun x hx => h x (List.mem_cons_of_mem _ hx)]

end Blocks

/-- The edges of a block graph: to the blocks where control goes, then to the next block if nothing
else leads there. -/
theorem findBlocks_edges {code : CodeEntry} {g : Graph} (h : findBlocks code = .ok g) :
    (∀ x ∈ g.blocks, ∃ extra, (g.node x).succs = targets g x ++ extra ∧ extra.length ≤ 1 ∧
      ∀ y, y ∈ extra ↔ [x, y] <:+: g.blocks ∧ ∀ c ∈ g.blocks, y ∉ targets g c) ∧
    ∀ y, (g.node y).unreachable = true ↔
      ∃ x, [x, y] <:+: g.blocks ∧ ∀ c ∈ g.blocks, y ∉ targets g c := by
  obtain ⟨-, points, -, -, -, -, -, hg⟩ := findBlocks_eq h
  have hplain : ∀ n ∈ nodesOf points code, ∃ is start stop, n = .ofKind (.block is) start stop 0 :=
    fun n hn => nodesOf_ofKind hn
  have hw := islands_wired points code
  generalize nodesOf points code = nodes at hg hplain hw
  have hnodup : (islands nodes code.length).blocks.Nodup := List.nodup_range
  have hbare : ∀ x, ((islands nodes code.length).node x).succs = [] ∧
      ((islands nodes code.length).node x).unreachable = false := fun x => by
    rw [node_islands]
    cases hx : nodes[x]? with
    | none => exact ⟨rfl, rfl⟩
    | some n =>
      obtain ⟨_, _, _, rfl⟩ := hplain n (List.mem_of_getElem? hx)
      exact ⟨rfl, rfl⟩
  generalize islands nodes code.length = base at hg hw hnodup hbare
  have hall : ∀ b ∈ base.blocks, b ∈ base.blocks := fun _ hb => hb
  have hw₁ := hw.wireAll hall
  have hw₂ := hw₁.chainDead hall
  have hsuccs := hw.succs_wireAll hall hnodup
  have hmark : ∀ x, ((base.blocks.foldl wire base).node x).unreachable = false := fun x =>
    (unreachable_wireAll _ base x).trans (hbare x).2
  have hlt : ∀ b ∈ base.blocks, b < (base.blocks.foldl wire base).nodes.size := fun b hb =>
    hw₁.sound.blocks b (by rw [hw₁.blocks]; exact hb)
  obtain ⟨hedges, hmarks⟩ := chainDead_spec hlt hnodup
  rw [← hg] at hw₂ hedges hmarks
  have htargets : ∀ c, targets base c = targets g c := fun c => by
    rw [targets, targets, hw₂.exits_eq, funext hw₂.startingAt?_eq]
  -- the two copies of the edges agree, so a block without predecessors is no one's target
  have hpreds : ∀ y, ((base.blocks.foldl wire base).node y).preds = [] ↔
      ∀ c ∈ base.blocks, y ∉ targets g c := fun y => by
    rw [List.eq_nil_iff_forall_not_mem]
    refine forall_congr' fun c => ?_
    rw [← List.count_eq_zero, ← hw₁.sound.dual, hsuccs, (hbare c).1, List.nil_append,
      List.count_eq_zero, ← htargets]
    by_cases hc : c ∈ base.blocks <;> simp [hc]
  rw [hw₂.blocks]
  refine ⟨fun x hx => ?_, fun y => ?_⟩
  · obtain ⟨extra, hextra, hlen, hmem⟩ := hedges x
    refine ⟨extra, ?_, hlen, fun y => by rw [hmem, hpreds]⟩
    rw [hextra, hsuccs, (hbare x).1, if_pos hx, htargets, List.nil_append]
  · simp [hmarks, hmark, hpreds]

/-- The code of a block graph: the blocks hold all of it in order, no block runs on after control may
have gone elsewhere, and where a jump leads a block starts. -/
theorem findBlocks_code {code : CodeEntry} {g : Graph} (hc : Contiguous 0 code.instrs)
    (h : findBlocks code = .ok g) :
    (∀ b ∈ g.blocks, Filled (g.node b)) ∧ g.blocks.flatMap g.instrs = code.instrs ∧
      (∀ b ∈ g.blocks, ∀ i ∈ (g.instrs b).dropLast, i.endsBlock = false) ∧
      ∀ i ∈ code.instrs, i.jumps = true → ∀ t, i.target? = some t →
        ∃ b ∈ g.blocks, (g.node b).start = t := by
  obtain ⟨hlength, points, asked, hasked, hsub, -, hpoints, hg⟩ := findBlocks_eq h
  obtain ⟨hinstrs, hfilled⟩ := nodesOf_filled points hc hlength
  have hw := islands_wired points code
  generalize nodesOf points code = nodes at *
  have hnodes := map_node_islands nodes code.length
  generalize islands nodes code.length = base at *
  have hall : ∀ b ∈ base.blocks, b ∈ base.blocks := fun _ hb => hb
  have hw₂ := (hw.wireAll hall).chainDead hall
  rw [← hg] at hw₂
  have hcode : ∀ b, (g.node b).instrs = (base.node b).instrs := fun b => by
    rw [Node.instrs, hw₂.kind]; rfl
  have hflat : g.blocks.map g.instrs = cut points code.instrs ++ [[]] := by
    rw [← hinstrs, ← hnodes, List.map_map, hw₂.blocks]
    exact List.map_congr_left fun b _ => hcode b
  have hfill : ∀ b ∈ g.blocks, Filled (g.node b) := fun b hb => by
    have hb' := hfilled _ (hnodes ▸ List.mem_map_of_mem (hw₂.blocks ▸ hb))
    exact ⟨by rw [hw₂.start, hcode]; exact hb'.contiguous,
      by rw [hw₂.start, hw₂.stop, hcode]; exact hb'.stop⟩
  refine ⟨hfill, ?_, fun b hb i hi => ?_, fun i hi hj t htarget => ?_⟩
  · rw [List.flatMap_def, hflat]
    simp [cut_flatten]
  · have hgroup : g.instrs b ∈ cut points code.instrs ++ [[]] := hflat ▸ List.mem_map_of_mem hb
    rcases List.mem_append.mp hgroup with hgroup | hgroup
    · -- an instruction that ends a block would put a split point before its follower
      obtain ⟨j, hj, hnext⟩ := (hfill b hb).contiguous.follower hi
      refine Bool.eq_false_iff.mpr fun hends => ?_
      have hi' : i ∈ code.instrs := by
        rw [← cut_flatten points code.instrs]
        exact List.mem_flatten.mpr ⟨_, hgroup, List.dropLast_subset _ hi⟩
      exact cut_tail points code.instrs _ hgroup j hj
        (hnext ▸ hsub _ ((mem_splitsFrom hasked hi').1 hends))
    · rw [List.mem_singleton.mp hgroup] at hi
      cases hi
  · obtain ⟨n, hn, hstart⟩ := hpoints t (hsub t ((mem_splitsFrom hasked hi).2 hj t htarget))
    rw [← hnodes] at hn
    obtain ⟨b, hb, rfl⟩ := List.mem_map.mp hn
    exact ⟨b, hw₂.blocks ▸ hb, (hw₂.start b).trans hstart⟩

/-- The blocks of an entry form the graph of its control flow. -/
theorem controlFlow_findBlocks {code : CodeEntry} {g : Graph} (hc : Contiguous 0 code.instrs)
    (hoffset : ∀ i ∈ code.instrs, i.jumps = true → i.offset?.isSome = true)
    (h : findBlocks code = .ok g) : g.ControlFlow code := by
  have ht := findBlocks_tiled hc h
  obtain ⟨hfilled, hcode, hends, hjumps⟩ := findBlocks_code hc h
  obtain ⟨hsuccs, hmarks⟩ := findBlocks_edges h
  have hexits : ∀ a ∈ g.blocks, exits (g.node a) = g.nexts a ∧
      ∀ address ∈ g.nexts a, ∃ b ∈ g.blocks, (g.node b).start = address := fun a ha =>
    exists_block_of_mem_exits hoffset ht hfilled hjumps ha
  have hchained : ∀ x y, ([x, y] <:+: g.blocks ∧ ∀ c ∈ g.blocks, y ∉ targets g c) ↔
      g.Chained x y := fun x y => and_congr_right fun hi => forall₂_congr fun c hc => by
    have hy : y ∈ g.blocks := hi.subset (by simp)
    rw [targets, (hexits c hc).1, List.mem_filterMap]
    refine not_congr ⟨fun ⟨address, hm, hs⟩ => ?_, fun hm => ⟨_, hm, ?_⟩⟩
    · rw [(ht.startingAt?_eq_some_iff.mp hs).2]; exact hm
    · exact ht.startingAt?_eq_some_iff.mpr ⟨hy, rfl⟩
  refine ⟨hcode, hends, fun a ha => ?_, fun b _ => by simp only [hmarks, hchained]⟩
  obtain ⟨extra, he, hlen, hmem⟩ := hsuccs a ha
  refine ⟨targets g a, extra, he, ?_, fun b hb => ?_, hlen, fun b => by rw [hmem, hchained]⟩
  · rw [targets, (hexits a ha).1]
    exact map_start_filterMap ht (hexits a ha).2
  · obtain ⟨address, -, hs⟩ := List.mem_filterMap.mp hb
    exact (ht.startingAt?_eq_some_iff.mp hs).1

/-- A conditional jump over a jump to the end and over a value that is dropped by no one. -/
def deadDrop : CodeEntry := .ofInstrs "dead_drop"
  [⟨0, .push, none, .var, .var, .var ⟨"a", -1, .normal⟩⟩, ⟨8, .conv, none, .var, .bool, .none⟩,
    ⟨12, .bf, none, .int32, .int32, .branch 12⟩, ⟨16, .b, none, .int32, .int32, .branch 12⟩,
    ⟨20, .popz, none, .var, .var, .none⟩, ⟨24, .exit, none, .int32, .int32, .none⟩]

theorem controlFlow_findBlocks_deadDrop : ∃ g, findBlocks deadDrop = .ok g ∧
    g.blocks.map (fun b => ((g.node b).start, (g.node b).succs, (g.node b).unreachable)) =
      [(0, [1, 3], false), (16, [4, 2], false), (20, [3], true), (24, [], false),
        (28, [], false)] ∧
    g.ControlFlow deadDrop :=
  ⟨_, rfl, by decide, controlFlow_findBlocks ⟨rfl, rfl, rfl, rfl, rfl, rfl, trivial⟩ (by decide) rfl⟩

end GmlLift
