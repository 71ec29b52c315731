import GmlLift.Frame.Execute
import GmlLift.Proofs.Flow.Acyclic
import GmlLift.Proofs.Flow.Nesting
import GmlLift.Proofs.Flow.SingleEntry

/-! # Jumps to the step of a loop

Which loops are marked as `for` loops is decided by the jumps that resolving finds: a loop is marked
exactly when some block ends in a `b` to the loop's last block that is not taken for the end of a
true branch. What the last block holds does not come into it. -/
namespace GmlLift

open GmlLift.Graph Pass

variable {craft : Craft} {base g : Graph}

/-! ## Kinds of node before conditionals are folded -/

/-- Only the last instruction of a block ends it, and no loop is marked. -/
def NodeKind.Calm : NodeKind → Prop
  | .block is => ∀ i ∈ is.dropLast, i.endsBlock = false
  | .loop info => info.continuesToStep = false
  | _ => True

/-- What has something behind it in part of a list has something behind it in the list. -/
theorem mem_dropLast_of_sublist {α : Type} {xs ys : List α} (h : xs.Sublist ys) {x : α}
    (hx : x ∈ xs.dropLast) : x ∈ ys.dropLast := by
  induction h with
  | slnil => cases hx
  | @cons xs ys y _ ih =>
    have hys := ih hx
    have hne : ys ≠ [] := by
      rintro rfl
      cases hys
    rw [List.dropLast_cons_of_ne_nil hne]
    exact List.mem_cons_of_mem y hys
  | @cons_cons xs ys y hsub ih =>
    have hne : xs ≠ [] := by
      rintro rfl
      cases hx
    have hne' : ys ≠ [] := by
      rintro rfl
      exact hne (List.sublist_nil.mp hsub)
    rw [List.dropLast_cons_of_ne_nil hne] at hx
    rw [List.dropLast_cons_of_ne_nil hne']
    rcases List.mem_cons.mp hx with rfl | hx
    · exact List.mem_cons_self
    · exact List.mem_cons_of_mem y (ih hx)

theorem KindStep.calm {k k' : NodeKind} (hcraft : craft ≠ .branches) (h : KindStep craft k k')
    (hk : k.Calm) : k'.Calm := by
  cases h with
  | same => exact hk
  | shrink hsub =>
    intro i hi
    exact hk i (mem_dropLast_of_sublist hsub hi)
  | inform hc => exact absurd hc hcraft
  | list => trivial

theorem NodeKind.calm_of_addable {k : NodeKind} (h : k.addable craft = true) : k.Calm := by
  cases k with
  | block => cases h
  | loop info =>
    have hflag := (Bool.and_eq_true_iff.mp h).2
    show info.continuesToStep = false
    simpa using hflag
  | _ => trivial

theorem calm_splitBlock (hg : ∀ i, (g.gist i).kind.Calm) (n : NodeId) (address : Nat) (i : NodeId) :
    ((g.splitBlock n address).1.gist i).kind.Calm := by
  rcases splitBlock_cases g n address with he | ⟨k, hk⟩
  · rw [he]
    exact hg i
  have hne := instrs_ne_nil_of_findIdx? hk
  have hn : n < g.nodes.size := lt_size_of_instrs hne
  have hblock : (g.gist n).isBlock = true := isBlock_of_instrs hne
  have hcode : NodeKind.Calm (.block (g.instrs n)) := by
    intro j hj
    have hcalm := hg n
    rw [gist_kind] at hcalm
    rw [Graph.instrs, Node.instrs] at hj
    split at hj
    · rename_i is hkind
      rw [hkind] at hcalm
      exact hcalm j hj
    · cases hj
  have hpart {is : List Instr} (hsub : is.Sublist (g.instrs n)) : NodeKind.Calm (.block is) := by
    intro j hj
    exact hcode j (mem_dropLast_of_sublist hsub hj)
  rw [splitBlock_eq hk]
  -- listing the second half in a fragment touches no block
  have hlist : ∀ (g' : Graph) fs, ((g'.insertInFragment n g.nodes.size fs).gist i).kind.Calm ↔
      (g'.gist i).kind.Calm := by
    intro g' fs
    rcases node_insertInFragment g' n g.nodes.size fs i with he | ⟨_, _, _, hf, he⟩
    · rw [gist_kind, he, gist_kind]
    · rw [gist_kind, he, gist_kind, hf]
      exact Iff.rfl
  rw [hlist, gist_halve]
  rcases Nat.lt_trichotomy i g.nodes.size with hlt | rfl | hlt
  · by_cases hin : i = n
    · rw [hin, gist_cutBlock_self address (k + 1) hn hblock]
      exact hpart (List.take_sublist ..)
    · rw [gist_cutBlock_of_ne address (k + 1) hlt hin]
      exact hg i
  · rw [gist_cutBlock_new address (k + 1) hn]
    exact hpart (List.drop_sublist ..)
  · have hbeyond : (g.cutBlock n address (k + 1)).nodes.size ≤ i := by
      rw [size_cutBlock]
      exact hlt
    rw [gist_kind, node_of_size_le hbeyond]
    trivial

/-- Every pass but the one for conditionals keeps all kinds calm. -/
theorem Edited.calm (h : Edited craft base g) (hcraft : craft ≠ .branches)
    (hbase : ∀ i, (base.gist i).kind.Calm) (i : NodeId) : (g.gist i).kind.Calm := by
  induction h generalizing i with
  | refl => exact hbase i
  | @patch g _ n f hf ih =>
    rw [gist_kind, node_modifyNode]
    split
    · rename_i he
      rw [he.1]
      exact hf.kind.calm hcraft (ih n)
    · exact ih i
  | setLoops _ _ _ ih => exact ih i
  | setFragments _ _ _ ih => exact ih i
  | @add g _ kind hk start stop slots ih =>
    rcases Nat.lt_trichotomy i g.nodes.size with hlt | rfl | hlt
    · rw [gist_add_of_lt _ _ hlt]
      exact ih i
    · rw [gist_add]
      exact NodeKind.calm_of_addable hk
    · rw [gist_kind, node_of_size_le (by rw [size_add]; exact hlt)]
      trivial
  | connect _ _ _ _ _ _ ih => rw [gist_connect]; exact ih i
  | disconnect _ _ _ ih => rw [gist_disconnect]; exact ih i
  | disconnectSuccessors _ _ ih => rw [gist_disconnectSuccessors]; exact ih i
  | replaceSuccessor _ _ _ _ _ _ ih => rw [gist_replaceSuccessor]; exact ih i
  | writeSlot _ _ _ _ _ _ _ ih => rw [gist_writeSlot]; exact ih i
  | swapChild _ _ _ _ _ _ ih => rw [gist_mapChildren]; exact ih i
  | splitBlock _ _ _ address ih => exact calm_splitBlock ih _ address i

/-! ## The facts about loops -/

/-- The facts about a loop in its kind. -/
def NodeKind.loop? : NodeKind → Option LoopInfo
  | .loop info => some info
  | _ => none

namespace Graph

theorem loopInfo?_eq (g : Graph) (l : NodeId) : g.loopInfo? l = (g.gist l).kind.loop? := by
  rw [gist_kind]
  rfl

theorem loopInfo?_of_gist {g' : Graph} {l : NodeId} (h : g'.gist l = g.gist l) :
    g'.loopInfo? l = g.loopInfo? l := by
  rw [loopInfo?_eq, h, loopInfo?_eq]

@[simp] theorem loopInfo?_connect (a b l : NodeId) : (g.connect a b).loopInfo? l = g.loopInfo? l :=
  loopInfo?_of_gist (gist_connect ..)

@[simp] theorem loopInfo?_disconnect (a b l : NodeId) :
    (g.disconnect a b).loopInfo? l = g.loopInfo? l := loopInfo?_of_gist (gist_disconnect ..)

@[simp] theorem loopInfo?_disconnectSuccessors (n l : NodeId) :
    (g.disconnectSuccessors n).loopInfo? l = g.loopInfo? l :=
  loopInfo?_of_gist (gist_disconnectSuccessors ..)

@[simp] theorem loopInfo?_redirectPredecessors (old new : NodeId) (p : Node → Bool) (l : NodeId) :
    (g.redirectPredecessors old new p).loopInfo? l = g.loopInfo? l :=
  loopInfo?_of_gist (gist_redirectPredecessors ..)

@[simp] theorem loopInfo?_replaceInParent (old new l : NodeId) :
    (g.replaceInParent old new).loopInfo? l = g.loopInfo? l :=
  loopInfo?_of_gist (gist_replaceInParent ..)

@[simp] theorem loopInfo?_setChild (n : NodeId) (slot : Nat) (child : Option NodeId) (l : NodeId) :
    (g.setChild n slot child).loopInfo? l = g.loopInfo? l :=
  loopInfo?_of_gist (gist_setChild ..)

theorem loopInfo?_mapInstrs (g : Graph) (n : NodeId) (f : List Instr → List Instr) (l : NodeId) :
    (g.mapInstrs n f).loopInfo? l = g.loopInfo? l := by
  rw [loopInfo?_eq, loopInfo?_eq, gist_kind, gist_kind, Graph.mapInstrs, node_modifyNode]
  split
  · unfold Node.mapInstrs
    split
    · rename_i hk
      rw [hk]
      rfl
    · rfl
  · rfl

@[simp] theorem loopInfo?_stripLast (n count l : NodeId) :
    (g.stripLast n count).loopInfo? l = g.loopInfo? l := loopInfo?_mapInstrs ..

theorem loopInfo?_add (g : Graph) {x : Node} (hx : x.kind.loop? = none) (l : NodeId) :
    (g.add x).loopInfo? l = g.loopInfo? l := by
  rw [loopInfo?_eq, loopInfo?_eq, gist_kind, gist_kind, node_add]
  split
  · rename_i he
    rw [he, hx, node_of_size_le (Nat.le_refl g.nodes.size)]
    rfl
  · rfl

/-! ## The loops around an address -/

theorem foldl_innerLoop_mem (g : Graph) (ls : List NodeId) (l : NodeId) :
    ls.foldl g.innerLoop l ∈ l :: ls := by
  induction ls generalizing l with
  | nil => exact List.mem_cons_self
  | cons r ls ih =>
    rw [List.foldl_cons]
    have hinner : g.innerLoop l r = l ∨ g.innerLoop l r = r := by
      unfold innerLoop
      dsimp only
      split
      · exact .inl rfl
      · exact .inr rfl
    have hmem := ih (g.innerLoop l r)
    grind

theorem mem_loops_of_enclosingLoop? {address : Nat} {l : NodeId}
    (h : g.enclosingLoop? address = some l) : l ∈ g.loops := by
  unfold enclosingLoop? at h
  split at h
  · cases h
  · rename_i r rest hfilter
    cases h
    have hmem := g.foldl_innerLoop_mem rest r
    rw [← hfilter] at hmem
    exact (List.mem_filter.mp hmem).1

/-- Which loop is the innermost one depends on where the loops stand. -/
theorem enclosingLoop?_congr {g' : Graph} (hl : g'.loops = g.loops)
    (hn : ∀ l ∈ g.loops, (g'.node l).start = (g.node l).start ∧ (g'.node l).stop = (g.node l).stop)
    (address : Nat) : g'.enclosingLoop? address = g.enclosingLoop? address := by
  have hfilter : (g'.loops.filter fun l => (g'.node l).covers address) =
      g.loops.filter fun l => (g.node l).covers address := by
    rw [hl]
    refine List.filter_congr fun l hmem => ?_
    rw [Node.covers, Node.covers, (hn l hmem).1, (hn l hmem).2]
  have hfold : ∀ (ls : List NodeId) (l : NodeId), (∀ x ∈ l :: ls, x ∈ g.loops) →
      ls.foldl g'.innerLoop l = ls.foldl g.innerLoop l := by
    intro ls
    induction ls with
    | nil => exact fun _ _ => rfl
    | cons r ls ih =>
      intro l hmem
      have hinner : g'.innerLoop l r = g.innerLoop l r := by
        unfold innerLoop
        dsimp only
        rw [(hn l (hmem l (by simp))).1, (hn l (hmem l (by simp))).2, (hn r (hmem r (by simp))).1,
          (hn r (hmem r (by simp))).2]
      rw [List.foldl_cons, List.foldl_cons, hinner]
      refine ih _ fun x hx => ?_
      rcases List.mem_cons.mp hx with rfl | hx
      · have hone := g.foldl_innerLoop_mem [r] l
        exact hmem _ (by simpa using Or.imp_right .inl (by simpa using hone))
      · exact hmem x (by simp [hx])
  unfold enclosingLoop?
  rw [hfilter]
  cases hls : g.loops.filter fun l => (g.node l).covers address with
  | nil => rfl
  | cons l ls =>
    refine congrArg some (hfold ls l fun x hx => ?_)
    exact (List.mem_filter.mp (hls ▸ hx)).1

end Graph

namespace Branch

/-- The facts about a loop that are known when it is folded. -/
def facts (g : Graph) (l : NodeId) : Option LoopInfo :=
  (g.loopInfo? l).map fun info => { info with continuesToStep := false }

/-- What jumps are looked up in. -/
structure Similar (base g : Graph) : Prop where
  blocks : g.blocks = base.blocks
  loops : g.loops = base.loops
  bounds : ∀ n < base.nodes.size,
    (g.node n).start = (base.node n).start ∧ (g.node n).stop = (base.node n).stop
  falseTarget : ∀ b ∈ base.blocks, falseTarget? g b = falseTarget? base b
  facts : ∀ l, facts g l = facts base l

theorem Similar.endsTrueBranch (h : Similar base g) (hlt : ∀ b ∈ base.blocks, b < base.nodes.size)
    {block : NodeId} (hblock : block ∈ base.blocks) (hcode : g.instrs block = base.instrs block)
    (target start : Nat) :
    endsTrueBranch g block target start = endsTrueBranch base block target start := by
  have hstart : ∀ b ∈ base.blocks, (g.node b).start = (base.node b).start :=
    fun b hb => (h.bounds b (hlt b hb)).1
  have hstop : ∀ b ∈ base.blocks, (g.node b).stop = (base.node b).stop :=
    fun b hb => (h.bounds b (hlt b hb)).2
  have hbefore : (g.blocks.filter fun b =>
        start ≤ (g.node b).start && (g.node b).start < (g.node block).start) =
      base.blocks.filter fun b =>
        start ≤ (base.node b).start && (base.node b).start < (base.node block).start := by
    rw [h.blocks]
    refine List.filter_congr fun b hb => ?_
    rw [hstart b hb, hstart block hblock]
  unfold Branch.endsTrueBranch
  dsimp only
  rw [hbefore, hstop block hblock, hstart block hblock, hcode]
  have hmem : ∀ b ∈ (base.blocks.filter fun b =>
      start ≤ (base.node b).start && (base.node b).start < (base.node block).start),
      b ∈ base.blocks := fun b hb => (List.mem_filter.mp hb).1
  generalize (base.blocks.filter fun b =>
    start ≤ (base.node b).start && (base.node b).start < (base.node block).start) = before at hmem
  have hfind : (before.reverse.find? fun b => falseTarget? g b == some (base.node block).stop) =
      before.reverse.find? fun b => falseTarget? base b == some (base.node block).stop := by
    rw [← List.head?_filter, ← List.head?_filter]
    refine congrArg List.head? (List.filter_congr fun b hb => ?_)
    rw [h.falseTarget b (hmem b (List.mem_reverse.mp hb))]
  rw [hfind]
  cases hfound : before.reverse.find? fun b =>
      falseTarget? base b == some (base.node block).stop with
  | none => rfl
  | some owner =>
    have howner := hmem owner (List.mem_reverse.mp (List.mem_of_find?_eq_some hfound))
    dsimp only
    rw [hstop owner howner, hstart owner howner]
    have hany : (before.any fun b => (g.node b).start < (base.node owner).start
        && (falseTarget? g b).any fun t => (base.node block).stop ≤ t && t < target) =
        before.any fun b => (base.node b).start < (base.node owner).start
        && (falseTarget? base b).any fun t => (base.node block).stop ≤ t && t < target := by
      rw [Bool.eq_iff_iff, List.any_eq_true, List.any_eq_true]
      refine exists_congr fun b => and_congr_right fun hb => ?_
      rw [hstart b (hmem b hb), h.falseTarget b (hmem b hb)]
    rw [hany]

/-- What a jump to an address does to a loop, where it may close a true branch or not. -/
def jumpOf (info : LoopInfo) (target : Nat) (closes : Bool) : Option LoopJump :=
  if target = info.continueAddress ∧ (info.kind = .whileLoop ∨ !closes) then some .toHead
  else if info.stepAddress = some target ∧ !closes then some .toStep
  else if info.breakAddress = some target then some .out
  else none

theorem loopJump?_eq (g : Graph) (block : NodeId) : loopJump? g block =
    ((g.lastInstr? block).filter fun last => last.opcode == .b).bind fun last =>
      last.target?.bind fun target => (g.enclosingLoop? last.address).bind fun loop =>
        (facts g loop).bind fun info =>
          let closes := endsTrueBranch g block target (g.node loop).start
          (jumpOf info target closes).map (loop, ·) := by
  unfold loopJump? facts
  cases g.lastInstr? block with
  | none => rfl
  | some last =>
    by_cases hop : last.opcode = .b
    · have hkeep : (some last).filter (fun last => last.opcode == .b) = some last := by simp [hop]
      have hpass : ¬ last.opcode ≠ .b := Classical.not_not.mpr hop
      rw [hkeep]
      simp only [Option.bind_some, Option.bind_eq_bind, if_neg hpass]
      cases last.target? with
      | none => rfl
      | some target =>
        simp only [Option.bind_some]
        cases g.enclosingLoop? last.address with
        | none => rfl
        | some loop =>
          simp only [Option.bind_some]
          cases g.loopInfo? loop with
          | none => rfl
          | some info =>
            simp only [Option.bind_some, Option.map_some, jumpOf]
            split
            · rfl
            · split
              · rfl
              · split <;> rfl
    · simp [hop, Option.filter]

theorem Similar.loopJump? (h : Similar base g) (hlt : ∀ b ∈ base.blocks, b < base.nodes.size)
    (hloops : ∀ l ∈ base.loops, l < base.nodes.size) {block : NodeId} (hblock : block ∈ base.blocks)
    (hcode : g.instrs block = base.instrs block) : loopJump? g block = loopJump? base block := by
  have hloop := enclosingLoop?_congr h.loops fun l hl => h.bounds l (hloops l hl)
  rw [loopJump?_eq, loopJump?_eq, lastInstr?, lastInstr?, hcode]
  refine Option.bind_congr fun last _ => Option.bind_congr fun target _ => ?_
  rw [hloop]
  refine Option.bind_congr fun loop hl => ?_
  have hstart := (h.bounds loop (hloops loop (mem_loops_of_enclosingLoop? hl))).1
  rw [h.facts, hstart, h.endsTrueBranch hlt hblock hcode]

/-! ## Resolving -/

/-- A graph in which the jump at the end of a block has become a node. -/
structure Converted (block : NodeId) (g g' : Graph) : Prop extends Trimmed block g g' where
  blocks : g'.blocks = g.blocks
  loops : g'.loops = g.loops
  size : g.nodes.size ≤ g'.nodes.size
  info : ∀ l, g'.loopInfo? l = g.loopInfo? l

theorem convertJump_converted {block : NodeId} (hb : block < g.nodes.size) {kind : NodeKind}
    (hkind : kind.loop? = none) :
    Ends (convertJump block kind) g (fun _ => Converted block g) (fun _ => False) := by
  unfold convertJump
  simp only [ends_bind, ends_modify, ends_get, ends_add]
  generalize hg₁ : (g.stripLast block 1).disconnectSuccessors block = g₁
  have hsize : g₁.nodes.size = g.nodes.size := by rw [← hg₁]; simp
  generalize (g₁.node block).stop = stop
  have hgist : ∀ n < g.nodes.size, ((g₁.add (.ofKind kind stop stop 0)).connect block
      g₁.nodes.size).gist n = (g.stripLast block 1).gist n := by
    intro n hn
    rw [gist_connect, gist_add_of_lt _ _ (hsize ▸ hn), ← hg₁, gist_disconnectSuccessors]
  refine ⟨(Trimmed.stripLast block).trans hb fun n hn => ?_, ?_, ?_, ?_, fun l => ?_⟩
  · rw [hgist n hn]
    exact ⟨rfl, rfl, rfl⟩
  · exact (congrArg Graph.blocks hg₁).symm.trans (blocks_disconnectSuccessors ..)
  · exact (congrArg Graph.loops hg₁).symm.trans (loops_disconnectSuccessors ..)
  · rw [size_connect, size_add, hsize]
    exact Nat.le_succ _
  · rw [loopInfo?_connect, loopInfo?_add _ hkind, ← hg₁, loopInfo?_disconnectSuccessors,
      loopInfo?_stripLast]

/-- Some `continue` is known to jump to the step of the loop. -/
def Marked (g : Graph) (l : NodeId) : Prop :=
  ∃ info, g.loopInfo? l = some info ∧ info.continuesToStep = true

theorem markStep_info (loop l : NodeId) (g : Graph) : (markStep loop g).loopInfo? l =
    (g.loopInfo? l).map fun info =>
      if l = loop then { info with continuesToStep := true } else info := by
  rw [loopInfo?_eq, loopInfo?_eq, gist_kind, gist_kind, markStep, node_modifyNode]
  by_cases hl : l = loop
  · subst hl
    by_cases hlt : l < g.nodes.size
    · rw [if_pos ⟨rfl, hlt⟩]
      cases hk : (g.node l).kind <;> simp [hk, NodeKind.loop?]
    · rw [if_neg fun h => hlt h.2, node_of_size_le (Nat.le_of_not_lt hlt)]
      rfl
  · rw [if_neg fun h => hl h.1]
    simp [hl]

theorem facts_markStep (loop l : NodeId) (g : Graph) : facts (markStep loop g) l = facts g l := by
  rw [facts, markStep_info, facts, Option.map_map]
  refine Option.map_congr fun info _ => ?_
  rw [Function.comp_apply]
  split <;> rfl

theorem marked_markStep {loop : NodeId} (h : (g.loopInfo? loop).isSome = true) (l : NodeId) :
    Marked (markStep loop g) l ↔ Marked g l ∨ loop = l := by
  simp only [Marked, markStep_info, Option.map_eq_some_iff]
  constructor
  · rintro ⟨_, ⟨info, hinfo, rfl⟩, hflag⟩
    by_cases hl : l = loop
    · exact .inr hl.symm
    · rw [if_neg hl] at hflag
      exact .inl ⟨info, hinfo, hflag⟩
  · rintro (⟨info, hinfo, hflag⟩ | rfl)
    · refine ⟨_, ⟨info, hinfo, rfl⟩, ?_⟩
      split
      · rfl
      · exact hflag
    · obtain ⟨info, hinfo⟩ := Option.isSome_iff_exists.mp h
      exact ⟨_, ⟨info, hinfo, rfl⟩, by rw [if_pos rfl]⟩

/-- Marking a loop changes nothing else about a node. -/
theorem markStep_node (loop n : NodeId) (g : Graph) :
    ((markStep loop g).node n).start = (g.node n).start ∧
      ((markStep loop g).node n).stop = (g.node n).stop ∧
      (markStep loop g).listed n = g.listed n ∧ (markStep loop g).instrs n = g.instrs n := by
  rw [Graph.listed, Graph.listed, gist_kind, gist_kind, Graph.instrs, Graph.instrs, markStep,
    node_modifyNode]
  split
  · rename_i hn
    rw [hn.1]
    cases hk : (g.node loop).kind <;> simp [hk, Node.instrs]
  · exact ⟨rfl, rfl, rfl, rfl⟩

theorem trimmed_of_markStep {block loop : NodeId} {g' : Graph}
    (h : Trimmed block (markStep loop g) g') : Trimmed block g g' := by
  have hsize : (markStep loop g).nodes.size = g.nodes.size := size_modifyNode ..
  have hnode := fun n => markStep_node loop n g
  constructor
  · intro i hi
    exact (h.start i (hsize ▸ hi)).trans (hnode i).1
  · intro i hi
    exact (h.stop i (hsize ▸ hi)).trans (hnode i).2.1
  · intro i hi
    exact (h.listed i (hsize ▸ hi)).trans (hnode i).2.2.1
  · intro i hi hne
    exact (h.instrs i (hsize ▸ hi) hne).trans (hnode i).2.2.2
  · rw [h.last, (hnode block).2.2.2]

/-- A graph in the course of resolving, with the jumps of some blocks behind. -/
structure Resolving (base : Graph) (done : List NodeId) (g : Graph) : Prop
    extends Similar base g where
  size : base.nodes.size ≤ g.nodes.size
  code : ∀ b ∈ base.blocks, b ∉ done → g.instrs b = base.instrs b
  marked : ∀ l, Marked g l ↔ ∃ b ∈ done, loopJump? base b = some (l, .toStep)

/-- A graph to which jumps can be resolved: its lists are of its own nodes, and only the last
instruction of a block ends it. -/
structure Ready (base : Graph) : Prop where
  blocks : ∀ b ∈ base.blocks, b < base.nodes.size
  loops : ∀ l ∈ base.loops, l < base.nodes.size
  calm : ∀ b ∈ base.blocks, ∀ i ∈ (base.instrs b).dropLast, i.endsBlock = false

theorem falseTarget?_eq_none {n : NodeId} (h : ∀ i ∈ g.instrs n, i.opcode ≠ .bf) :
    falseTarget? g n = none := by
  unfold falseTarget? lastInstr?
  cases hlast : (g.instrs n).getLast? with
  | none => rfl
  | some i =>
    have hi := h i (List.mem_of_getLast? hlast)
    simp [hi]

/-- A block that is dealt with keeps what counts, be it that its jump has become a node. -/
theorem Resolving.next {done : List NodeId} {block : NodeId} {g' : Graph}
    (h : Resolving base done g) (hbase : Ready base) (hblock : block ∈ base.blocks)
    (hnew : block ∉ done) (hjump : ∀ i, base.lastInstr? block = some i → i.opcode = .b)
    (htrim : Trimmed block g g') (hsize : g.nodes.size ≤ g'.nodes.size)
    (hblocks : g'.blocks = g.blocks) (hloops : g'.loops = g.loops)
    (hfacts : ∀ l, facts g' l = facts g l)
    (hmarked : ∀ l, Marked g' l ↔ Marked g l ∨ loopJump? base block = some (l, .toStep)) :
    Resolving base (done ++ [block]) g' := by
  have hlt : ∀ n < base.nodes.size, n < g.nodes.size := fun n hn => Nat.lt_of_lt_of_le hn h.size
  refine ⟨⟨hblocks.trans h.blocks, hloops.trans h.loops, fun n hn => ?_, fun b hb => ?_,
    fun l => (hfacts l).trans (h.facts l)⟩, Nat.le_trans h.size hsize, fun b hb hdone => ?_,
    fun l => ?_⟩
  · exact ⟨(htrim.start n (hlt n hn)).trans (h.bounds n hn).1,
      (htrim.stop n (hlt n hn)).trans (h.bounds n hn).2⟩
  · by_cases he : b = block
    · subst he
      have hcode := h.code b hb hnew
      have hbefore : falseTarget? base b = none := by
        unfold falseTarget?
        cases hlast : base.lastInstr? b with
        | none => rfl
        | some i => simp [hjump i hlast]
      rw [hbefore]
      refine falseTarget?_eq_none fun i hi hop => ?_
      rw [htrim.last, hcode] at hi
      have hends := hbase.calm b hb i hi
      rw [Instr.endsBlock, hop] at hends
      cases hends
    · have hcode := htrim.instrs b (hlt b (hbase.blocks b hb)) he
      have hkept : falseTarget? g' b = falseTarget? g b := by
        rw [falseTarget?, falseTarget?, lastInstr?, lastInstr?, hcode]
      exact hkept.trans (h.falseTarget b hb)
  · rw [List.mem_append, List.mem_singleton, not_or] at hdone
    rw [htrim.instrs b (hlt b (hbase.blocks b hb)) hdone.2]
    exact h.code b hb hdone.1
  · rw [hmarked l, h.marked l]
    simp [or_and_right, exists_or]

theorem Resolving.skip {done : List NodeId} {block : NodeId} (h : Resolving base done g)
    (hnone : loopJump? base block = none) : Resolving base (done ++ [block]) g := by
  refine ⟨h.toSimilar, h.size, fun b hb hdone => ?_, fun l => ?_⟩
  · exact h.code b hb fun hmem => hdone (List.mem_append_left _ hmem)
  · rw [h.marked l]
    simp [or_and_right, exists_or, hnone]

theorem opcode_of_loopJump? {block : NodeId} {r : NodeId × LoopJump}
    (h : loopJump? g block = some r) (i : Instr) (hi : g.lastInstr? block = some i) :
    i.opcode = .b := by
  rw [loopJump?_eq, hi] at h
  by_cases hop : i.opcode = .b
  · exact hop
  · simp [hop, Option.filter] at h

theorem isSome_loopInfo? {block l : NodeId} {j : LoopJump} (h : loopJump? g block = some (l, j)) :
    (g.loopInfo? l).isSome = true := by
  rw [loopJump?_eq] at h
  simp only [Option.bind_eq_some_iff, Option.map_eq_some_iff] at h
  obtain ⟨last, -, target, -, loop, -, info, hinfo, j', -, he⟩ := h
  cases he
  rw [facts] at hinfo
  cases hl : g.loopInfo? l with
  | none => rw [hl] at hinfo; cases hinfo
  | some info => rfl

theorem Converted.facts {block : NodeId} {g' : Graph} (h : Converted block g g') (l : NodeId) :
    facts g' l = facts g l := by
  rw [Branch.facts, h.info, Branch.facts]

theorem resolveJump_resolving {done : List NodeId} {block : NodeId} (h : Resolving base done g)
    (hbase : Ready base) (hblock : block ∈ base.blocks) (hnew : block ∉ done) :
    Ends (resolveJump block) g (fun _ => Resolving base (done ++ [block])) (fun _ => False) := by
  have hlook := h.toSimilar.loopJump? hbase.blocks hbase.loops hblock (h.code block hblock hnew)
  have hlt : block < g.nodes.size := Nat.lt_of_lt_of_le (hbase.blocks block hblock) h.size
  have plain : ∀ {kind : NodeKind}, kind.loop? = none →
      (∀ l, loopJump? base block ≠ some (l, .toStep)) → (loopJump? base block).isSome = true →
      Ends (Pass.convertJump block kind) g (fun _ => Resolving base (done ++ [block]))
        (fun _ => False) := by
    intro kind hkind hother hsome
    obtain ⟨r, hr⟩ := Option.isSome_iff_exists.mp hsome
    refine (convertJump_converted hlt hkind).mono (fun _ g' hconv => ?_) fun _ he => he
    refine h.next hbase hblock hnew (opcode_of_loopJump? hr) hconv.toTrimmed hconv.size
      hconv.blocks hconv.loops hconv.facts fun l => ?_
    rw [Marked, hconv.info, Marked, or_iff_left (hother l)]
  unfold resolveJump
  rw [ends_bind, ends_get, hlook]
  cases hjump : loopJump? base block with
  | none => exact h.skip hjump
  | some r =>
    rw [hjump] at plain
    obtain ⟨loop, jump⟩ := r
    cases jump with
    | toHead => exact plain rfl (fun l he => by cases he) rfl
    | out => exact plain rfl (fun l he => by cases he) rfl
    | toStep =>
      rw [ends_bind, ends_modify]
      have hsize : (markStep loop g).nodes.size = g.nodes.size := size_modifyNode ..
      refine (convertJump_converted (g := markStep loop g) (hsize ▸ hlt) rfl).mono
        (fun _ g' hconv => ?_) fun _ he => he
      have hsome : (g.loopInfo? loop).isSome = true := isSome_loopInfo? (hlook.trans hjump)
      refine h.next hbase hblock hnew (opcode_of_loopJump? hjump)
        (trimmed_of_markStep hconv.toTrimmed) (hsize ▸ hconv.size) hconv.blocks hconv.loops
        (fun l => (hconv.facts l).trans (facts_markStep loop l g)) fun l => ?_
      rw [Marked, hconv.info, ← Marked, marked_markStep hsome, hjump]
      simp

/-- After resolving the jumps of some blocks, the loops marked are those whose steps they go to. -/
theorem each_resolving {done blocks : List NodeId} (h : Resolving base done g) (hbase : Ready base)
    (hblocks : ∀ b ∈ blocks, b ∈ base.blocks) (hnodup : (done ++ blocks).Nodup) :
    Ends (each resolveJump blocks) g (fun _ => Resolving base (done ++ blocks))
      (fun _ => False) := by
  induction blocks generalizing done g with
  | nil => rwa [List.append_nil]
  | cons block rest ih =>
    rw [each, ends_bind]
    have hnew : block ∉ done := fun hmem =>
      (List.nodup_append.mp hnodup).2.2 block hmem block List.mem_cons_self rfl
    have hfirst := resolveJump_resolving h hbase (hblocks block List.mem_cons_self) hnew
    refine hfirst.mono (fun _ g' h' => ?_) fun _ he => he
    rw [List.append_cons] at hnodup ⊢
    exact ih h' (fun b hb => hblocks b (List.mem_cons_of_mem block hb)) hnodup

/-! ## Folding -/

/-- Folding conditionals changes no facts about loops. -/
def KeepsLoops (base g : Graph) : Prop := ∀ l, g.loopInfo? l = base.loopInfo? l

theorem KeepsLoops.add (h : KeepsLoops base g) {x : Node} (hx : x.kind.loop? = none) :
    KeepsLoops base (g.add x) := by
  intro l
  rw [loopInfo?_add g hx, h l]

theorem KeepsLoops.cutEdge (h : KeepsLoops base g) (meet : NodeId) (meetStart : Nat)
    (pred : NodeId) : KeepsLoops base (cutEdge meet meetStart pred g) := by
  intro l
  unfold Branch.cutEdge
  rw [loopInfo?_disconnect]
  split
  · rw [loopInfo?_stripLast, h l]
  · exact h l

theorem trueBranch_keepsLoops (h : KeepsLoops base g) (onTrue meet : NodeId) (meetStart : Nat) :
    Ends (trueBranch onTrue meet meetStart) g (fun _ => KeepsLoops base) (fun _ => False) := by
  unfold trueBranch
  split
  · rw [ends_add]
    exact h.add rfl
  · exact h

theorem elseBranch_keepsLoops (h : KeepsLoops base g) (onFalse meet : NodeId) (meetStart : Nat)
    (jumped : Bool) : Ends (elseBranch onFalse meet meetStart jumped) g
      (fun _ => KeepsLoops base) (fun _ => False) := by
  unfold elseBranch
  split
  · exact h
  · split
    · rw [ends_map, ends_add]
      exact h.add rfl
    · exact h

theorem fold_keepsLoops (h : KeepsLoops base g) (condition : NodeId) :
    Ends (fold condition) g (fun _ => KeepsLoops base) (KeepsLoops base) := by
  unfold fold
  simp only [ends_bind, ends_get, ends_require]
  refine ⟨fun ends _ => ?_, fun _ => h⟩
  generalize meet g ends.1 ends.2 = meet
  refine (trueBranch_keepsLoops h ..).mono (fun onTrue g₁ h₁ => ?_) fun _ => False.elim
  refine (elseBranch_keepsLoops h₁ ..).mono (fun onFalse g₂ h₂ => ?_) fun _ => False.elim
  refine (ends_each (I := KeepsLoops base) (fun pred _ g' h' => ?_) h₂).mono (fun _ g₃ h₃ => ?_)
    fun _ he => he
  · rw [ends_modify]
    exact h'.cutEdge meet _ pred
  · simp only [ends_modify, ends_add, ends_pure]
    intro l
    have hnew : (Node.ofKind .branch (g.node condition).start (g.node meet).start 3).kind.loop? =
        none := rfl
    simp only [loopInfo?_setChild, loopInfo?_connect, loopInfo?_replaceInParent,
      loopInfo?_redirectPredecessors]
    rw [loopInfo?_add _ hnew, loopInfo?_disconnectSuccessors, loopInfo?_stripLast, h₃ l]

theorem visits_keepLoops (h : KeepsLoops base g) (blocks : List NodeId) :
    Ends (collect visit blocks) g (fun _ => KeepsLoops base) (KeepsLoops base) := by
  refine ends_collect (fun n _ g' h' => ?_) h
  unfold visit
  rw [ends_bind, ends_get]
  split
  · rw [ends_map]
    exact fold_keepsLoops h' n
  · exact h'

end Branch

/-- The loops marked in the end are those that the blocks jump to the steps of. -/
theorem findBranches_marked (hbase : Branch.Ready base) (hnodup : base.blocks.Nodup)
    (hclear : ∀ l, ¬ Branch.Marked base l) :
    Ends findBranches base (fun _ g => (∀ l, Branch.facts g l = Branch.facts base l) ∧
      ∀ l, Branch.Marked g l ↔ ∃ b ∈ base.blocks, Branch.loopJump? base b = some (l, .toStep))
      (fun _ => True) := by
  have hstart : Branch.Resolving base [] base := by
    refine ⟨⟨rfl, rfl, fun _ _ => ⟨rfl, rfl⟩, fun _ _ => rfl, fun _ => rfl⟩, Nat.le_refl _,
      fun _ _ _ => rfl, fun l => ?_⟩
    simp [hclear l]
  unfold findBranches
  simp only [ends_bind, ends_get]
  refine (Branch.each_resolving hstart hbase (fun _ hb => hb) hnodup).mono (fun _ g₁ h₁ => ?_)
    fun _ => False.elim
  refine (Branch.visits_keepLoops (fun _ => rfl) _).mono (fun _ g₂ h₂ => ⟨fun l => ?_, fun l => ?_⟩)
    fun _ _ => trivial
  · rw [Branch.facts, h₂ l]
    exact h₁.facts l
  · rw [Branch.Marked, h₂ l]
    exact h₁.marked l

/-! ## The passes before -/

namespace Graph

theorem loops_modifyNode (n : NodeId) (f : Node → Node) : (g.modifyNode n f).loops = g.loops := rfl

theorem loops_replaceSuccessor (n old new : NodeId) :
    (g.replaceSuccessor n old new).loops = g.loops := by
  unfold replaceSuccessor
  split <;> rfl

theorem loops_moveSuccessors (a b : NodeId) : (g.moveSuccessors a b).loops = g.loops := by
  unfold moveSuccessors
  dsimp only
  rw [foldl_keeps (·.loops) (fun g t => by rfl), loops_modifyNode]

theorem loops_halve (n : NodeId) (address k : Nat) : (g.halve n address k).loops = g.loops := by
  simp only [halve, connect, addPred, addSucc, loops_modifyNode, loops_moveSuccessors]
  rfl

theorem loops_insertInFragment (old new : NodeId) (fs : List NodeId) :
    (g.insertInFragment old new fs).loops = g.loops := by
  induction fs with
  | nil => rfl
  | cons f rest ih =>
    unfold insertInFragment
    split
    · split
      · rfl
      · exact ih
    · exact ih

theorem loops_splitBlock (n : NodeId) (address : Nat) :
    (g.splitBlock n address).1.loops = g.loops := by
  rcases splitBlock_cases g n address with he | ⟨k, hk⟩
  · rw [he]
  · rw [splitBlock_eq hk, loops_insertInFragment, loops_halve]

end Graph

/-- Every loop that is listed is a node of the graph. -/
theorem Edited.loops_lt (h : Edited craft base g) (hbase : ∀ l ∈ base.loops, l < base.nodes.size) :
    ∀ l ∈ g.loops, l < g.nodes.size := by
  induction h with
  | refl => exact hbase
  | patch _ _ ih => intro l hl; rw [size_modifyNode]; exact ih l hl
  | setLoops _ ls hls ih => intro l hl; exact (hls l hl).elim (ih l) id
  | setFragments _ _ _ ih => exact ih
  | add _ _ _ _ _ _ ih => intro l hl; rw [size_add]; exact Nat.lt_succ_of_lt (ih l hl)
  | connect _ _ _ _ _ _ ih => intro l hl; rw [size_connect]; exact ih l hl
  | disconnect _ _ _ ih => intro l hl; rw [size_disconnect]; exact ih l hl
  | disconnectSuccessors _ n ih =>
    intro l hl
    rw [loops_disconnectSuccessors] at hl
    rw [size_disconnectSuccessors]
    exact ih l hl
  | replaceSuccessor _ n old _ _ _ ih =>
    intro l hl
    rw [loops_replaceSuccessor] at hl
    rw [size_replaceSuccessor]
    exact ih l hl
  | writeSlot _ _ _ _ _ _ _ ih => intro l hl; rw [size_writeSlot]; exact ih l hl
  | swapChild _ _ _ _ _ _ ih => intro l hl; rw [size_modifyNode]; exact ih l hl
  | splitBlock _ _ _ address ih =>
    intro l hl
    rw [loops_splitBlock] at hl
    exact Nat.lt_of_lt_of_le (ih l hl) (size_le_splitBlock ..)

/-- A graph of an entry's blocks in which no conditional has been folded. -/
structure Graph.Unbranched (code : CodeEntry) (g : Graph) : Prop where
  sound : g.Sound
  tiled : g.Tiled code
  calm : ∀ i, (g.gist i).kind.Calm
  loops : ∀ l ∈ g.loops, l < g.nodes.size

namespace Graph.Unbranched

variable {code : CodeEntry}

theorem edited (h : g.Unbranched code) (hc : Contiguous 0 code.instrs) (hcraft : craft ≠ .branches)
    {g' : Graph} (he : Edited craft g g') : g'.Unbranched code :=
  ⟨he.sound h.sound, he.tiled h.sound hc h.tiled, he.calm hcraft h.calm, he.loops_lt h.loops⟩

/-- Passes in a row leave the graph so, if none of them folds conditionals. -/
theorem forM (h : g.Unbranched code) (hc : Contiguous 0 code.instrs) {ps : List Phase}
    (hps : ∀ p ∈ ps, p.craft ≠ .branches) :
    Ends (ps.forM Phase.run) g (fun _ g' => g'.Unbranched code) (fun _ => True) := by
  induction ps generalizing g with
  | nil => exact h
  | cons p ps ih =>
    have hcons : (p :: ps).forM Phase.run = p.run >>= fun _ => ps.forM Phase.run := List.forM_cons
    rw [hcons, ends_bind]
    refine (Phase.run_edited h.sound p).mono (fun _ g' he => ?_) fun _ _ => trivial
    exact ih (h.edited hc (hps p List.mem_cons_self) he) fun q hq =>
      hps q (List.mem_cons_of_mem p hq)

theorem ready (h : g.Unbranched code) : Branch.Ready g := by
  refine ⟨h.sound.blocks, h.loops, fun b _ i hi => ?_⟩
  have hcalm := h.calm b
  rw [gist_kind] at hcalm
  rw [Graph.instrs, Node.instrs] at hi
  split at hi
  · rename_i is hkind
    rw [hkind] at hcalm
    exact hcalm i hi
  · cases hi

theorem not_marked (h : g.Unbranched code) (l : NodeId) : ¬ Branch.Marked g l := by
  rintro ⟨info, hinfo, hflag⟩
  have hcalm := h.calm l
  rw [loopInfo?_eq] at hinfo
  cases hkind : (g.gist l).kind with
  | loop info' =>
    rw [hkind] at hinfo hcalm
    cases hinfo
    have hclear : info.continuesToStep = false := hcalm
    rw [hclear] at hflag
    cases hflag
  | _ => rw [hkind] at hinfo; cases hinfo

end Graph.Unbranched

theorem NodeKind.calm_of_instrs {n : NodeId}
    (h : ∀ i ∈ (g.instrs n).dropLast, i.endsBlock = false) (hb : (g.gist n).isBlock = true) :
    (g.gist n).kind.Calm := by
  rw [Graph.instrs, Node.instrs] at h
  rw [Node.isBlock, gist_kind] at hb
  rw [gist_kind]
  split at hb
  · rename_i is hkind
    rw [hkind] at h ⊢
    exact h
  · cases hb

/-- A block graph is one in which no pass has run. -/
theorem findBlocks_unbranched {code : CodeEntry} (hc : Contiguous 0 code.instrs)
    (h : findBlocks code = .ok g) : g.Unbranched code := by
  have ht := findBlocks_tiled hc h
  refine ⟨findBlocks_sound h, ht, fun i => ?_, ?_⟩
  · obtain ⟨-, -, hlast, -⟩ := findBlocks_code hc h
    by_cases hi : i < g.nodes.size
    · obtain ⟨-, points, hw⟩ := findBlocks_wired h
      have hmem : i ∈ g.blocks := by
        rw [hw.size, Blocks.size_islands] at hi
        rw [hw.blocks]
        exact List.mem_range.mpr hi
      exact NodeKind.calm_of_instrs (hlast i hmem) (ht.holds i hmem).block
    · rw [gist_kind, node_of_size_le (Nat.le_of_not_lt hi)]
      trivial
  · rw [loops_findBlocks h]
    intro l hl
    cases hl

/-! ## The whole analysis -/

/-- The graph in which conditionals are looked for. -/
def beforeBranches (code : CodeEntry) (layout : TryCatch.Layout) : Except FlowError Graph := do
  let g ← findBlocks code
  match ((Phase.inOrder code layout).dropLast.forM Phase.run).run g with
  | .ok _ g' => .ok g'
  | .error e _ => .error e

variable {code : CodeEntry} {layout : TryCatch.Layout}

/-- An analysis that succeeds ends in the folding of conditionals. -/
theorem findBranches_of_analyze (h : analyze code layout = .ok g) :
    ∃ g₁, beforeBranches code layout = .ok g₁ ∧ Phase.branches.run.run g₁ = .ok () g := by
  obtain ⟨g₀, hblocks, h⟩ := ok_of_bind h
  have hsplit : foldConstructs code layout =
      ((Phase.inOrder code layout).dropLast.forM Phase.run >>= fun _ =>
        Phase.branches.run) := by
    rw [foldConstructs_eq_forM]
    simp [Phase.inOrder]
  rw [hsplit, EStateM.run_bind] at h
  unfold beforeBranches
  rw [hblocks, ok_bind]
  cases hearlier : ((Phase.inOrder code layout).dropLast.forM Phase.run).run g₀ with
  | error e g₁ =>
    rw [hearlier] at h
    cases h
  | ok u g₁ =>
    rw [hearlier] at h
    refine ⟨g₁, rfl, ?_⟩
    dsimp only at h
    split at h
    · rename_i hok
      cases h
      exact hok
    · cases h

theorem beforeBranches_unbranched (hc : Contiguous 0 code.instrs)
    (h : beforeBranches code layout = .ok g) : g.Unbranched code := by
  obtain ⟨g₀, hblocks, h⟩ := ok_of_bind h
  have hcrafts : ∀ p ∈ (Phase.inOrder code layout).dropLast, p.craft ≠ .branches := by
    simp [Phase.inOrder, Phase.craft]
  have hrun := (findBlocks_unbranched hc hblocks).forM hc hcrafts
  split at h
  · rename_i hok
    cases h
    exact hrun.of_ok hok
  · cases h

/-- A block ends in a `b` to the step of the innermost loop around it, and no conditional whose true
branch the `b` would end is found. -/
def JumpsToStep (g : Graph) (block loop : NodeId) : Prop :=
  ∃ last target info, g.lastInstr? block = some last ∧ last.opcode = .b ∧
    last.target? = some target ∧ g.enclosingLoop? last.address = some loop ∧
    g.loopInfo? loop = some info ∧ info.stepAddress = some target ∧ target ≠ info.continueAddress ∧
    Branch.endsTrueBranch g block target (g.node loop).start = false

theorem loopJump?_toStep_iff {block loop : NodeId} :
    Branch.loopJump? g block = some (loop, .toStep) ↔ JumpsToStep g block loop := by
  unfold Branch.loopJump? JumpsToStep
  constructor
  · intro h
    simp only [Option.bind_eq_bind, Option.bind_eq_some_iff] at h
    obtain ⟨last, hlast, h⟩ := h
    split at h
    · cases h
    rename_i hop
    simp only [Option.bind_eq_some_iff] at h
    obtain ⟨target, htarget, l, hl, info, hinfo, h⟩ := h
    refine ⟨last, target, info, hlast, Classical.not_not.mp hop, htarget, ?_⟩
    grind
  · rintro ⟨last, target, info, hlast, hop, htarget, hl, hinfo, hstep, hhead, hclose⟩
    simp [hlast, hop, htarget, hl, hinfo, hstep, hhead, hclose]

/-- What the rest of the block at the step of a loop completes from an empty stack. -/
def Graph.stepStatements (game : Game) (frame : Frame) (g : Graph) (loop : NodeId) :
    Option (List Stmt) := do
  let info ← g.loopInfo? loop
  let step ← info.stepAddress
  let tail ← g.blockAt? step
  match (Step.executeAll game (g.instrs tail)).run { frame with stack := [] } with
  | .ok out _ => some out
  | .error .. => none

/-- A loop is marked as a `for` loop exactly when a block jumps to its step, whatever the step does.
So the steps of all marked loops are single statements exactly when those that are jumped to are. -/
theorem stepJumps_analyze (game : Game) (frame : Frame) (hc : Contiguous 0 code.instrs)
    (h : analyze code layout = .ok g) : ∃ g₁, beforeBranches code layout = .ok g₁ ∧
      (∀ l, Branch.Marked g l ↔ ∃ b ∈ g₁.blocks, JumpsToStep g₁ b l) ∧
      ((∀ l, Branch.Marked g l → (g.stepStatements game frame l).map List.length = some 1) ↔
        ∀ b ∈ g₁.blocks, ∀ l, JumpsToStep g₁ b l →
          (g.stepStatements game frame l).map List.length = some 1) := by
  obtain ⟨g₁, hbefore, hrun⟩ := findBranches_of_analyze h
  have hun := beforeBranches_unbranched hc hbefore
  have hends : Ends Phase.branches.run g₁ (fun _ g => ∀ l, Branch.Marked g l ↔
      ∃ b ∈ g₁.blocks, JumpsToStep g₁ b l) (fun _ => True) := by
    unfold Phase.run
    rw [ends_bind]
    refine (findBranches_marked hun.ready hun.tiled.nodup hun.not_marked).mono
      (fun _ g hg l => ?_) fun _ he => he
    rw [hg.2 l]
    simp only [loopJump?_toStep_iff]
  have hmarked := hends.of_ok hrun
  refine ⟨g₁, hbefore, hmarked, fun hall b hb l hjump => ?_, fun hall l hl => ?_⟩
  · exact hall l ((hmarked l).mpr ⟨b, hb, hjump⟩)
  · obtain ⟨b, hb, hjump⟩ := (hmarked l).mp hl
    exact hall b hb l hjump

/-- `while (a) { if (b) {} else f(); g(); h(); }`. -/
def emptyTrueBranch : CodeEntry := .ofInstrs "empty_true_branch"
  [⟨0, .push, none, .var, .var, .var ⟨"a", -1, .normal⟩⟩, ⟨8, .conv, none, .var, .bool, .none⟩,
    ⟨12, .bf, none, .int32, .int32, .branch 64⟩,
    ⟨16, .push, none, .var, .var, .var ⟨"b", -1, .normal⟩⟩, ⟨24, .conv, none, .var, .bool, .none⟩,
    ⟨28, .bf, none, .int32, .int32, .branch 8⟩, ⟨32, .b, none, .int32, .int32, .branch 16⟩,
    ⟨36, .call, none, .int32, .int32, .call "f" 0⟩, ⟨44, .popz, none, .var, .var, .none⟩,
    ⟨48, .call, none, .int32, .int32, .call "g" 0⟩, ⟨56, .popz, none, .var, .var, .none⟩,
    ⟨60, .call, none, .int32, .int32, .call "h" 0⟩, ⟨68, .popz, none, .var, .var, .none⟩,
    ⟨72, .b, none, .int32, .int32, .branch (-72)⟩, ⟨76, .exit, none, .int32, .int32, .none⟩]

/-- The `b` past the `else` is found as a jump to the step. -/
theorem stepJumps_analyze_emptyTrueBranch : ∃ g g₁,
    analyze emptyTrueBranch (Game.handlerLayout {}) = .ok g ∧
      beforeBranches emptyTrueBranch (Game.handlerLayout {}) = .ok g₁ ∧
      (∃ b ∈ g₁.blocks, JumpsToStep g₁ b 8) ∧
      ((∀ l, Branch.Marked g l →
          (g.stepStatements {} { entry := "empty_true_branch" } l).map List.length = some 1) ↔
        ∀ b ∈ g₁.blocks, ∀ l, JumpsToStep g₁ b l →
          (g.stepStatements {} { entry := "empty_true_branch" } l).map List.length = some 1) := by
  have hrun : (analyze emptyTrueBranch (Game.handlerLayout {})).toOption.any (fun g =>
      (g.loopInfo? 8).any (·.continuesToStep)) = true := by decide +kernel
  obtain ⟨g, hg, hrun⟩ := ok_of_any hrun
  have hmarked : Branch.Marked g 8 := (Option.any_eq_true ..).mp hrun
  have hc : Contiguous 0 emptyTrueBranch.instrs :=
    ⟨rfl, rfl, rfl, rfl, rfl, rfl, rfl, rfl, rfl, rfl, rfl, rfl, rfl, rfl, rfl, trivial⟩
  obtain ⟨g₁, hbefore, hflag, hsteps⟩ :=
    stepJumps_analyze {} { entry := "empty_true_branch" } hc hg
  exact ⟨g, g₁, hg, hbefore, (hflag 8).mp hmarked, hsteps⟩

/-- It is taken for a `continue`, although two calls stand where it leads. -/
theorem not_stepJumps_emptyTrueBranch : ∃ g l,
    analyze emptyTrueBranch (Game.handlerLayout {}) = .ok g ∧ Branch.Marked g l ∧
      (g.stepStatements {} { entry := "empty_true_branch" } l).map List.length = some 2 := by
  have hrun : (analyze emptyTrueBranch (Game.handlerLayout {})).toOption.any (fun g =>
      (g.loopInfo? 8).any (·.continuesToStep) &&
        (g.stepStatements {} { entry := "empty_true_branch" } 8).map List.length == some 2) =
      true := by decide +kernel
  obtain ⟨g, hg, hrun⟩ := ok_of_any hrun
  obtain ⟨hmarked, hstep⟩ := Bool.and_eq_true_iff.mp hrun
  exact ⟨g, 8, hg, (Option.any_eq_true ..).mp hmarked, eq_of_beq hstep⟩

end GmlLift
