import GmlLift.Proofs.Flow.Carving
import GmlLift.Proofs.Flow.Faces
import GmlLift.Flow.Analyze

/-! # Passes that find nothing

A pass leaves a graph alone in which no block ends in what it looks for. The search for embedded
functions does the same on an entry without any, but for the node of the entry itself. -/
namespace GmlLift

open GmlLift.Graph

namespace Pass

variable {α β : Type} {g g' : Graph}

theorem run_bind_ok {p : Pass α} {f : α → Pass β} {a : α} (h : p.run g = .ok a g') :
    (p >>= f).run g = (f a).run g' := by
  rw [EStateM.run_bind, h]

theorem run_get_bind (f : Graph → Pass β) : (get >>= f).run g = (f g).run g := rfl

theorem run_modify_bind (edit : Graph → Graph) (f : PUnit → Pass β) :
    (modify edit >>= f).run g = (f ⟨⟩).run (edit g) := rfl

theorem run_add_bind (n : Node) (f : NodeId → Pass β) :
    (add n >>= f).run g = (f g.nodes.size).run (g.add n) := rfl

theorem collect_idle {visit : NodeId → Pass (Option NodeId)} {ns : List NodeId}
    (h : ∀ n ∈ ns, (visit n).run g = .ok none g) : (collect visit ns).run g = .ok [] g := by
  induction ns with
  | nil => rfl
  | cons n ns ih =>
    rw [collect, run_bind_ok (h n (by simp)), run_bind_ok (ih fun m hm => h m (by simp [hm]))]
    rfl

theorem run_collect_append {visit : NodeId → Pass (Option NodeId)} {before after : List NodeId}
    {found found' : List NodeId} {g₁ g₂ : Graph}
    (hbefore : (collect visit before).run g = .ok found g₁)
    (hafter : (collect visit after).run g₁ = .ok found' g₂) :
    (collect visit (before ++ after)).run g = .ok (found ++ found') g₂ := by
  induction before generalizing g found with
  | nil =>
    cases hbefore
    exact hafter
  | cons n before ih =>
    rw [collect, EStateM.run_bind] at hbefore
    rw [List.cons_append, collect, EStateM.run_bind]
    cases hn : (visit n).run g with
    | error e g' =>
      rw [hn] at hbefore
      cases hbefore
    | ok here g' =>
      rw [hn] at hbefore
      dsimp only at hbefore ⊢
      rw [EStateM.run_bind] at hbefore ⊢
      cases hrest : (collect visit before).run g' with
      | error e g' =>
        rw [hrest] at hbefore
        cases hbefore
      | ok rest g' =>
        rw [hrest] at hbefore
        cases hbefore
        rw [ih hrest, List.append_assoc]
        rfl

/-- A pass that finds something at one block only. -/
theorem run_collect_lone {visit : NodeId → Pass (Option NodeId)} {before after : List NodeId}
    {b n : NodeId} (hbefore : ∀ x ∈ before, (visit x).run g = .ok none g)
    (hb : (visit b).run g = .ok (some n) g')
    (hafter : ∀ x ∈ after, (visit x).run g' = .ok none g') :
    (collect visit (before ++ b :: after)).run g = .ok [n] g' := by
  have hrest : (collect visit (b :: after)).run g = .ok [n] g' := by
    rw [collect, run_bind_ok hb, run_bind_ok (collect_idle hafter)]
    rfl
  exact run_collect_append (collect_idle hbefore) hrest

/-- Values that are there for each member of a list are collected. -/
theorem run_mapM_require {α β : Type} {as : List α} {f : α → Pass β} {r : α → β}
    (h : ∀ a ∈ as, (f a).run g = .ok (r a) g) : (as.mapM f).run g = .ok (as.map r) g := by
  induction as with
  | nil => rfl
  | cons a as ih =>
    rw [List.mapM_cons, run_bind_ok (h a (by simp)), run_bind_ok (ih fun b hb => h b (by simp [hb]))]
    rfl

theorem each_idle {visit : NodeId → Pass Unit} {ns : List NodeId}
    (h : ∀ n ∈ ns, (visit n).run g = .ok () g) : (each visit ns).run g = .ok () g := by
  induction ns with
  | nil => rfl
  | cons n ns ih =>
    rw [each, run_bind_ok (h n (by simp))]
    exact ih fun m hm => h m (by simp [hm])

end Pass

open Pass

variable {g : Graph}

/-! ## Embedded functions -/

/-- A graph with a node for the root entry, which lists all blocks and holds the first. -/
structure Rooted (code : CodeEntry) (base g : Graph) : Prop where
  sound : g.Sound
  size : g.nodes.size = base.nodes.size + 1
  blocks : g.blocks = base.blocks
  fragments : g.fragments = base.fragments ++ [base.nodes.size]
  loops : g.loops = base.loops
  codeLength : g.codeLength = base.codeLength
  root : g.face base.nodes.size =
    { start := 0, stop := code.length, children := [base.blocks.head?]
      kind := .fragment code.name code.argumentCount base.blocks }
  first : ∀ b, base.blocks.head? = some b →
    g.face b = { base.face b with parent := some base.nodes.size }
  face : ∀ x, x < base.nodes.size → base.blocks.head? ≠ some x → g.face x = base.face x

namespace Fragments

theorem face_withRoot (code : CodeEntry) (hs : g.Sound) {b : NodeId} {bs : List NodeId}
    (hb : g.blocks = b :: bs) (x : NodeId) : (withRoot code g).face x =
      if x = b then { g.face b with parent := some g.nodes.size }
      else if x = g.nodes.size then { start := 0, stop := code.length, children := [some b]
                                      kind := .fragment code.name code.argumentCount [] }
      else g.face x := by
  have hlt : b < g.nodes.size := hs.blocks b (by rw [hb]; simp)
  have hne : b ≠ g.nodes.size := Nat.ne_of_lt hlt
  change ((g.add (nodeOf code 0 code.length)).setChild g.nodes.size Slot.head
    g.blocks.head?).face x = _
  rw [hb, List.head?_cons, setChild]
  dsimp only
  rw [face_setParent (by simpa using Nat.lt_succ_of_lt hlt), face_writeSlot (by simp), face_add]
  by_cases hx : x = b
  · simp [hx, hne]
  · by_cases hx' : x = g.nodes.size
    · simp only [hx', if_true, if_neg hne.symm]
      rfl
    · simp [hx, hx']

theorem carve_of_no_entries {code : CodeEntry} (h : code.descendants = []) (root : NodeId)
    (previous : Option NodeId) (bs : List NodeId) (g : Graph) :
    (carve code previous [root] bs).run g =
      .ok [root] (bs.foldl (fun g b => listBlock root b g) g) := by
  induction bs generalizing previous g with
  | nil => rfl
  | cons b bs ih =>
    have hclose : (closeBefore previous (g.node b).start [root]).run g = .ok [root] g := by
      cases previous <;> rfl
    have hopen : (openBefore code previous b (g.node b).start [root]).run g = .ok [root] g := by
      unfold openBefore entryAt?
      rw [h]
      cases previous <;> rfl
    rw [carve, run_get_bind, run_bind_ok hclose, run_bind_ok hopen, run_modify_bind]
    exact ih (some b) (listBlock root b g)

/-- Blocks are listed one after the other, and nothing else changes. -/
theorem face_listBlocks {root : NodeId} {entry : String} {argc : Nat} (bs : List NodeId)
    {listed : List NodeId} (hroot : root < g.nodes.size)
    (hk : (g.face root).kind = .fragment entry argc listed) (x : NodeId) :
    (bs.foldl (fun g b => listBlock root b g) g).face x =
      if x = root then { g.face root with kind := .fragment entry argc (listed ++ bs) }
      else g.face x := by
  induction bs generalizing g listed with
  | nil =>
    split
    · rename_i hx
      rw [hx, List.append_nil, ← hk]
      rfl
    · rfl
  | cons b bs ih =>
    have hlist : listBlock root b g = g.modifyNode root fun n =>
        { n with kind := .fragment entry argc (listed ++ [b]) } := by
      rw [kind_face] at hk
      rw [listBlock, hk]
    have hface := fun x => face_modifyNode (g := g)
      (fun n => { n with kind := .fragment entry argc (listed ++ [b]) }) (fun _ => rfl) hroot x
    rw [List.foldl_cons, hlist, ih (by simpa using hroot) (by rw [hface, if_pos rfl]), hface, hface]
    by_cases hx : x = root
    · simp [hx]
    · simp [hx]

theorem listBlocks_keeps {β : Type} (read : Graph → β)
    (h : ∀ g n f, read (modifyNode g n f) = read g) (root : NodeId) (bs : List NodeId) (g : Graph) :
    read (bs.foldl (fun g b => listBlock root b g) g) = read g := by
  refine foldl_keeps read (fun g b => ?_) g bs
  unfold listBlock
  split
  · exact h ..
  · rfl

end Fragments

open Fragments in
/-- Without embedded entries the search for functions only makes the root. -/
theorem findFragments_of_no_entries {code : CodeEntry} (h : code.descendants = []) (hs : g.Sound)
    {b : NodeId} {bs : List NodeId} (hb : g.blocks = b :: bs) :
    ∃ g', (findFragments code).run g = .ok () g' ∧ Rooted code g g' := by
  have hlt : b < g.nodes.size := hs.blocks b (by rw [hb]; simp)
  have hne : b ≠ g.nodes.size := Nat.ne_of_lt hlt
  have hrun : (findFragments code).run g = .ok () ((withRoot code g).blocks.foldl
      (fun g' b => listBlock g.nodes.size b g') (withRoot code g)) := by
    rw [findFragments, run_add_bind, run_modify_bind, run_modify_bind, run_get_bind]
    exact run_bind_ok (carve_of_no_entries h ..)
  rw [blocks_withRoot] at hrun
  have hkeeps {β : Type} (read : Graph → β) (hm : ∀ g n f, read (modifyNode g n f) = read g) :
      read (g.blocks.foldl (fun g' b => listBlock g.nodes.size b g') (withRoot code g)) =
        read (withRoot code g) :=
    listBlocks_keeps read hm _ _ _
  have hface := face_withRoot code hs hb
  have hroot : g.nodes.size < (withRoot code g).nodes.size := by
    rw [size_withRoot]
    exact Nat.lt_succ_self _
  have hlisted := face_listBlocks g.blocks hroot (by rw [hface, if_neg hne.symm, if_pos rfl])
  refine ⟨_, hrun, ?_, ?_, ?_, ?_, ?_, ?_, ?_, ?_, ?_⟩
  · exact ((findFragments_edited hs code).of_ok hrun).sound hs
  · rw [hkeeps (·.nodes.size) (fun _ _ _ => size_modifyNode ..), size_withRoot]
  · rw [hkeeps (·.blocks) fun _ _ _ => rfl, blocks_withRoot]
  · rw [hkeeps (·.fragments) fun _ _ _ => rfl, fragments_withRoot]
  · rw [hkeeps (·.loops) fun _ _ _ => rfl, withRoot, hb]
    rfl
  · rw [hkeeps (·.codeLength) fun _ _ _ => rfl, withRoot, hb]
    rfl
  · rw [hlisted, if_pos rfl, hface, if_neg hne.symm, if_pos rfl, hb]
    rfl
  · intro b' hb'
    rw [hb] at hb'
    cases hb'
    rw [hlisted, if_neg hne, hface, if_pos rfl]
  · intro x hx hx'
    rw [hlisted, if_neg (Nat.ne_of_lt hx), hface, if_neg fun he => hx' (by rw [hb, he]; rfl),
      if_neg (Nat.ne_of_lt hx)]

/-! ## What no block ends in -/

section

variable {block : NodeId}

theorem StaticInit.guard?_eq_none (h : ∀ i ∈ g.instrs block, i.isExtended .hasStatic = false) :
    StaticInit.guard? g block = none := by
  unfold StaticInit.guard?
  split
  · rename_i check _ hrev
    rw [h check (List.mem_reverse.mp (by rw [hrev]; simp))]
    rfl
  · rfl

theorem Nullish.test?_eq_none (h : ∀ i ∈ g.instrs block, i.isExtended .isNullish = false) :
    Nullish.test? g block = none := by
  unfold Nullish.test?
  split
  · rename_i check _ hrev
    rw [h check (List.mem_reverse.mp (by rw [hrev]; simp))]
    rfl
  · rfl

theorem TryCatch.hook?_eq_none (h : ∀ i ∈ g.instrs block, i.isCallTo Hook.try_ = false) :
    TryCatch.hook? g block = none := by
  unfold TryCatch.hook?
  split
  · rename_i pop call _ _ _ _ _ hrev
    rw [h call (List.mem_reverse.mp (by rw [hrev]; simp))]
    rfl
  · rfl

/-- A test of a `switch` ends in a jump on true. -/
theorem Switch.candidate?_eq_none (h : ∀ i, g.lastInstr? block = some i → i.opcode ≠ .bt) :
    Switch.candidate? g block = none := by
  have htest : ∀ k, Switch.caseTest? (g.instrs block) k = none := by
    intro k
    unfold Switch.caseTest?
    split
    · rfl
    · rename_i dup rest hdrop
      split
      · rename_i jump compare value _ _ hrev
        have hrest : rest = value.reverse ++ [compare] ++ [jump] := by
          rw [← List.reverse_reverse rest, hrev]
          simp
        have hlast : g.lastInstr? block = some jump := by
          rw [Graph.lastInstr?, ← List.take_append_drop k (g.instrs block), hdrop, hrest,
            ← List.cons_append, ← List.append_assoc, List.getLast?_concat]
        rw [if_neg fun hc => h jump hlast hc.2.2]
      · rfl
  unfold Switch.candidate?
  dsimp only
  split
  · rfl
  · simp only [htest]
    cases Switch.lastDup? (g.instrs block) <;> rfl

theorem Branch.loopJump?_eq_none (h : ∀ i, g.lastInstr? block = some i → i.opcode ≠ .b) :
    Branch.loopJump? g block = none := by
  unfold Branch.loopJump?
  cases hlast : g.lastInstr? block with
  | none => rfl
  | some i =>
    simp only [Option.bind_eq_bind, Option.bind_some]
    rw [if_pos (h i hlast)]
    rfl

/-- Without loops there is nothing to leave or to continue. -/
theorem Branch.loopJump?_eq_none_of_loops (h : g.loops = []) (block : NodeId) :
    Branch.loopJump? g block = none := by
  have hnone : ∀ address, g.enclosingLoop? address = none := by
    intro address
    rw [enclosingLoop?, h]
    rfl
  unfold Branch.loopJump?
  cases hlast : g.lastInstr? block with
  | none => rfl
  | some i =>
    simp only [Option.bind_eq_bind, Option.bind_some, hnone, Option.bind_none]
    split
    · rfl
    · cases i.target? <;> rfl

end

/-! ## Constructs -/

theorem findStaticInits_idle (h : ∀ b ∈ g.blocks, StaticInit.guard? g b = none) :
    findStaticInits.run g = .ok [] g := by
  rw [findStaticInits, run_get_bind]
  refine collect_idle fun b hb => ?_
  rw [StaticInit.fold, run_get_bind, h b hb]
  rfl

theorem findNullish_idle (h : ∀ b ∈ g.blocks, Nullish.test? g b = none) :
    findNullish.run g = .ok [] g := by
  rw [findNullish, run_get_bind]
  refine collect_idle fun b hb => ?_
  rw [Nullish.fold, run_get_bind, h b hb]
  rfl

theorem findShortCircuits_idle (h : ∀ b ∈ g.blocks, ∀ op,
    ShortCircuit.result? g b = some op → ShortCircuit.operands? g b op = none) :
    findShortCircuits.run g = .ok [] g := by
  rw [findShortCircuits, run_get_bind]
  refine collect_idle fun b hb => ?_
  have hnone : ((ShortCircuit.result? g b).bind fun op =>
      (ShortCircuit.operands? g b op).map (op, ·)) = none := by
    cases hr : ShortCircuit.result? g b with
    | none => rfl
    | some op => simp [h b hb op hr]
  rw [ShortCircuit.fold, run_get_bind, hnone]
  rfl

/-- A chain needs a block that jumps on a test. -/
theorem findShortCircuits_of_no_test
    (h : ∀ x i, g.lastInstr? x = some i → i.opcode ≠ .bt ∧ i.opcode ≠ .bf) :
    findShortCircuits.run g = .ok [] g := by
  refine findShortCircuits_idle fun b _ op _ => ?_
  have hjump : ∀ p, g.endsInJump p (ShortCircuit.jumpOf op) (g.node b).start = false := by
    intro p
    unfold endsInJump
    cases hi : g.lastInstr? p with
    | none => rfl
    | some i =>
      have hne : i.opcode ≠ ShortCircuit.jumpOf op := by
        cases op
        · exact (h p i hi).2
        · exact (h p i hi).1
      simp [hne]
  unfold ShortCircuit.operands?
  cases hp : (g.node b).preds with
  | nil => rfl
  | cons p ps => simp [hjump]

theorem findTryCatch_idle (h : ∀ b ∈ g.blocks, TryCatch.hook? g b = none)
    (layout : TryCatch.Layout) : (findTryCatch layout).run g = .ok [] g := by
  rw [findTryCatch, run_get_bind]
  refine collect_idle fun b hb => ?_
  rw [TryCatch.fold, run_get_bind, h b hb]
  rfl

theorem findSwitches_idle (h : ∀ b ∈ g.blocks, Switch.candidate? g b = none) :
    findSwitches.run g = .ok [] g := by
  have hnone : ∀ (claimed bs : List NodeId), (∀ b ∈ bs, b ∈ g.blocks) →
      Switch.candidatesIn g claimed bs = [] := by
    intro claimed bs hbs
    induction bs with
    | nil => rfl
    | cons b bs ih =>
      rw [Switch.candidatesIn, h b (hbs b (by simp)), ih fun b hb => hbs b (by simp [hb])]
      split <;> rfl
  rw [findSwitches, run_get_bind, hnone [] g.blocks fun _ hb => hb]
  rfl

theorem findLoops_idle (h : ∀ b ∈ g.blocks, (g.lastInstr? b).bind Loops.kind? = none) :
    findLoops.run g = .ok [] g := by
  have hnone : ∀ (heads : List Nat) (bs : List NodeId), (∀ b ∈ bs, b ∈ g.blocks) →
      Loops.candidatesIn g heads bs = .ok [] := by
    intro heads bs hbs
    induction bs with
    | nil => rfl
    | cons b bs ih =>
      have hb : ((g.lastInstr? b).bind fun last => (Loops.kind? last).map (last, ·)) = none := by
        have hb := h b (hbs b (by simp))
        cases hlast : g.lastInstr? b with
        | none => rfl
        | some last =>
          rw [hlast] at hb
          change Loops.kind? last = none at hb
          simp [hb]
      rw [Loops.candidatesIn, hb]
      exact ih fun b hb => hbs b (by simp [hb])
  have hcandidates : Loops.candidates g = .ok [] := by
    rw [Loops.candidates, hnone [] g.blocks.reverse fun b hb => List.mem_reverse.mp hb]
    exact congrArg Except.ok (List.mergeSort_nil ..)
  rw [findLoops, run_get_bind, hcandidates]
  rfl

/-- Jumps are resolved against loops only. -/
theorem resolveJumps_idle (h : ∀ b ∈ g.blocks, Branch.loopJump? g b = none) :
    (each Branch.resolveJump g.blocks).run g = .ok () g := by
  refine each_idle fun b hb => ?_
  rw [Branch.resolveJump, run_get_bind, h b hb]
  rfl

/-- The analysis of code gives what folding makes of the graph of its blocks. -/
theorem analyze_of_run {code : CodeEntry} {layout : TryCatch.Layout} {base : Graph}
    (hbase : findBlocks code = .ok base)
    (hrun : (foldConstructs code layout).run base = .ok () g) : analyze code layout = .ok g := by
  rw [analyze, hbase, ok_bind, hrun]

/-! ## Code without jumps -/

/-- No code jumps or sets an exception hook. -/
def Graph.Settled (g : Graph) : Prop :=
  ∀ x, ∀ i ∈ g.instrs x, i.opcode.isBranch = false ∧ i.isCallTo Hook.try_ = false

namespace Graph.Settled

variable (h : g.Settled)
include h

theorem opcode_ne {x : NodeId} {i : Instr} (hi : g.lastInstr? x = some i) {op : Opcode}
    (hop : op.isBranch = true) : i.opcode ≠ op := by
  rintro rfl
  rw [(h x i (List.mem_of_getLast? hi)).1] at hop
  cases hop

theorem findShortCircuits : findShortCircuits.run g = .ok [] g :=
  findShortCircuits_of_no_test fun _ _ hi => ⟨h.opcode_ne hi rfl, h.opcode_ne hi rfl⟩

theorem findTryCatch (layout : TryCatch.Layout) : (findTryCatch layout).run g = .ok [] g :=
  findTryCatch_idle (fun b _ => TryCatch.hook?_eq_none fun i hi => (h b i hi).2) layout

theorem findSwitches : findSwitches.run g = .ok [] g :=
  findSwitches_idle fun _ _ => Switch.candidate?_eq_none fun _ hi => h.opcode_ne hi rfl

theorem findBranches : findBranches.run g = .ok [] g := by
  have hresolve := resolveJumps_idle (g := g) fun b _ =>
    Branch.loopJump?_eq_none fun i hi => h.opcode_ne hi rfl
  rw [GmlLift.findBranches, run_get_bind, run_bind_ok hresolve, run_get_bind]
  refine collect_idle fun b _ => ?_
  have hlast : ((g.lastInstr? b).any fun i => i.opcode == .bf) = false := by
    cases hi : g.lastInstr? b with
    | none => rfl
    | some i =>
      have hne : i.opcode ≠ .bf := h.opcode_ne hi rfl
      simpa using hne
  rw [Branch.visit, run_get_bind, hlast]
  rfl

end Graph.Settled

end GmlLift
