import GmlLift.Proofs.Flow.BlockList
import GmlLift.Proofs.Flow.SwitchCode

/-! # The fold of a switch

Once the end of a switch is known nothing stops the fold: blocks stay where they stood, so that every
label still leads to one. What the fold adds is one switch, and it ends at the address that was
found. -/
namespace GmlLift

open GmlLift.Graph Pass

def Node.isSwitch (n : Node) : Bool := match n.kind with
  | .switch _ => true
  | _ => false

/-- The nodes that are switches are the same in two graphs. -/
def Graph.Alike (base g : Graph) : Prop := ∀ i, (g.node i).isSwitch = (base.node i).isSwitch

/-- One switch and no other, which ends at an address. -/
def Graph.LoneSwitch (g : Graph) (n : NodeId) (stop : Nat) : Prop :=
  (g.node n).stop = stop ∧ ∀ i, (g.node i).isSwitch = true ↔ i = n

variable {base g g' : Graph} {code : CodeEntry}

namespace Graph.Alike

theorem refl (g : Graph) : Alike g g := fun _ => rfl

theorem trans {g'' : Graph} (h : Alike g g') (h' : Alike g' g'') : Alike g g'' :=
  fun i => (h' i).trans (h i)

theorem of_gist (h : ∀ i, g'.gist i = g.gist i) : Alike g g' := fun i => by
  have he : (g'.gist i).isSwitch = (g.gist i).isSwitch := congrArg Node.isSwitch (h i)
  exact he

theorem mapInstrs (g : Graph) (n : NodeId) (f : List Instr → List Instr) :
    Alike g (g.mapInstrs n f) := by
  intro i
  rw [Graph.mapInstrs, node_modifyNode]
  split
  · rename_i hi
    rw [hi.1, Node.mapInstrs]
    split
    · rename_i is hk
      rw [Node.isSwitch, Node.isSwitch, hk]
    · rfl
  · rfl

theorem add (g : Graph) {x : Node} (hx : x.isSwitch = false) : Alike g (g.add x) := by
  intro i
  rw [node_add]
  split
  · rename_i hi
    rw [hi, node_of_size_le (Nat.le_refl _), hx]
    rfl
  · rfl

theorem connect (g : Graph) (a b : NodeId) : Alike g (g.connect a b) :=
  of_gist fun i => gist_connect g i a b

theorem insertInFragment (g : Graph) (old new : NodeId) (fs : List NodeId) :
    Alike g (g.insertInFragment old new fs) := by
  intro i
  rcases node_insertInFragment g old new fs i with he | ⟨_, _, _, hk, he⟩
  · rw [he]
  · rw [he, Node.isSwitch, Node.isSwitch, hk]

/-- Splitting a block gives two blocks. -/
theorem splitBlock (g : Graph) (n : NodeId) (address : Nat) :
    Alike g (g.splitBlock n address).1 := by
  rcases splitBlock_cases g n address with he | ⟨k, hk⟩
  · rw [he]
    exact refl g
  · rw [splitBlock_eq hk]
    refine trans ?_ (insertInFragment _ _ _ _)
    have hcut : Alike g (g.cutBlock n address (k + 1)) := by
      refine ((add g (x := .ofKind (.block ((g.instrs n).drop (k + 1))) address (g.node n).stop 0)
        rfl).trans (mapInstrs _ n (List.take (k + 1)))).trans fun i => ?_
      rw [cutBlock, node_modifyNode]
      split
      · rename_i hi
        rw [hi.1]
        rfl
      · rfl
    exact hcut.trans (of_gist fun i => gist_halve ..)

end Graph.Alike

/-! ## Blocks stay where they stood -/

theorem Graph.mem_insertAfter_of_mem {old new n : NodeId} {l : List NodeId} (h : n ∈ l) :
    n ∈ insertAfter old new l := by
  induction l with
  | nil => cases h
  | cons a l ih =>
    rw [insertAfter]
    rcases List.mem_cons.mp h with rfl | h <;> split <;> simp_all

theorem Graph.mem_blocks_splitBlock (n : NodeId) (address : Nat) {b : NodeId} (hb : b ∈ g.blocks) :
    b ∈ (g.splitBlock n address).1.blocks := by
  rcases splitBlock_cases g n address with he | ⟨k, hk⟩
  · rwa [he]
  · rw [splitBlock_eq hk, blocks_insertInFragment, blocks_halve]
    exact mem_insertAfter_of_mem hb

/-- The first half of a block that is cut starts where the block did. -/
theorem Graph.start_splitBlock (n : NodeId) (address : Nat) {b : NodeId} (hb : b < g.nodes.size) :
    ((g.splitBlock n address).1.node b).start = (g.node b).start := by
  rcases splitBlock_cases g n address with he | ⟨k, hk⟩
  · rw [he]
  · have hn : n < g.nodes.size := lt_size_of_instrs (instrs_ne_nil_of_findIdx? hk)
    rw [splitBlock_eq hk, start_insertInFragment, ← gist_start, gist_halve]
    by_cases hne : b = n
    · subst hne
      rw [gist_start, cutBlock, node_modifyNode]
      split
      · change (((g.add _).mapInstrs b _).gist b).start = _
        rw [gist_start, Graph.mapInstrs, node_modifyNode, node_add, if_neg (Nat.ne_of_lt hn)]
        split
        · unfold Node.mapInstrs
          split <;> rfl
        · rfl
      · rename_i hno
        exact absurd ⟨rfl, by simpa using Nat.lt_succ_of_lt hn⟩ hno
    · rw [gist_cutBlock_of_ne _ _ hb hne]
      rfl

/-- A pass adds blocks, but moves none. -/
theorem Edited.blocks_stay {craft : Craft} (h : Edited craft base g) (hs : base.Sound)
    {b : NodeId} (hb : b ∈ base.blocks) : b ∈ g.blocks ∧ (g.node b).start = (base.node b).start := by
  have hlt := hs.blocks b hb
  induction h with
  | refl => exact ⟨hb, rfl⟩
  | @patch g h n f hf ih =>
    refine ⟨ih.1, ?_⟩
    rw [node_modifyNode]
    split
    · rename_i hi
      rw [hi.1] at ih ⊢
      exact hf.start.trans ih.2
    · exact ih.2
  | setLoops _ _ _ ih => exact ih
  | setFragments _ _ _ ih => exact ih
  | @add g h _ _ _ _ _ ih =>
    refine ⟨ih.1, ?_⟩
    rw [← gist_start, gist_add_of_lt _ _ (Nat.lt_of_lt_of_le hlt h.size_le)]
    exact ih.2
  | connect _ _ _ _ _ _ ih => exact ⟨ih.1, by rw [← gist_start, gist_connect]; exact ih.2⟩
  | disconnect _ _ _ ih => exact ⟨ih.1, by rw [← gist_start, gist_disconnect]; exact ih.2⟩
  | disconnectSuccessors _ _ ih =>
    refine ⟨(blocks_disconnectSuccessors ..).symm ▸ ih.1, ?_⟩
    rw [← gist_start, gist_disconnectSuccessors]
    exact ih.2
  | replaceSuccessor _ _ _ _ _ _ ih =>
    refine ⟨(blocks_replaceSuccessor ..).symm ▸ ih.1, ?_⟩
    rw [← gist_start, gist_replaceSuccessor]
    exact ih.2
  | writeSlot _ _ _ _ _ _ _ ih => exact ⟨ih.1, by rw [← gist_start, gist_writeSlot]; exact ih.2⟩
  | swapChild _ _ _ _ _ _ ih => exact ⟨ih.1, by rw [← gist_start, gist_mapChildren]; exact ih.2⟩
  | @splitBlock g h _ n _ address ih =>
    refine ⟨mem_blocks_splitBlock n address ih.1, ?_⟩
    rw [start_splitBlock n address (Nat.lt_of_lt_of_le hlt h.size_le)]
    exact ih.2

namespace Switch

/-! ## The edits before the switch is added -/

variable {size : Nat}

/-- A graph in the course of a fold, before the node of the switch is there. -/
def Prepared (base : Graph) (size : Nat) (g : Graph) : Prop :=
  Grown .switches base size g ∧ base.Alike g

theorem convertJump_alike (g : Graph) (block : NodeId) {kind : NodeKind}
    (hk : (Node.ofKind kind 0 0 0).isSwitch = false) :
    Ends (convertJump block kind) g (fun _ => g.Alike) fun _ => False := by
  unfold convertJump
  simp only [ends_bind, ends_modify, ends_get, ends_add]
  refine (((Alike.mapInstrs g block _).trans (.of_gist fun i =>
    gist_disconnectSuccessors ..)).trans (.add _ ?_)).trans (.connect _ _ _)
  exact hk

theorem cleanBlock_alike (g : Graph) (start stop : Nat) (block : NodeId) :
    Ends (cleanBlock start stop block) g (fun _ => g.Alike) fun _ => False := by
  have hdrop := Alike.mapInstrs g block (dropDiscard start stop)
  unfold cleanBlock
  simp only [ends_bind, ends_modify, ends_get]
  split
  · exact (convertJump_alike _ block rfl).mono (fun _ _ h => hdrop.trans h) fun _ he => he
  · exact hdrop

theorem cleanBlock_prepared (h : Prepared base size g) {block : NodeId} (hb : block < size)
    (start stop : Nat) :
    Ends (cleanBlock start stop block) g (fun _ => Prepared base size) fun _ => False :=
  ((cleanBlock_grown h.1 hb start stop).and (cleanBlock_alike g start stop block)).mono
    (fun _ _ h' => ⟨h'.1, h.2.trans h'.2⟩) fun _ he => he.2

/-- The blocks of a pass are found by their addresses. -/
theorem exists_blockAt? (hs : base.Sound) (hc : Contiguous 0 code.instrs) (ht : base.Tiled code)
    (h : Edited .switches base g) {address : Nat}
    (hlabel : ∃ b ∈ base.blocks, (base.node b).start = address) :
    ∃ b, g.blockAt? address = some b := by
  obtain ⟨b, hb, hstart⟩ := hlabel
  obtain ⟨hmem, hstay⟩ := h.blocks_stay hs hb
  exact ⟨b, (blockAt?_eq_some_iff (h.tiled hs hc ht).ascending).mpr ⟨hmem, hstay.trans hstart⟩⟩

theorem mark_prepared (hs : base.Sound) (hc : Contiguous 0 code.instrs) (ht : base.Tiled code)
    (h : Prepared base size g) (c : Candidate) (stop : Nat) {address : Nat}
    (hlabel : ∃ b ∈ base.blocks, (base.node b).start = address) :
    Ends (mark c stop address) g (fun _ => Prepared base size) fun _ => False := by
  have hmark : Ends (mark c stop address) g (fun _ => g.Alike) fun _ => False := by
    have hadd : g.Alike (g.add (.ofKind (.switchCase (labelsAt c stop address)) address address 0)) :=
      Alike.add g rfl
    unfold mark
    simp only [ends_bind, ends_add]
    split
    · simp only [ends_bind, ends_get, ends_require, ends_modify, ends_pure]
      refine ⟨fun block _ => ?_, fun hnone => ?_⟩
      · exact (hadd.trans (.of_gist fun i => gist_redirectPredecessors ..)).trans (.connect _ _ _)
      · obtain ⟨b, hb⟩ := exists_blockAt? hs hc ht
          (h.1.1.add (.switchCase (labelsAt c stop address)) rfl address address 0) hlabel
        rw [hb] at hnone
        cases hnone
    · exact hadd
  exact ((mark_grown hs h.1 c stop address).and hmark).mono
    (fun _ _ h' => ⟨h'.1.1, h.2.trans h'.2⟩) fun _ he => he.2

theorem cutTests_alike (c : Candidate) (g : Graph) : g.Alike (cutTests c g) := by
  have hcut : ∀ i, (cutTests c g).gist i = (g.mapInstrs c.first (List.take c.dupIndex)).gist i :=
    fun i => foldl_keeps (·.gist i) (fun g n => gist_disconnectSuccessors g i n)
      (g.mapInstrs c.first (List.take c.dupIndex)) (c.first :: c.chain)
  exact (Alike.mapInstrs g c.first _).trans (.of_gist hcut)

/-! ## The whole fold -/

/-- The end of a switch is the start of a block from then on. -/
theorem findEnd_ends {folded : Folded} {start : Nat} {b : NodeId} {a : Nat}
    (hend : endAt? g folded start = some (b, a))
    (hfirst : ∀ i, g.firstInstr? b = some i → (g.node b).start = i.address) :
    Ends (findEnd folded start) g
      (fun r g' => ∃ m, r = some m ∧ (g'.node m).start = a ∧ g.Alike g') fun _ => False := by
  obtain ⟨i, hi, hat⟩ : ∃ i ∈ g.instrs b, i.address = a := by
    obtain ⟨b', -, hfound⟩ := List.exists_of_findSome?_eq_some hend
    split at hfound
    · cases hfound
    · obtain ⟨a', hpop, he⟩ := Option.map_eq_some_iff.mp hfound
      cases he
      obtain ⟨before, i, rest, his, ha, -⟩ := closingPop?_spec hpop
      exact ⟨i, by simp [his], ha⟩
  have halike := Alike.splitBlock g b a
  unfold findEnd
  simp only [ends_bind, ends_get, hend]
  change ∃ m, (g.splitBlock b a).2 = some m ∧ _
  cases hk : (g.instrs b).findIdx? fun i => i.address == a with
  | none =>
    have hno := List.findIdx?_eq_none_iff.mp hk i hi
    simp [hat] at hno
  | some k =>
    cases k with
    | zero =>
      obtain ⟨hlt, hzero, -⟩ := List.findIdx?_eq_some_iff_getElem.mp hk
      have hsplit : g.splitBlock b a = (g, some b) := by simp [splitBlock, hk]
      refine ⟨b, by rw [hsplit], ?_, halike⟩
      rw [hsplit, hfirst (g.instrs b)[0] (List.head?_eq_getElem? ▸ List.getElem?_eq_getElem hlt)]
      simpa using hzero
    | succ k =>
      have hb : b < g.nodes.size := lt_size_of_instrs (instrs_ne_nil_of_findIdx? hk)
      refine ⟨g.nodes.size, by rw [splitBlock_eq hk], ?_, halike⟩
      rw [splitBlock_eq hk, start_insertInFragment, ← gist_start, gist_halve, gist_cutBlock_new _ _ hb]
      rfl

theorem mem_labelTargets {c : Candidate} {stop address : Nat} (h : address ∈ labelTargets c stop) :
    address ∈ c.cases.map Case.target ∨ address = c.otherwise := by
  have hmem := List.mem_mergeSort.mp (ShortCircuit.mem_of_mem_eraseReps h)
  rcases List.mem_append.mp hmem with hmem | hmem
  · exact .inl hmem
  · split at hmem
    · exact .inr (List.mem_singleton.mp hmem)
    · cases hmem

/-- What the node of the switch adds to the graph. -/
theorem add_switch (halike : base.Alike g) (values : List (List Instr)) (first endBlock : NodeId)
    (markers : List NodeId) (start stop : Nat) :
    let node := g.nodes.size
    let g' := ((((g.add (.ofKind (.switch values) start stop markers.length)).connect first
      node).connect node endBlock).setChildren node markers)
    (g'.node node).stop = stop ∧
      ∀ i, (g'.node i).isSwitch = ((base.node i).isSwitch || i == node) := by
  intro node g'
  have hgist : ∀ i, g'.gist i =
      (g.add (.ofKind (.switch values) start stop markers.length)).gist i := fun i =>
    (foldl_keeps (·.gist i) (fun g (child, slot) => gist_setChild g i node slot (some child)) _
      markers.zipIdx).trans ((gist_connect ..).trans (gist_connect ..))
  have hnew : g'.gist node = { Node.ofKind (.switch values) start stop markers.length with
      children := [] } := (hgist node).trans (gist_add ..)
  refine ⟨congrArg Node.stop hnew, fun i => ?_⟩
  by_cases hi : i = node
  · have hswitch : (g'.gist i).isSwitch = true := by
      rw [hi, hnew]
      rfl
    rw [beq_iff_eq.mpr hi, Bool.or_true]
    exact hswitch
  · have hold := halike i
    have hsame : (g'.gist i).isSwitch = (g.gist i).isSwitch := by
      rw [hgist i, gist, node_add, if_neg hi]
      rfl
    rw [beq_eq_false_iff_ne.mpr hi, Bool.or_false, ← hold]
    exact hsame

/-- With every label at a block, a switch whose end is found is folded into one node. -/
theorem fold_ends (hs : g.Sound) (hc : Contiguous 0 code.instrs) (ht : g.Tiled code) {c : Candidate}
    {folded : Folded} (hlabels : ∀ a, a ∈ c.cases.map Case.target ∨ a = c.otherwise →
      ∃ b ∈ g.blocks, (g.node b).start = a)
    {b : NodeId} {a : Nat} (hend : endAt? g folded (targetRange c).2 = some (b, a))
    (hfirst : ∀ i, g.firstInstr? b = some i → (g.node b).start = i.address) :
    Ends (fold folded c) g (fun n g' => (g'.node n).stop = a ∧
      ∀ i, (g'.node i).isSwitch = ((g.node i).isSwitch || i == n)) fun _ => False := by
  unfold fold
  rw [ends_bind, ends_get]
  simp only [ends_bind]
  refine ((findEnd_grown hs .refl folded _).and (findEnd_ends hend hfirst)).mono
    (fun r g₁ ⟨h₁, endBlock, hr, hstart, halike₁⟩ => ?_) fun _ he => he.2
  simp only [ends_require, ends_get, ends_modify, ends_pure, hr, Option.some.injEq,
    forall_eq', reduceCtorEq, false_implies, and_true]
  have h₂ := cutTests_steady ⟨h₁.1.1, rfl⟩ c
  have halike₂ := halike₁.trans (cutTests_alike c g₁)
  generalize cutTests c g₁ = g₂ at h₂ halike₂ ⊢
  have h₃ : Steady .switches g g₁.nodes.size (g₂.stripFirst endBlock 1) :=
    ⟨h₂.1.stripFirst endBlock 1, by simpa using h₂.2⟩
  have halike₃ : g.Alike (g₂.stripFirst endBlock 1) := halike₂.trans (.mapInstrs _ _ _)
  generalize g₂.stripFirst endBlock 1 = g₃ at h₃ halike₃ ⊢
  rw [hstart]
  have hclean : ∀ n ∈ bodyBlocks g₃ c folded (min (targetRange c).1 a) a, ∀ g',
      Prepared g g₁.nodes.size g' → Ends (cleanBlock (g₃.node c.first).start a n) g'
        (fun _ => Prepared g g₁.nodes.size) fun _ => False :=
    fun n hn g' h' =>
      cleanBlock_prepared h' (h₃.lt_of_mem_blocks hs (List.mem_filter.mp hn).1) _ a
  refine (ends_each hclean ⟨⟨h₃.1, Nat.le_of_eq h₃.2.symm⟩, halike₃⟩).mono
    (fun _ g₄ h₄ => ?_) fun _ he => he
  have h₅ : Prepared g g₁.nodes.size (g₄.disconnectPredecessors endBlock fun n =>
      decide ((g.node c.first).stop ≤ n.start) && decide (n.start < a)) :=
    ⟨⟨h₄.1.1.disconnectPredecessors endBlock _, by simpa using h₄.1.2⟩,
      h₄.2.trans (.of_gist fun i => gist_disconnectPredecessors _ i _ _)⟩
  have hmark : ∀ address ∈ labelTargets c a, ∀ g', Prepared g g₁.nodes.size g' →
      Ends (mark c a address) g' (fun _ g'' => Prepared g g₁.nodes.size g'' ∧ True ∧
        ∀ _ : NodeId, True → True) fun _ => False :=
    fun address haddress g' h' =>
      (mark_prepared hs hc ht h' c a (hlabels address (mem_labelTargets haddress))).mono
        (fun _ _ h => ⟨h, trivial, fun _ _ => trivial⟩) fun _ he => he
  refine (ends_mapM hmark h₅).mono (fun markers g₆ ⟨h₆, _⟩ => ?_) fun _ he => he
  rw [ends_add]
  exact add_switch h₆.2 ..

end Switch

open Switch in
/-- In a graph with one candidate and no switch yet, the search for the end decides whether there is
a switch in the end and where it ends. -/
theorem findSwitches_lone_iff (hs : g.Sound) (hc : Contiguous 0 code.instrs) (ht : g.Tiled code)
    (hplain : ∀ i, (g.node i).isSwitch = false) {c : Candidate}
    (hcandidate : candidatesIn g [] g.blocks = [c])
    (hlabels : ∀ a, a ∈ c.cases.map Case.target ∨ a = c.otherwise →
      ∃ b ∈ g.blocks, (g.node b).start = a)
    (hfirst : ∀ b i, g.firstInstr? b = some i → (g.node b).start = i.address) {stop : Nat} :
    (∃ n g', findSwitches.run g = .ok [n] g' ∧ g'.LoneSwitch n stop) ↔
      ∃ b, endAt? g [] (targetRange c).2 = some (b, stop) := by
  have hrun : ∀ {Q : List NodeId → Graph → Prop} {E : Graph → Prop},
      Ends (fold [] c) g (fun n => Q [n]) E → Ends findSwitches g Q E := fun h => by
    unfold findSwitches
    rw [ends_bind, ends_get, hcandidate]
    simp only [List.reverse_singleton, foldAll, ends_bind, ends_get, ends_pure]
    exact h
  cases hend : endAt? g [] (targetRange c).2 with
  | none =>
    have hstop : Ends findSwitches g (fun _ _ => False) fun _ => True := hrun (by
      unfold fold findEnd
      simp only [ends_bind, ends_get, hend, ends_pure, ends_require]
      exact ⟨fun _ he => absurd he (by simp), fun _ => trivial⟩)
    constructor
    · rintro ⟨n, g', hok, -⟩
      exact (hstop.of_ok hok).elim
    · rintro ⟨b, he⟩
      cases he
  | some found =>
    obtain ⟨b, a⟩ := found
    have hlone : Ends findSwitches g (fun ns g' => ∃ n, ns = [n] ∧ g'.LoneSwitch n a)
        fun _ => False :=
      hrun ((fold_ends hs hc ht hlabels hend (hfirst b)).mono (fun n g' h =>
        ⟨n, rfl, h.1, fun i => by rw [h.2, hplain, Bool.false_or, beq_iff_eq]⟩) fun _ he => he)
    constructor
    · rintro ⟨n, g', hok, hat, hn⟩
      obtain ⟨m, he, hat', -⟩ := hlone.of_ok hok
      cases he
      exact ⟨b, by rw [← hat, ← hat']⟩
    · rintro ⟨b', he⟩
      cases he
      obtain ⟨ns, g', hok, n, rfl, hn⟩ := hlone.exists_ok
      exact ⟨n, g', hok, hn⟩

end GmlLift
