import GmlLift.Flow.Branch
import GmlLift.Flow.Switch
import GmlLift.Flow.TryCatch
import GmlLift.Proofs.Flow.Folds

/-! # Statements as runs of edits

Exception handlers, switches and conditionals, followed from the first edit to the last like the
passes before them. These look blocks up by address again, long after earlier passes hung some of
them under composites. -/
namespace GmlLift

open GmlLift.Graph Pass

variable {craft : Craft} {base g : Graph}

/-! ## Exception handlers -/

namespace TryCatch

variable {size : Nat}

theorem dropJump_steady (h : Steady .tryCatch base size g) (block : NodeId) :
    Steady .tryCatch base size (dropJump block g) := by
  unfold dropJump
  split
  · exact h.stripLast block 1
  · exact h

theorem dropUnhook_steady (h : Steady .tryCatch base size g) (block : NodeId) :
    Steady .tryCatch base size (dropUnhook block g) := by
  unfold dropUnhook
  split
  · exact h.stripLast block 2
  · exact h

theorem closeFinally_steady (hs : base.Sound) (h : Steady .tryCatch base size g) (start limit : Nat) :
    Ends (closeFinally start limit) g
      (fun r g' => Steady .tryCatch base size g' ∧ ∀ b, r.1 = some b → b < size)
      (Edited .tryCatch base) := by
  unfold closeFinally
  rw [ends_bind, ends_get]
  split
  · exact ⟨h, fun _ hb => by cases hb⟩
  · rename_i last _
    simp only [ends_bind, ends_modify, ends_get, ends_pure]
    have h₁ := (h.stripLast last 2).disconnectSuccessors last
    refine ⟨h₁, fun b hb => ?_⟩
    split at hb
    · exact h₁.lt_of_mem_blocks hs (blockAt?_mem hb)
    · cases hb

theorem skipCatch_steady (h : Steady .tryCatch base size g) (stop : Nat) :
    Ends (skipCatch stop) g (fun _ => Steady .tryCatch base size) (Edited .tryCatch base) := by
  unfold skipCatch
  rw [ends_bind, ends_get]
  split
  · exact h
  · rename_i block _
    split
    · split
      · split
        · simp only [ends_bind, ends_modify, ends_pure]
          exact (h.stripLast block 1).disconnectSuccessors block
        · exact h
      · exact h
    · exact h

theorem closeCatch_steady (hs : base.Sound) (h : Steady .tryCatch base size g) (start stop : Nat) :
    Ends (closeCatch start stop) g
      (fun r g' => Steady .tryCatch base size g' ∧ r.1 < size) (Edited .tryCatch base) := by
  unfold closeCatch
  simp only [ends_bind, ends_get, ends_require, ends_modify, ends_pure]
  refine ⟨fun head hhead => ?_, fun _ => h.1⟩
  have hlt := h.lt_of_mem_blocks hs (blockAt?_mem hhead)
  have h₁ : Steady .tryCatch base size (((g.stripFirst head (prologue none (g.instrs
      head)).1).setUnreachable head false).disconnectPredecessors head fun _ => true) :=
    ⟨((h.1.stripFirst head _).setUnreachable head false).disconnectPredecessors head _,
      by simpa using h.2⟩
  refine ⟨fun last _ => ⟨(dropJump_steady h₁ last).disconnectSuccessors last, hlt⟩, fun _ => h₁.1⟩

theorem statementEnd_steady (h : Steady .tryCatch base size g) (layout : Layout)
    (catchAddress : Option Nat) (finallyStop : Nat) :
    Ends (statementEnd layout catchAddress finallyStop) g (fun _ => Steady .tryCatch base size)
      (Edited .tryCatch base) := by
  unfold statementEnd
  split
  · exact skipCatch_steady h finallyStop
  · exact h

theorem closeCatch?_steady (hs : base.Sound) (h : Steady .tryCatch base size g) (stop : Nat)
    (start : Option Nat) : Ends (closeCatch? stop start) g
      (fun r g' => Steady .tryCatch base size g' ∧ ∀ b, r.1 = some b → b < size)
      (Edited .tryCatch base) := by
  cases start with
  | none => exact ⟨h, fun _ hb => by cases hb⟩
  | some start =>
    simp only [closeCatch?, ends_bind, ends_pure]
    refine (closeCatch_steady hs h start stop).mono (fun r g' hr => ?_) fun _ he => he
    exact ⟨hr.1, fun b hb => by cases hb; exact hr.2⟩

/-- The node of a statement, between the block that sets the hook and what follows the statement. -/
theorem insert_edited (h : Steady .tryCatch base size g) {block next body : NodeId}
    {catchBody finallyBody : Option NodeId} (hb : block < size) (hn : next < size)
    (hbody : body < size) (hcatch : ∀ b, catchBody = some b → b < size)
    (hfinally : ∀ b, finallyBody = some b → b < size) (name : Option String) (start stop : Nat) :
    let node := g.nodes.size
    Edited .tryCatch base ((((((g.add (.ofKind (.tryCatch name) start stop 3)).connect block
      node).connect node next).setChild node Slot.tryBody (some body)).setChild node Slot.catchBody
      catchBody).setChild node Slot.finallyBody finallyBody) := by
  have hsize : ∀ {b}, b < size → b < g.nodes.size + 1 := fun hb =>
    Nat.lt_succ_of_lt (h.2.symm ▸ hb)
  have h₁ := h.1.insertBetween (.tryCatch name) rfl block next (h.2.symm ▸ hb) (h.2.symm ▸ hn) start
    stop 3
  have h₂ := h₁.setChild_plain g.nodes.size Slot.tryBody (some body) (by simp) h.1.size_le
    (fun c hc => by cases hc; simpa using hsize hbody)
    fun _ => by simp only [gist_connect, gist_add]; rfl
  have h₃ := h₂.setChild_plain g.nodes.size Slot.catchBody catchBody (by simp) h.1.size_le
    (fun c hc => by simpa using hsize (hcatch c hc)) fun hslot => by cases hslot
  exact h₃.setChild_plain g.nodes.size Slot.finallyBody finallyBody (by simp) h.1.size_le
    (fun c hc => by simpa using hsize (hfinally c hc)) fun hslot => by cases hslot

theorem fold_edited (hs : base.Sound) (h : Edited .tryCatch base g) (layout : Layout) {block : NodeId}
    (hb : block < base.nodes.size) :
    Ends (fold layout block) g (fun _ => Edited .tryCatch base) (Edited .tryCatch base) := by
  have hblock : block < g.nodes.size := Nat.lt_of_lt_of_le hb h.size_le
  unfold fold
  rw [ends_bind, ends_get]
  split
  · exact h
  · rename_i address finallyPush catchPush _
    simp only [ends_bind, ends_ofExcept, ends_require]
    refine ⟨fun _ _ => ⟨fun finallyAddress _ => ⟨fun catchAddress _ => ?_, fun _ _ => h⟩,
      fun _ => h⟩, fun _ _ => h⟩
    split
    · exact h
    · simp only [ends_bind, ends_modify, ends_get, ends_require]
      have h₁ : Steady .tryCatch base g.nodes.size (g.stripLast block 6) :=
        ⟨h.stripLast block 6, by simp⟩
      refine ⟨fun body hbody => ⟨fun tryLast _ => ?_, fun _ => h₁.1⟩, fun _ => h₁.1⟩
      have hbody := h₁.lt_of_mem_blocks hs (blockAt?_mem hbody)
      have h₂ :=
        (dropUnhook_steady (dropJump_steady h₁ tryLast) tryLast).disconnectSuccessors tryLast
      generalize (dropUnhook tryLast _).disconnectSuccessors tryLast = g₁ at h₂ ⊢
      refine (closeFinally_steady hs h₂ finallyAddress _).mono (fun r g₂ ⟨h₂, hfinally⟩ => ?_)
        fun _ he => he
      refine (statementEnd_steady h₂ layout catchAddress r.2).mono (fun stop g₃ h₃ => ?_)
        fun _ he => he
      refine (closeCatch?_steady hs h₃ _ catchAddress).mono (fun q g₄ ⟨h₄, hcatch⟩ => ?_)
        fun _ he => he
      refine ⟨fun next hnext => ?_, fun _ => h₄.1⟩
      have hnext := h₄.lt_of_mem_blocks hs (blockAt?_mem hnext)
      have h₅ : Steady .tryCatch base g.nodes.size ((g₄.disconnectSuccessors
          block).disconnectPredecessors next fun n => decide ((g.node block).stop ≤ n.start) &&
            decide (n.start < stop)) :=
        ⟨(h₄.1.disconnectSuccessors block).disconnectPredecessors next _, by simpa using h₄.2⟩
      exact insert_edited h₅ hblock hnext hbody hcatch hfinally q.2 (g.node block).stop stop

end TryCatch

theorem findTryCatch_edited (hs : g.Sound) (layout : TryCatch.Layout) :
    Ends (findTryCatch layout) g (fun _ => Edited .tryCatch g) (Edited .tryCatch g) := by
  unfold findTryCatch
  rw [ends_bind, ends_get]
  exact ends_collect (fun n hn g' h => TryCatch.fold_edited hs h layout (hs.blocks n hn)) .refl

/-! ## Switches -/

/-- A graph in the course of a pass, once it has at least `size` nodes. -/
def Grown (craft : Craft) (base : Graph) (size : Nat) (g : Graph) : Prop :=
  Edited craft base g ∧ size ≤ g.nodes.size

/-- A jump that becomes an edge to a node of its own. -/
theorem convertJump_grown {size : Nat} (h : Grown craft base size g) {block : NodeId}
    (hb : block < size) {kind : NodeKind} (hk : kind.addable craft = true) :
    Ends (convertJump block kind) g (fun _ => Grown craft base size)
      (Grown craft base size) := by
  unfold convertJump
  simp only [ends_bind, ends_modify, ends_get, ends_add]
  have h₁ := (h.1.stripLast block 1).disconnectSuccessors block
  generalize (((g.stripLast block 1).disconnectSuccessors block).node block).stop = stop
  refine ⟨(h₁.add kind hk stop stop 0).connect block _ ?_ (by simp) (.inr ⟨?_, ?_⟩), ?_⟩
  · simpa using Nat.lt_succ_of_lt (Nat.lt_of_lt_of_le hb h.2)
  · simpa using h.1.size_le
  · rw [gist_add]
    cases kind <;> first | rfl | cases hk
  · simpa using Nat.le_succ_of_le h.2

theorem Graph.climb_lt (hs : g.Sound) {fuel : Nat} {n : NodeId} (hn : n < g.nodes.size) :
    g.climb fuel n < g.nodes.size := by
  induction fuel generalizing n with
  | zero => exact hn
  | succ fuel ih =>
    simp only [climb]
    split
    · exact hn
    · rename_i p hp
      split
      · exact hn
      · exact ih (hs.parents n p hp)

theorem Graph.outermostAt_lt (hs : g.Sound) {n : NodeId} (hn : n < g.nodes.size) :
    g.outermostAt n < g.nodes.size := climb_lt hs hn

theorem Graph.splitBlock_lt {n m : NodeId} {address : Nat} (hn : n < g.nodes.size)
    (h : (g.splitBlock n address).2 = some m) : m < (g.splitBlock n address).1.nodes.size := by
  unfold splitBlock at h ⊢
  split at h
  · cases h
  · cases h; exact hn
  · cases h; simp [connect, addPred, addSucc]

namespace Switch

variable {size : Nat}

theorem findEnd_grown (hs : base.Sound) (h : Edited .switches base g) (folded : Folded)
    (start : Nat) : Ends (findEnd folded start) g
      (fun r g' => Grown .switches base g.nodes.size g' ∧ ∀ b, r = some b → b < g'.nodes.size)
      (Edited .switches base) := by
  unfold findEnd
  rw [ends_bind, ends_get]
  split
  · exact ⟨⟨h, Nat.le_refl _⟩, fun _ hb => by cases hb⟩
  · rename_i block address he
    obtain ⟨b, hb, hfound⟩ := List.exists_of_findSome?_eq_some he
    have hmem : block ∈ g.blocks := by
      split at hfound
      · cases hfound
      · obtain ⟨_, _, he⟩ := Option.map_eq_some_iff.mp hfound
        cases he
        exact (List.mem_filter.mp hb).1
    exact ⟨⟨h.splitBlock rfl hmem address, size_le_splitBlock ..⟩,
      fun m hm => splitBlock_lt (h.lt_of_mem_blocks hs hmem) hm⟩

theorem dropDiscard_sublist (start stop : Nat) (is : List Instr) :
    (dropDiscard start stop is).Sublist is := by
  unfold dropDiscard
  split
  · rename_i last pop before he
    have hrev : is = (last :: pop :: before).reverse := by rw [← he, List.reverse_reverse]
    split
    · rw [hrev, List.reverse_sublist]
      exact (List.sublist_cons_self ..).cons_cons last
    · split
      · split
        · rw [hrev, List.reverse_sublist]
          exact ((List.sublist_cons_self ..).cons_cons pop).cons_cons last
        · exact List.Sublist.refl _
      · exact List.Sublist.refl _
  · exact List.Sublist.refl _

theorem cleanBlock_grown (h : Grown .switches base size g) {block : NodeId} (hb : block < size)
    (start stop : Nat) : Ends (cleanBlock start stop block) g (fun _ => Grown .switches base size)
      (Grown .switches base size) := by
  have h₁ : Grown .switches base size (g.mapInstrs block (dropDiscard start stop)) :=
    ⟨h.1.mapInstrs block (dropDiscard_sublist start stop), by simpa using h.2⟩
  unfold cleanBlock
  simp only [ends_bind, ends_modify, ends_get]
  split
  · exact convertJump_grown h₁ hb rfl
  · exact h₁

theorem mark_grown (hs : base.Sound) (h : Grown .switches base size g) (c : Candidate)
    (stop address : Nat) : Ends (mark c stop address) g
      (fun m g' => Grown .switches base size g' ∧ m < g'.nodes.size ∧
        ∀ m', m' < g.nodes.size → m' < g'.nodes.size) (Grown .switches base size) := by
  have h₁ := h.1.add (.switchCase (labelsAt c stop address)) rfl address address 0
  unfold mark
  simp only [ends_bind, ends_add]
  split
  · simp only [ends_bind, ends_get, ends_require, ends_modify, ends_pure]
    have hsize : size ≤ g.nodes.size + 1 := Nat.le_succ_of_le h.2
    refine ⟨fun block hblock => ?_, fun _ => ⟨h₁, by simpa using hsize⟩⟩
    have htop := outermostAt_lt (h₁.sound hs) (h₁.lt_of_mem_blocks hs (blockAt?_mem hblock))
    generalize outermostAt _ block = top at htop ⊢
    have h₂ := h₁.redirectPredecessors top (by simp) h.1.size_le
      (by rw [gist_add]; rfl) fun _ => true
    refine ⟨⟨h₂.connect g.nodes.size _ (by simp) (by simpa using htop) (.inl h.1.size_le), ?_⟩, ?_⟩
    · simpa using hsize
    · refine ⟨by simp, fun m hm => ?_⟩
      simpa using Nat.lt_succ_of_lt hm
  · refine ⟨⟨h₁, ?_⟩, by simp, fun m hm => ?_⟩
    · simpa using Nat.le_succ_of_le h.2
    · simpa using Nat.lt_succ_of_lt hm

theorem cutTests_steady (h : Steady .switches base size g) (c : Candidate) :
    Steady .switches base size (cutTests c g) := by
  have cut : ∀ (ns : List NodeId) (g : Graph), Steady .switches base size g →
      Steady .switches base size (ns.foldl disconnectSuccessors g) := by
    intro ns
    induction ns with
    | nil => intro g h; exact h
    | cons n ns ih => intro g h; exact ih _ (h.disconnectSuccessors n)
  exact cut _ _ ⟨h.1.mapInstrs c.first fun _ => List.take_sublist c.dupIndex _, by simpa using h.2⟩

/-- The node of a switch, between the first test and the end, with its markers below it. -/
theorem insert_edited (h : Edited .switches base g) {first endBlock : NodeId} {markers : List NodeId}
    (hfirst : first < g.nodes.size) (hend : endBlock < g.nodes.size)
    (hmarkers : ∀ m ∈ markers, m < g.nodes.size) (values : List (List Instr)) (start stop : Nat) :
    let node := g.nodes.size
    Edited .switches base ((((g.add (.ofKind (.switch values) start stop markers.length)).connect
      first node).connect node endBlock).setChildren node markers) := by
  have h₁ := h.insertBetween (.switch values) rfl first endBlock hfirst hend start stop
    markers.length
  refine h₁.setChildrenFrom 0 markers (by simp) h.size_le (fun m hm => ?_) fun _ => ?_
  · simpa using Nat.lt_succ_of_lt (hmarkers m hm)
  · simp only [gist_connect, gist_add]; rfl

theorem fold_edited (hs : base.Sound) (h : Edited .switches base g) (folded : Folded) {c : Candidate}
    (hc : c.first < base.nodes.size) :
    Ends (fold folded c) g (fun _ => Edited .switches base) (Edited .switches base) := by
  have hfirst : c.first < g.nodes.size := Nat.lt_of_lt_of_le hc h.size_le
  unfold fold
  rw [ends_bind, ends_get]
  simp only [ends_bind]
  refine (findEnd_grown hs h folded _).mono (fun r g₁ ⟨h₁, hr⟩ => ?_) fun _ he => he
  simp only [ends_require, ends_get, ends_modify, ends_pure]
  refine ⟨fun endBlock hend => ?_, fun _ => h₁.1⟩
  have hend := hr endBlock hend
  have h₂ := cutTests_steady ⟨h₁.1, rfl⟩ c
  generalize cutTests c g₁ = g₂ at h₂ ⊢
  have h₃ : Steady .switches base g₁.nodes.size (g₂.stripFirst endBlock 1) :=
    ⟨h₂.1.stripFirst endBlock 1, by simpa using h₂.2⟩
  generalize g₂.stripFirst endBlock 1 = g₃ at h₃ ⊢
  generalize (g₁.node endBlock).start = stop
  have hclean : ∀ n ∈ bodyBlocks g₃ c folded (min (targetRange c).1 stop) stop, ∀ g',
      Grown .switches base g₁.nodes.size g' →
      Ends (cleanBlock (g₃.node c.first).start stop n) g'
        (fun _ => Grown .switches base g₁.nodes.size) (Grown .switches base g₁.nodes.size) :=
    fun n hn g' h' =>
      cleanBlock_grown h' (h₃.lt_of_mem_blocks hs (List.mem_filter.mp hn).1) _ stop
  refine (ends_each hclean ⟨h₃.1, Nat.le_of_eq h₃.2.symm⟩).mono (fun _ g₄ h₄ => ?_) fun _ he => he.1
  have h₅ : Grown .switches base g₁.nodes.size (g₄.disconnectPredecessors endBlock fun n =>
      decide ((g.node c.first).stop ≤ n.start) && decide (n.start < stop)) :=
    ⟨h₄.1.disconnectPredecessors endBlock _, by simpa using h₄.2⟩
  refine (ends_mapM (fun address _ g' h' => mark_grown hs h' c stop address) h₅).mono
    (fun markers g₆ ⟨h₆, hmarkers, _⟩ => ?_) fun _ he => he.1
  rw [ends_add]
  exact insert_edited h₆.1 (Nat.lt_of_lt_of_le hfirst (Nat.le_trans h₁.2 h₆.2))
    (Nat.lt_of_lt_of_le hend h₆.2) hmarkers _ _ stop

theorem candidatesIn_first {claimed bs : List NodeId} {c : Candidate}
    (h : c ∈ candidatesIn g claimed bs) : c.first ∈ bs := by
  induction bs generalizing claimed with
  | nil => cases h
  | cons b bs ih =>
    simp only [candidatesIn] at h
    split at h
    · simp [ih h]
    · split at h
      · rename_i found hfound
        rcases List.mem_cons.mp h with rfl | h
        · simp only [candidate?, Option.bind_eq_bind] at hfound
          split at hfound
          · cases hfound
          · obtain ⟨_, _, hfound⟩ := Option.bind_eq_some_iff.mp hfound
            obtain ⟨_, _, hfound⟩ := Option.bind_eq_some_iff.mp hfound
            obtain ⟨_, _, hfound⟩ := Option.bind_eq_some_iff.mp hfound
            cases hfound
            simp
        · simp [ih h]
      · simp [ih h]

theorem foldAll_edited (hs : base.Sound) (h : Edited .switches base g) (folded : Folded)
    {cs : List Candidate} (hcs : ∀ c ∈ cs, c.first < base.nodes.size) :
    Ends (foldAll folded cs) g (fun _ => Edited .switches base) (Edited .switches base) := by
  induction cs generalizing folded g with
  | nil => exact h
  | cons c cs ih =>
    simp only [foldAll, ends_bind, ends_get, ends_pure]
    refine (fold_edited hs h folded (hcs c (by simp))).mono (fun node g' h' => ?_) fun _ he => he
    exact ih h' _ fun c hc => hcs c (by simp [hc])

end Switch

theorem findSwitches_edited (hs : g.Sound) :
    Ends findSwitches g (fun _ => Edited .switches g) (Edited .switches g) := by
  unfold findSwitches
  rw [ends_bind, ends_get]
  refine Switch.foldAll_edited hs .refl [] fun c hc => ?_
  exact hs.blocks _ (Switch.candidatesIn_first (List.mem_reverse.mp hc))

/-! ## Conditionals -/

namespace Branch

variable {size : Nat}

theorem markStep_edited (h : Edited .branches base g) (loop : NodeId) :
    Edited .branches base (markStep loop g) := by
  refine h.patch ?_
  split
  · rename_i info hk
    exact ⟨rfl, rfl, rfl, rfl, rfl, fun p hp => .inr hp, hk ▸ .inform rfl ..⟩
  · exact ⟨rfl, rfl, rfl, rfl, rfl, fun p hp => .inr hp, .same _⟩

theorem resolveJump_grown (h : Grown .branches base size g) {block : NodeId} (hb : block < size) :
    Ends (resolveJump block) g (fun _ => Grown .branches base size) (Grown .branches base size) := by
  unfold resolveJump
  rw [ends_bind, ends_get]
  split
  · exact h
  · exact convertJump_grown h hb rfl
  · rename_i loop _
    simp only [ends_bind, ends_modify]
    exact convertJump_grown ⟨markStep_edited h.1 loop, by simpa [markStep] using h.2⟩ hb rfl
  · exact convertJump_grown h hb rfl

theorem walkToMeet_lt (hs : g.Sound) {onFalse : NodeId} (hf : onFalse < g.nodes.size)
    {shared : List NodeId} {fuel : Nat} {seen : List NodeId} {n : NodeId} (hn : n < g.nodes.size) :
    walkToMeet g onFalse shared fuel seen n < g.nodes.size := by
  induction fuel generalizing seen n with
  | zero => exact hf
  | succ fuel ih =>
    simp only [walkToMeet]
    split
    · exact hf
    · split
      · exact hn
      · split
        · exact hf
        · split
          · rename_i next hnext
            refine ih (hs.lt_of_mem_succs (a := n) ?_)
            rw [Option.orElse_eq_orElse, Option.orElse_eq_or, Option.or_eq_some_iff] at hnext
            rcases hnext with h | ⟨_, h⟩
            · exact List.mem_of_find?_eq_some h
            · exact List.mem_of_head? h
          · exact hf

theorem meet_lt (hs : g.Sound) {onTrue onFalse : NodeId} (ht : onTrue < g.nodes.size)
    (hf : onFalse < g.nodes.size) : meet g onTrue onFalse < g.nodes.size := by
  unfold meet
  split
  · exact hf
  · exact walkToMeet_lt hs hf ht

theorem cutEdge_steady (h : Steady .branches base size g) (meet : NodeId) (meetStart : Nat)
    (pred : NodeId) : Steady .branches base size (cutEdge meet meetStart pred g) := by
  unfold cutEdge
  split
  · exact ⟨(h.1.stripLast pred 1).disconnect pred meet, by simpa using h.2⟩
  · exact ⟨h.1.disconnect pred meet, by simpa using h.2⟩

theorem trueBranch_grown (h : Grown .branches base size g) {onTrue : NodeId} (ht : onTrue < size)
    (meet : NodeId) (meetStart : Nat) : Ends (trueBranch onTrue meet meetStart) g
      (fun r g' => Grown .branches base size g' ∧ r < g'.nodes.size) (Edited .branches base) := by
  unfold trueBranch
  split
  · rw [ends_add]
    exact ⟨⟨h.1.add .empty rfl meetStart meetStart 0, by simpa using Nat.le_succ_of_le h.2⟩,
      by simp⟩
  · exact ⟨h, Nat.lt_of_lt_of_le ht h.2⟩

theorem elseBranch_grown (h : Grown .branches base size g) {onFalse : NodeId} (hf : onFalse < size)
    (meet : NodeId) (meetStart : Nat) (jumped : Bool) :
    Ends (elseBranch onFalse meet meetStart jumped) g (fun r g' => Grown .branches base size g' ∧
      g.nodes.size ≤ g'.nodes.size ∧ ∀ b, r = some b → b < g'.nodes.size)
      (Edited .branches base) := by
  unfold elseBranch
  split
  · refine ⟨h, Nat.le_refl _, fun b hb => ?_⟩
    cases hb
    exact Nat.lt_of_lt_of_le hf h.2
  · split
    · rw [ends_map, ends_add]
      refine ⟨⟨h.1.add .empty rfl meetStart meetStart 0, by simpa using Nat.le_succ_of_le h.2⟩,
        by simp, fun b hb => ?_⟩
      cases hb
      simp
    · exact ⟨h, Nat.le_refl _, fun _ hb => by cases hb⟩

/-- The node of a conditional in place of its condition, with the condition and the branches below
it. -/
theorem insert_edited (hs : base.Sound) (h : Edited .branches base g)
    {condition meet onTrue : NodeId} {onFalse : Option NodeId} (hc : condition < g.nodes.size)
    (hm : meet < g.nodes.size) (ht : onTrue < g.nodes.size)
    (hf : ∀ b, onFalse = some b → b < g.nodes.size) (start stop : Nat) :
    let node := g.nodes.size
    Edited .branches base (((((((g.add (.ofKind .branch start stop 3)).redirectPredecessors condition
      node fun _ => true).replaceInParent condition node).connect node meet).setChild node
      Slot.condition (some condition)).setChild node Slot.onTrue (some onTrue)).setChild node
      Slot.onFalse onFalse) := by
  have hnew : ∀ {b}, b < g.nodes.size → b < g.nodes.size + 1 := Nat.lt_succ_of_lt
  have h₁ := (h.add .branch rfl start stop 3).redirectPredecessors condition (by simp) h.size_le
    (by rw [gist_add]; rfl) fun _ => true
  have h₂ := h₁.replaceInParent hs condition (by simp) h.size_le
    (by rw [gist_redirectPredecessors, gist_add]; rfl)
  have h₃ := h₂.connect g.nodes.size meet (by simp) (by simpa using hnew hm) (.inl h.size_le)
  have h₄ := h₃.setChild_plain g.nodes.size Slot.condition (some condition) (by simp) h.size_le
    (fun c he => by cases he; simpa using hnew hc) fun _ => by
      rw [gist_connect, gist_replaceInParent, gist_redirectPredecessors, gist_add]; rfl
  have h₅ := h₄.setChild_plain g.nodes.size Slot.onTrue (some onTrue) (by simp) h.size_le
    (fun c he => by cases he; simpa using hnew ht) fun hslot => by cases hslot
  exact h₅.setChild_plain g.nodes.size Slot.onFalse onFalse (by simp) h.size_le
    (fun c he => by simpa using hnew (hf c he)) fun hslot => by cases hslot

theorem mem_twoWay {condition : NodeId} {r : NodeId × NodeId} (h : twoWay? g condition = some r) :
    r.1 ∈ (g.node condition).succs ∧ r.2 ∈ (g.node condition).succs := by
  unfold twoWay? at h
  split at h
  · rename_i hsuccs
    cases h
    simp [hsuccs]
  · cases h

theorem fold_edited (hs : base.Sound) (h : Edited .branches base g) {condition : NodeId}
    (hc : condition < g.nodes.size) :
    Ends (fold condition) g (fun _ => Edited .branches base) (Edited .branches base) := by
  unfold fold
  rw [ends_bind, ends_get]
  simp only [ends_bind, ends_require, ends_modify, ends_pure]
  refine ⟨fun r hr => ?_, fun _ => h⟩
  have hsound := h.sound hs
  have ht := hsound.lt_of_mem_succs (mem_twoWay hr).1
  have hf := hsound.lt_of_mem_succs (mem_twoWay hr).2
  have hm := meet_lt hsound ht hf
  generalize meet g r.1 r.2 = meet at hm ⊢
  refine (trueBranch_grown ⟨h, Nat.le_refl _⟩ ht meet _).mono (fun onTrue g₁ ⟨h₁, ht₁⟩ => ?_)
    fun _ he => he
  refine (elseBranch_grown h₁ hf meet _ _).mono (fun onFalse g₂ ⟨h₂, hle, hf₂⟩ => ?_) fun _ he => he
  have hcut : ∀ p ∈ (g.node meet).preds.filter (fun p => p != condition &&
      decide ((g.node condition).start ≤ (g.node p).start) &&
      decide ((g.node p).start < (g.node meet).start)), ∀ g', Steady .branches base g₂.nodes.size g' →
      Ends (modify (cutEdge meet (g.node meet).start p)) g'
        (fun _ => Steady .branches base g₂.nodes.size) (Steady .branches base g₂.nodes.size) := by
    intro p _ g' h'
    rw [ends_modify]
    exact cutEdge_steady h' meet _ p
  refine (ends_each hcut ⟨h₂.1, rfl⟩).mono (fun _ g₃ h₃ => ?_) fun _ he => he.1
  have h₄ := (h₃.stripLast condition 1).disconnectSuccessors condition
  generalize (g₃.stripLast condition 1).disconnectSuccessors condition = g₄ at h₄ ⊢
  have hsize : ∀ {n}, n < g₂.nodes.size → n < g₄.nodes.size := fun hn => h₄.2.symm ▸ hn
  rw [ends_add]
  exact insert_edited hs h₄.1 (hsize (Nat.lt_of_lt_of_le hc h₂.2))
    (hsize (Nat.lt_of_lt_of_le hm h₂.2)) (hsize (Nat.lt_of_lt_of_le ht₁ hle)) (fun b hb => hsize (hf₂ b hb)) _ _

theorem visit_edited (hs : base.Sound) (h : Edited .branches base g) {block : NodeId}
    (hb : block < g.nodes.size) :
    Ends (visit block) g (fun _ => Edited .branches base) (Edited .branches base) := by
  unfold visit
  rw [ends_bind, ends_get]
  split
  · rw [ends_map]
    exact fold_edited hs h hb
  · exact h

end Branch

theorem findBranches_edited (hs : g.Sound) :
    Ends findBranches g (fun _ => Edited .branches g) (Edited .branches g) := by
  have hjumps : ∀ n ∈ g.blocks, ∀ g', Grown .branches g g.nodes.size g' → Ends (Branch.resolveJump n) g'
      (fun _ => Grown .branches g g.nodes.size) (Grown .branches g g.nodes.size) :=
    fun n hn g' h => Branch.resolveJump_grown h (hs.blocks n hn)
  unfold findBranches
  simp only [ends_bind, ends_get]
  refine (ends_each hjumps ⟨.refl, Nat.le_refl _⟩).mono (fun _ g₁ h₁ => ?_) fun _ he => he.1
  have hfolds : ∀ n ∈ g₁.blocks.reverse, ∀ g', Grown .branches g g₁.nodes.size g' →
      Ends (Branch.visit n) g' (fun _ => Grown .branches g g₁.nodes.size)
        (Grown .branches g g₁.nodes.size) := by
    intro n hn g' h
    have hn : n < g₁.nodes.size := h₁.1.lt_of_mem_blocks hs (List.mem_reverse.mp hn)
    have hstep : ∀ g'', Edited .branches g' g'' → Grown .branches g g₁.nodes.size g'' := fun g'' h' =>
      ⟨h.1.trans h', Nat.le_trans h.2 h'.size_le⟩
    exact (Branch.visit_edited (h.1.sound hs) .refl (Nat.lt_of_lt_of_le hn h.2)).mono
      (fun _ => hstep) hstep
  exact (ends_collect hfolds ⟨h₁.1, Nat.le_refl _⟩).mono (fun _ _ h => h.1) fun _ he => he.1

end GmlLift
