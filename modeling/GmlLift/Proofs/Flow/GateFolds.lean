import GmlLift.Flow.Loops
import GmlLift.Flow.ShortCircuit
import GmlLift.Proofs.Flow.Folds

/-! # Loops and chains as runs of edits

A loop and a short-circuit chain take over the edges that lead to the block they start with, before
that block goes into their first slot. -/
namespace GmlLift

open GmlLift.Graph Pass

variable {craft : Craft} {base g : Graph}

namespace Loops

/-- The blocks that a candidate is made of. -/
structure Candidate.Within (c : Candidate) (bs : List NodeId) : Prop where
  head : c.head ∈ bs
  tail : c.tail ∈ bs
  next : c.next ∈ bs

theorem need_ok {α : Type} {address : Nat} {what : String} {o : Option α} {a : α}
    (h : need address what o = .ok a) : o = some a := by
  cases o with
  | none => cases h
  | some b => cases h; rfl

theorem withCandidate_within {block : NodeId} {address target : Nat} {c : Candidate}
    (h : withCandidate g block address target = .ok c) : c.Within g.blocks := by
  obtain ⟨head, hh, h⟩ := ok_of_bind h
  obtain ⟨tail, ht, h⟩ := ok_of_bind h
  obtain ⟨next, hn, h⟩ := ok_of_bind h
  have hhead := nextBlock?_mem (need_ok hh)
  have htail := blockAt?_mem (need_ok ht)
  split at h
  · obtain ⟨after, ha, h⟩ := ok_of_bind h
    cases h
    exact ⟨hhead, htail, blockAt?_mem (need_ok ha)⟩
  · cases h
    exact ⟨hhead, htail, nextBlock?_mem (need_ok hn)⟩

theorem jumpCandidate_within {kind : LoopKind} {block : NodeId} {address target : Nat}
    {c : Candidate} (hb : block ∈ g.blocks)
    (h : jumpCandidate g kind block address target = .ok c) : c.Within g.blocks := by
  obtain ⟨head, hh, h⟩ := ok_of_bind h
  obtain ⟨next, hn, h⟩ := ok_of_bind h
  have hhead := blockAt?_mem (need_ok hh)
  have hnext := nextBlock?_mem (need_ok hn)
  split at h
  · obtain ⟨before, _, h⟩ := ok_of_bind h
    cases h
    exact ⟨hhead, hb, hnext⟩
  · cases h
    exact ⟨hhead, hb, hnext⟩

/-- What the search does with a block: it goes past one that opens or closes no loop, and past a
`continue` to a `while` that was found before; any other block gives a candidate. -/
theorem candidatesIn_cons {heads : List Nat} {block : NodeId} {rest : List NodeId}
    {cs : List Candidate} (h : candidatesIn g heads (block :: rest) = .ok cs) :
    (candidatesIn g heads rest = .ok cs ∧ ∀ i kind, g.lastInstr? block = some i →
      kind? i = some kind → kind = .whileLoop ∧ ∃ t ∈ heads, i.target? = some t) ∨
    ∃ i kind target found cs', g.lastInstr? block = some i ∧ kind? i = some kind ∧
      i.target? = some target ∧
      (if kind = .withLoop then withCandidate g block i.address target
        else jumpCandidate g kind block i.address target) = .ok found ∧
      candidatesIn g (if kind = .whileLoop then target :: heads else heads) rest = .ok cs' ∧
      cs = found :: cs' := by
  simp only [candidatesIn] at h
  split at h
  · rename_i hnone
    refine .inl ⟨h, fun i kind hi hk => ?_⟩
    simp [hi, hk] at hnone
  · rename_i last kind hsome
    obtain ⟨i, hi, hk⟩ := Option.bind_eq_some_iff.mp hsome
    obtain ⟨kind', hk, he⟩ := Option.map_eq_some_iff.mp hk
    cases he
    split at h
    · cases h
    · rename_i target ht
      split at h
      · rename_i hskip
        refine .inl ⟨h, fun j kind' hj hk' => ?_⟩
        rw [hi] at hj
        cases hj
        rw [hk] at hk'
        cases hk'
        exact ⟨hskip.1, target, hskip.2, ht⟩
      · refine .inr ⟨last, kind, target, ?_⟩
        by_cases hw : kind = .withLoop
        · rw [if_pos hw] at h ⊢
          obtain ⟨found, hf, h⟩ := ok_of_bind h
          obtain ⟨cs', hr, h⟩ := ok_of_bind h
          cases h
          exact ⟨found, cs', hi, hk, ht, hf, hr, rfl⟩
        · rw [if_neg hw] at h ⊢
          obtain ⟨found, hf, h⟩ := ok_of_bind h
          obtain ⟨cs', hr, h⟩ := ok_of_bind h
          cases h
          exact ⟨found, cs', hi, hk, ht, hf, hr, rfl⟩

/-- Where a candidate comes from. -/
theorem mem_candidatesIn {heads : List Nat} {bs : List NodeId} {cs : List Candidate}
    (h : candidatesIn g heads bs = .ok cs) {c : Candidate} (hc : c ∈ cs) :
    ∃ block ∈ bs, ∃ i kind target, g.lastInstr? block = some i ∧ kind? i = some kind ∧
      i.target? = some target ∧
      (if kind = .withLoop then withCandidate g block i.address target
        else jumpCandidate g kind block i.address target) = .ok c := by
  induction bs generalizing heads cs with
  | nil => cases h; cases hc
  | cons block bs ih =>
    rcases candidatesIn_cons h with ⟨hr, -⟩ | ⟨i, kind, t, found, cs', hi, hk, ht, hf, hr, rfl⟩
    · obtain ⟨b, hb, h⟩ := ih hr hc
      exact ⟨b, List.mem_cons_of_mem block hb, h⟩
    · rcases List.mem_cons.mp hc with rfl | hc
      · exact ⟨block, by simp, i, kind, t, hi, hk, ht, hf⟩
      · obtain ⟨b, hb, h⟩ := ih hr hc
        exact ⟨b, List.mem_cons_of_mem block hb, h⟩

theorem candidatesIn_within {heads : List Nat} {bs : List NodeId} {cs : List Candidate}
    (hbs : ∀ b ∈ bs, b ∈ g.blocks) (h : candidatesIn g heads bs = .ok cs) :
    ∀ c ∈ cs, c.Within g.blocks := by
  intro c hc
  obtain ⟨block, hb, i, kind, target, -, -, -, hf⟩ := mem_candidatesIn h hc
  split at hf
  · exact withCandidate_within hf
  · exact jumpCandidate_within (hbs block hb) hf

theorem candidates_within {cs : List Candidate} (h : candidates g = .ok cs) :
    ∀ c ∈ cs, c.Within g.blocks := by
  unfold candidates at h
  cases hr : candidatesIn g [] g.blocks.reverse with
  | error e => rw [hr] at h; cases h
  | ok found =>
    rw [hr] at h
    cases h
    intro c hc
    exact candidatesIn_within (fun b hb => List.mem_reverse.mp hb) hr c (List.mem_mergeSort.mp hc)

theorem dropCounter_edited (h : Edited .loops base g) (next : NodeId) :
    Edited .loops base (dropCounter next g) := by
  unfold dropCounter
  split
  · exact h.stripFirst next 1
  · exact h

@[simp] theorem size_dropCounter (next : NodeId) :
    (dropCounter next g).nodes.size = g.nodes.size := by
  unfold dropCounter
  split <;> simp

theorem strip_edited (hs : base.Sound) (h : Edited .loops base g) {c : Candidate}
    (hc : c.Within base.blocks) :
    Ends (strip c) g
      (fun r g' => Edited .loops base g' ∧ g'.nodes.size = g.nodes.size ∧ r.2 < g'.nodes.size ∧
        r.1.continuesToStep = false)
      (Edited .loops base) := by
  have hhead : c.head < g.nodes.size := Nat.lt_of_lt_of_le (hs.blocks _ hc.head) h.size_le
  unfold strip
  rw [ends_bind, ends_get]
  split
  · have h₁ := (h.stripLast c.tail 1).disconnect c.tail c.head
    simp only [ends_bind, ends_modify, ends_get]
    split
    · exact ⟨h₁, by simp, by simpa using hhead, rfl⟩
    · simp only [ends_bind, ends_modify, ends_require, ends_pure]
      refine ⟨fun body hbody => ⟨(h₁.stripLast _ 1).disconnectSuccessors _, by simp, ?_, trivial⟩,
        fun _ => h₁⟩
      have := (h₁.sound hs).lt_of_mem_succs (List.mem_of_head? hbody)
      simpa using this
  · exact ⟨(h.stripLast c.tail 1).disconnectSuccessors c.tail, by simp, by simpa using hhead, rfl⟩
  · simp only [ends_bind, ends_require]
    refine ⟨fun before _ => ?_, fun _ => h⟩
    split
    · exact h
    · simp only [ends_bind, ends_modify, ends_pure]
      exact ⟨dropCounter_edited ((((h.stripLast before 4).disconnect before c.next).stripLast c.tail
        5).disconnectSuccessors c.tail) c.next, by simp, by simpa using hhead, trivial⟩
  · simp only [ends_bind, ends_require, ends_modify]
    refine ⟨fun before _ => ?_, fun _ => h⟩
    have h₁ := (((h.stripLast before 1).disconnect before c.tail).stripLast c.tail
      1).disconnectSuccessors c.tail
    split
    · exact ⟨h₁, by simp, by simpa using hhead, rfl⟩
    · rename_i jump drop _
      refine ⟨(((h₁.stripLast jump 1).disconnectSuccessors jump).stripLast drop
        1).disconnectSuccessors drop, by simp, by simpa using hhead, rfl⟩

theorem moveExits_edited (h : Edited .loops base g) (c : Candidate) (exit : NodeId)
    (hn : exit < g.nodes.size) (hnew : base.nodes.size ≤ exit) (hb : (g.gist exit).isBlock = false)
    (inside : Node → Bool) : Edited .loops base (moveExits c exit inside g) := by
  have hhead : ∀ g', Edited .loops base g' → exit < g'.nodes.size →
      (g'.gist exit).isBlock = false → Edited .loops base
        (if c.kind = .whileLoop then g'.redirectPredecessors c.head exit inside else g') := by
    intro g' h' hn' hb'
    split
    · exact h'.redirectPredecessors c.head hn' hnew hb' inside
    · exact h'
  unfold moveExits
  generalize breakTarget? c = target
  cases target with
  | none => exact hhead g h hn hb
  | some target =>
    exact hhead _ (h.redirectPredecessors target hn hnew hb inside) (by simpa using hn)
      (by simpa using hb)

@[simp] theorem size_moveExits (c : Candidate) (exit : NodeId) (inside : Node → Bool) :
    (moveExits c exit inside g).nodes.size = g.nodes.size := by
  unfold moveExits
  generalize breakTarget? c = target
  cases target <;> dsimp only <;> split <;> simp

@[simp] theorem gist_moveExits (c : Candidate) (exit : NodeId) (inside : Node → Bool) (i : NodeId) :
    (moveExits c exit inside g).gist i = g.gist i := by
  unfold moveExits
  generalize breakTarget? c = target
  cases target <;> dsimp only <;> split <;> simp

/-- The edges into `head` from outside go to the node instead, so the node may take `head` into its
first slot. -/
theorem takeHead_edited (hs : base.Sound) (h : Edited .loops base g) (head next node exit : NodeId)
    (hhead : head < base.nodes.size) (hnext : next < g.nodes.size) (hnew : base.nodes.size ≤ node)
    (hn : node < g.nodes.size) (hexit : exit < g.nodes.size) (hb : (g.gist node).isBlock = false)
    (outside : Node → Bool)
    (ho : ∀ k, (g.gist node).covers (g.node k).start = false → outside (g.node k) = true) :
    Edited .loops base (((((g.redirectPredecessors head node outside).connect node
      next).replaceInParent head node).writeSlot node Slot.loopExit (some exit)).setChild node
        Slot.loopHead (some head)) := by
  have h₁ := h.redirectPredecessors head hn hnew hb outside
  have h₂ := h₁.connect node next (by simpa using hn) (by simpa using hnext) (.inl hnew)
  have h₃ := h₂.replaceInParent hs head (by simpa using hn) hnew (by simpa using hb)
  have h₄ := h₃.writeSlot node Slot.loopExit (some exit) hnew
    (fun c hc => by cases hc; simpa using hexit) fun _ _ hslot => by cases hslot
  refine h₄.setChild _ _ _ (by simpa using hn) hnew (fun c hc => ?_) fun c hc _ _ k hk hout => ?_
  · cases hc
    simpa using Nat.lt_of_lt_of_le hhead h.size_le
  · cases hc
    have hkn : k ≠ node := Nat.ne_of_lt (Nat.lt_of_lt_of_le hk hnew)
    rw [succs_writeSlot, succs_replaceInParent, succs_connect_of_ne _ _ hkn]
    have hout : outside (g.node k) = true := ho k (by simpa [gist_start] using hout)
    refine (h.sound hs).not_mem_succs_redirectPredecessors (fun he => ?_) hout
    exact absurd (he ▸ hnew) (Nat.not_le_of_lt hhead)

theorem splice_edited (hs : base.Sound) (h : Edited .loops base g) {c : Candidate}
    (hc : c.Within base.blocks) {node exit body : NodeId} (hnode : base.nodes.size ≤ node)
    (hnode' : node < g.nodes.size) (hexit : base.nodes.size ≤ exit) (hexit' : exit < g.nodes.size)
    (hbody : body < g.nodes.size) (hnb : (g.gist node).isBlock = false)
    (heb : (g.gist exit).isBlock = false) {inside : Node → Bool}
    (hin : ∀ n, inside n = (g.gist node).covers n.start) :
    Edited .loops base (splice c node exit body inside g) := by
  have old : ∀ {n}, n ∈ base.blocks → n < g.nodes.size := fun hn =>
    Nat.lt_of_lt_of_le (hs.blocks _ hn) h.size_le
  have h₁ := moveExits_edited (h.setParent exit (some node) fun p hp => by cases hp; exact hnode') c
    exit (by simpa using hexit') hexit (by simpa using heb) inside
  have h₂ := takeHead_edited hs h₁ c.head c.next node exit
    (hs.blocks _ hc.head) (by simpa using old hc.next) hnode (by simpa using hnode')
    (by simpa using hexit') (by simpa using hnb) (fun n => !inside n)
    fun k hk => by simpa [hin] using hk
  have h₃ := h₂.setChild_plain node Slot.loopTail (some c.tail) (by simpa using hnode')
    hnode (fun _ ht => by cases ht; simpa using old hc.tail) fun hslot => by cases hslot
  have h₄ := h₃.setChild_plain node Slot.loopBody (some body) (by simpa using hnode')
    hnode (fun _ ht => by cases ht; simpa using hbody) fun hslot => by cases hslot
  refine h₄.setLoops _ fun l hl => ?_
  rcases List.mem_append.mp hl with hl | hl
  · exact .inl hl
  · rw [List.mem_singleton.mp hl]
    exact .inr (by simpa using hnode')

theorem fold_edited (hs : base.Sound) (h : Edited .loops base g) {c : Candidate}
    (hc : c.Within base.blocks) :
    Ends (fold c) g (fun _ => Edited .loops base) (Edited .loops base) := by
  unfold fold
  rw [ends_bind, ends_get]
  simp only [ends_bind]
  refine (strip_edited hs h hc).mono (fun r g₁ ⟨h₁, _, hbody, hflag⟩ => ?_) fun _ he => he
  simp only [ends_modify, ends_add, ends_pure]
  generalize (g.node c.head).start = start
  generalize (g.node c.next).start = stop
  have hadd : (NodeKind.loop r.1).addable .loops = true := by
    rw [NodeKind.addable, hflag]
    rfl
  have h₂ := (h₁.add (.loop r.1) hadd start stop 4).add .empty rfl stop stop 0
  have hle := h₁.size_le
  have hloop : ((g₁.add (.ofKind (.loop r.1) start stop 4)).add (.ofKind .empty stop stop
      0)).gist g₁.nodes.size = .ofKind (.loop r.1) start stop 0 := by
    rw [gist_add_of_lt _ _ (by simp), gist_add]; rfl
  have hexit : ((g₁.add (.ofKind (.loop r.1) start stop 4)).add (.ofKind .empty stop stop
      0)).gist (g₁.add (.ofKind (.loop r.1) start stop 4)).nodes.size =
      .ofKind .empty stop stop 0 := by
    rw [gist_add]; rfl
  refine splice_edited hs h₂ hc hle ?_ ?_ ?_ ?_ (by rw [hloop]; rfl) (by rw [hexit]; rfl) ?_
  · rw [size_add, size_add]
    exact Nat.lt_succ_of_lt (Nat.lt_succ_self _)
  · simpa using Nat.le_succ_of_le hle
  · simp
  · simpa using Nat.lt_succ_of_lt (Nat.lt_succ_of_lt hbody)
  · intro n
    rw [hloop]
    rfl

end Loops

theorem findLoops_edited (hs : g.Sound) :
    Ends findLoops g (fun _ => Edited .loops g) (Edited .loops g) := by
  unfold findLoops
  simp only [ends_bind, ends_get, ends_ofExcept]
  refine ⟨fun found hfound => ?_, fun _ _ => .refl⟩
  have hfold : ∀ c ∈ found, ∀ g', Edited .loops g g' → Ends (Loops.fold c) g'
      (fun _ g'' => Edited .loops g g'' ∧ True ∧ ∀ _ : NodeId, True → True) (Edited .loops g) := by
    intro c hc g' h
    exact (Loops.fold_edited hs h (Loops.candidates_within hfound c hc)).mono
      (fun _ _ h => ⟨h, trivial, fun _ _ => trivial⟩) fun _ he => he
  exact (ends_mapM hfold .refl).mono (fun _ _ h => h.1) fun _ he => he

namespace ShortCircuit

/-- Dropping repetitions keeps the first of each run and adds nothing. -/
theorem mem_eraseRepsBy_loop {r : NodeId → NodeId → Bool} {a n : NodeId} {as acc : List NodeId}
    (h : n ∈ List.eraseRepsBy.loop r a as acc) : n = a ∨ n ∈ as ∨ n ∈ acc := by
  induction as generalizing a acc with
  | nil => simpa [List.eraseRepsBy.loop, or_comm] using h
  | cons b as ih =>
    simp only [List.eraseRepsBy.loop] at h
    split at h
    · rcases ih h with h | h | h <;> simp [h]
    · rcases ih h with h | h | h
      · simp [h]
      · simp [h]
      · rcases List.mem_cons.mp h with h | h <;> simp [h]

theorem mem_of_mem_eraseReps {n : NodeId} {ns : List NodeId} (h : n ∈ ns.eraseReps) : n ∈ ns := by
  cases ns with
  | nil => exact h
  | cons a ns =>
    rcases mem_eraseRepsBy_loop h with h | h | h
    · simp [h]
    · simp [h]
    · cases h

theorem mem_operands {block n : NodeId} {op : Logic} {operands : List NodeId}
    (h : operands? g block op = some operands) (hn : n ∈ operands) : n ∈ (g.node block).preds := by
  simp only [operands?] at h
  split at h
  · cases h
    exact List.mem_mergeSort.mp (mem_of_mem_eraseReps hn)
  · cases h

theorem fallThrough_lt (hs : g.Sound) {operands : List NodeId} :
    Ends (operands.mapM (fallThrough g)) g (fun falls g' => g' = g ∧ ∀ n ∈ falls, n < g.nodes.size)
      (· = g) := by
  have hstep : ∀ a ∈ operands, ∀ g', g' = g → Ends (fallThrough g a) g'
      (fun b g' => g' = g ∧ b < g.nodes.size ∧ ∀ b' : NodeId, b' < g.nodes.size → b' < g.nodes.size)
      (· = g) := by
    rintro a _ _ rfl
    rw [fallThrough, ends_require]
    exact ⟨fun b hb => ⟨rfl, hs.lt_of_mem_succs (List.mem_of_head? hb), fun _ h => h⟩, fun _ => rfl⟩
  exact (ends_mapM hstep rfl).mono (fun _ _ h => ⟨h.1, h.2.1⟩) fun _ he => he

theorem cutJump_steady {size : Nat} (h : Steady .shortCircuits base size g) (operand : NodeId) :
    Ends (cutJump operand) g (fun _ => Steady .shortCircuits base size) (Steady .shortCircuits base size) := by
  simp only [cutJump, ends_bind, ends_modify]
  exact (h.stripLast operand 1).disconnectSuccessors operand

theorem setChildren_edited (h : Edited .shortCircuits base g) {node first : NodeId} {falls : List NodeId}
    (hnode : node < g.nodes.size) (hnew : base.nodes.size ≤ node) (hfirst : first < g.nodes.size)
    (hfalls : ∀ n ∈ falls, n < g.nodes.size)
    (hgate : ∀ k < base.nodes.size, (g.gist node).covers (g.gist k).start = false →
      first ∉ (g.node k).succs) :
    Edited .shortCircuits base (g.setChildren node (first :: falls)) := by
  rw [setChildren, List.zipIdx_cons, List.foldl_cons]
  refine (h.setChild _ _ _ hnode hnew (fun c hc => ?_) fun c hc _ _ => ?_).setChildrenFrom 1 _
    (by simpa using hnode) hnew (fun m hm => by simpa using hfalls m hm) fun hslot => by cases hslot
  · cases hc; exact hfirst
  · cases hc; exact hgate

/-- All edges into the first operand go to the chain's node, which then takes the operand. -/
theorem splice_edited (hs : base.Sound) (h : Edited .shortCircuits base g) {node first done : NodeId}
    {falls : List NodeId} (hnew : base.nodes.size ≤ node) (hn : node < g.nodes.size)
    (hb : (g.gist node).isBlock = false) (hfirst : first < node) (hdone : done < g.nodes.size)
    (hfalls : ∀ n ∈ falls, n < g.nodes.size) :
    Edited .shortCircuits base ((((g.redirectPredecessors first node fun _ => true).connect node
      done).replaceInParent first node).setChildren node (first :: falls)) := by
  have h₁ := h.redirectPredecessors first hn hnew hb fun _ => true
  have h₂ := h₁.connect node done (by simpa using hn) (by simpa using hdone) (.inl hnew)
  have h₃ := h₂.replaceInParent hs first (by simpa using hn) hnew (by simpa using hb)
  refine setChildren_edited h₃ (by simpa using hn) hnew (by simpa using Nat.lt_trans hfirst hn)
    (fun n hn => by simpa using hfalls n hn) fun k hk _ => ?_
  have hkn : k ≠ node := Nat.ne_of_lt (Nat.lt_of_lt_of_le hk hnew)
  rw [succs_replaceInParent, succs_connect_of_ne _ _ hkn]
  exact (h.sound hs).not_mem_succs_redirectPredecessors (Nat.ne_of_lt hfirst) rfl

theorem fold_edited (hs : base.Sound) (h : Edited .shortCircuits base g) {block : NodeId} :
    Ends (fold block) g (fun _ => Edited .shortCircuits base) (Edited .shortCircuits base) := by
  unfold fold
  rw [ends_bind, ends_get]
  split
  · exact h
  · rename_i op operands hop
    simp only [ends_bind, ends_require]
    refine ⟨fun last hlast => ⟨fun done hdone => ?_, fun _ => h⟩, fun _ => h⟩
    split
    · exact h
    · obtain ⟨op', hres, hop⟩ := Option.bind_eq_some_iff.mp hop
      obtain ⟨ops, hops, he⟩ := Option.map_eq_some_iff.mp hop
      cases he
      have hlt : last < g.nodes.size :=
        h.lt_of_mem_blocks hs (blocksBefore_mem (List.mem_of_getLast? hlast))
      have hdlt : done < g.nodes.size := h.lt_of_mem_blocks hs (blockAt?_mem hdone)
      have hfirst : operands.headD 0 < g.nodes.size := by
        cases hcase : operands with
        | nil => exact Nat.lt_of_le_of_lt (Nat.zero_le _) hlt
        | cons a as => exact (h.sound hs).lt_of_mem_preds (mem_operands hops (by simp [hcase]))
      simp only [ends_bind, ends_modify, ends_pure]
      refine (fallThrough_lt (h.sound hs)).mono (fun falls g₁ ⟨he, hfalls⟩ => ?_) fun _ he => he ▸ h
      subst he
      refine (ends_each (fun n _ g' hg => cutJump_steady hg n) ⟨h, rfl⟩).mono (fun _ g₂ h₂ => ?_)
        fun _ he => he.1
      refine (cutJump_steady h₂ last).mono (fun _ g₃ ⟨h₃, hsize⟩ => ?_) fun _ he => he.1
      rw [ends_add]
      have hsize' : (g₃.disconnectSuccessors block).nodes.size = g₁.nodes.size := by
        simpa using hsize
      have h₄ := (h₃.disconnectSuccessors block).add (.shortCircuit op)
        rfl (g₁.node (operands.headD 0)).start (g₁.node done).start
        (operands.headD 0 :: falls).length
      refine splice_edited hs h₄ (by rw [hsize']; exact h.size_le) (by simp) (by rw [gist_add]; rfl)
        (by rw [hsize']; exact hfirst) ?_ fun n hn => ?_
      · rw [size_add, hsize']; exact Nat.lt_succ_of_lt hdlt
      · rw [size_add, hsize']; exact Nat.lt_succ_of_lt (hfalls n hn)

end ShortCircuit

theorem findShortCircuits_edited (hs : g.Sound) :
    Ends findShortCircuits g (fun _ => Edited .shortCircuits g) (Edited .shortCircuits g) := by
  unfold findShortCircuits
  rw [ends_bind, ends_get]
  exact ends_collect (fun n _ g' h => ShortCircuit.fold_edited hs h) .refl

end GmlLift
