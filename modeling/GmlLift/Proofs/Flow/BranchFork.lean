import GmlLift.Proofs.Build.Depth
import GmlLift.Proofs.Flow.BranchArms

/-! # Folding one conditional

The branches of a conditional are arms that come together at what follows. The fold hangs them under
a new node that stands for the block of the condition, cuts off where they end, and leaves all other
nodes as they are. With what follows, the new node is an arm again. -/
namespace GmlLift

open GmlLift.Graph Cell Pass

namespace Branch

variable {g : Graph}

/-- A node of the graph, cut off what follows where a branch ends with it. -/
def ended (g : Graph) (ts fs : List NodeId) (meet : NodeId) (meetStart : Nat) (x : NodeId) : Node :=
  if ts.getLast? = some x ∨ fs.getLast? = some x then cutNode meet meetStart (g.face x) else g.face x

section

variable {ts fs : List NodeId} {meet : NodeId} {meetStart : Nat} {x : NodeId}

theorem start_ended : (ended g ts fs meet meetStart x).start = (g.node x).start := by
  unfold ended
  split
  · exact start_cutNode ..
  · rfl

theorem isJump_ended : (ended g ts fs meet meetStart x).isJump = (g.node x).isJump := by
  unfold ended
  split
  · exact isJump_cutNode ..
  · rfl

theorem names_of_ended {t : NodeId} (h : (ended g ts fs meet meetStart x).Names t) :
    (g.face x).Names t := by
  unfold ended at h
  split at h
  · exact names_of_cutNode h
  · exact h

theorem succs_ended (h : (g.node x).succs = []) : (ended g ts fs meet meetStart x).succs = [] := by
  unfold ended
  split
  · rw [cutNode, succs_face, h]
    rfl
  · exact h

end

/-- A conditional about to be folded, what its branches are folded to, and where they come together. -/
structure Forked (all : List Cell) (top : Node) (j : Nat) (rep : Nat → Nat) (g : Graph)
    (other after : Nat) (is : List Instr) (skip : Instr) (onTrue onFalse : Nest)
    (Wt Wf : NodeId → Prop) (ts fs : List NodeId) : Prop where
  stage : Stage all top (j + 1) rep g
  topSuccs : top.succs = []
  cell : all[j]? = some ⟨is, some skip, [j + 1, other]⟩
  skips : skip.opcode = .bf
  armTrue : Arm g onTrue Wt (startOf all (j + 1)) (startOf all other) (rep after) ts
  armFalse : Arm g onFalse Wf (startOf all other) (startOf all after) (rep after) fs
  entryTrue : rep (j + 1) = ts.head?.getD (rep after)
  entryFalse : rep other = fs.head?.getD (rep after)
  joins : Nest.Joins onTrue onFalse (startOf all after)
  opens : onFalse.Open
  lt_other : j < other
  other_le : other ≤ after
  le : after ≤ all.length
  ownTrue : ∀ x, Wt x → j < x ∧ x < g.nodes.size ∧ x ≠ all.length + 1 ∧ x ≠ rep after
  ownFalse : ∀ x, Wf x → j < x ∧ x < g.nodes.size ∧ x ≠ all.length + 1 ∧ x ≠ rep after
  apart : ∀ x, Wt x → ¬ Wf x
  rest : ∀ x, j < x → ¬ Wt x → ¬ Wf x → (g.node x).succs ≠ [] →
    startOf all after ≤ (g.node x).start

namespace Forked

variable {all : List Cell} {top : Node} {j : Nat} {rep : Nat → Nat} {other after : Nat}
  {is : List Instr} {skip : Instr} {onTrue onFalse : Nest} {Wt Wf : NodeId → Prop}
  {ts fs : List NodeId} (k : Forked all top j rep g other after is skip onTrue onFalse Wt Wf ts fs)
include k

theorem stands_after : (g.node (rep after)).start = startOf all after ∧
    (g.node (rep after)).isJump = false := by
  obtain ⟨-, -, -, hstart, hjump⟩ :=
    k.stage.stands after (Nat.lt_of_lt_of_le k.lt_other k.other_le) k.le
  exact ⟨hstart, hjump⟩

theorem stands_other : (g.node (rep other)).start = startOf all other :=
  (k.stage.stands other k.lt_other (Nat.le_trans k.other_le k.le)).2.2.2.1

theorem other_le_after : startOf all other ≤ startOf all after := by
  rcases Nat.lt_or_eq_of_le k.other_le with hlt | he
  · exact Nat.le_of_lt (k.stage.ascends _ _ hlt k.le)
  · exact Nat.le_of_eq (congrArg _ he)

theorem face_condition : g.face j =
    { start := startOf all j, stop := startOf all (j + 1), kind := .block (is ++ [skip])
      succs := [rep (j + 1), rep other]
      parent := if j = 0 then some (all.length + 1) else none } :=
  k.stage.cell j _ (Nat.lt_succ_self j) k.cell

theorem lt_size : j < g.nodes.size := by
  have hle := k.stage.le
  have hsize := k.stage.size
  omega

/-- Without a true branch there is no false one. -/
theorem nil_of_nil (h : ts = []) : fs = [] := by
  rcases k.joins with ⟨hdone, -⟩ | ⟨-, jump, hfinal, -⟩
  · exact k.armFalse.nil_iff.mpr hdone
  · obtain ⟨n, hn, -⟩ := k.armTrue.closed jump hfinal
    rw [h] at hn
    cases hn

/-- The branches come together at what follows them. -/
theorem meet_eq : meet g (rep (j + 1)) (rep other) = rep after := by
  obtain ⟨hafter, hjump⟩ := k.stands_after
  unfold meet
  split
  · rename_i he
    cases ts with
    | nil => rw [k.entryFalse, k.nil_of_nil rfl]; rfl
    | cons t ts =>
      have hwt : Wt t := k.armTrue.mem t List.mem_cons_self
      have ht : rep (j + 1) = t := k.entryTrue
      rw [k.entryFalse] at he ⊢
      cases fs with
      | nil => rfl
      | cons f fs =>
        have hf : t = f := ht.symm.trans he
        exact absurd (k.armFalse.mem f List.mem_cons_self) (hf ▸ k.apart t hwt)
  · rw [k.entryTrue]
    refine walkToMeet_path hjump ?_ _ k.armTrue.path k.armTrue.nodup (fun n hn => ?_)
      (Nat.lt_succ_of_le (Build.length_le_size k.armTrue.nodup fun n hn =>
        (k.ownTrue n (k.armTrue.mem n hn)).2.1)) fun _ _ h => absurd h List.not_mem_nil
    · rw [hafter, k.stands_other]
      exact k.other_le_after
    · rw [k.stands_other]
      exact k.armTrue.before n hn

theorem mem_joining_iff {x : NodeId} : x ∈ joining j (rep after) g ↔
    ts.getLast? = some x ∨ fs.getLast? = some x := by
  obtain ⟨hafter, -⟩ := k.stands_after
  have hstart := k.stage.start_eq (Nat.lt_succ_self j)
  rw [mem_joining k.stage.sound, hafter, hstart]
  constructor
  · rintro ⟨hmem, hne, hlow, hhigh⟩
    have hsuccs : (g.node x).succs ≠ [] := List.ne_nil_of_mem hmem
    have hlt : j < x := by
      rcases Nat.lt_trichotomy x j with hlt | he | hgt
      · have hx := k.stage.start_eq (Nat.lt_succ_of_lt hlt)
        have hascends := k.stage.ascends x j hlt (Nat.le_of_succ_le k.stage.le)
        omega
      · exact absurd he hne
      · exact hgt
    by_cases ht : Wt x
    · rcases k.armTrue.leads x ht _ hmem with hw | ⟨-, hlast⟩
      · exact absurd rfl (k.ownTrue _ hw).2.2.2
      · exact .inl hlast
    · by_cases hf : Wf x
      · rcases k.armFalse.leads x hf _ hmem with hw | ⟨-, hlast⟩
        · exact absurd rfl (k.ownFalse _ hw).2.2.2
        · exact .inr hlast
      · exact absurd (k.rest x hlt ht hf hsuccs) (Nat.not_le.mpr hhigh)
  · have hnext : startOf all j < startOf all (j + 1) :=
      k.stage.ascends j (j + 1) (Nat.lt_succ_self j) k.stage.le
    have hother : startOf all (j + 1) ≤ startOf all other := by
      rcases Nat.lt_or_eq_of_le (Nat.succ_le_of_lt k.lt_other) with hlt | he
      · exact Nat.le_of_lt (k.stage.ascends _ _ hlt (Nat.le_trans k.other_le k.le))
      · exact Nat.le_of_eq (congrArg _ he)
    have hlast := k.other_le_after
    rintro (hx | hx)
    · have hmem := List.mem_of_getLast? hx
      have hsuccs := k.armTrue.path.succs_last hx
      have hplace := k.armTrue.place x (k.armTrue.mem x hmem) (by simp [hsuccs])
      have hbefore := (k.armTrue.before x hmem).1
      refine ⟨by simp [hsuccs], Nat.ne_of_gt (k.ownTrue x (k.armTrue.mem x hmem)).1, ?_, ?_⟩ <;> omega
    · have hmem := List.mem_of_getLast? hx
      have hsuccs := k.armFalse.path.succs_last hx
      have hplace := k.armFalse.place x (k.armFalse.mem x hmem) (by simp [hsuccs])
      have hbefore := (k.armFalse.before x hmem).1
      refine ⟨by simp [hsuccs], Nat.ne_of_gt (k.ownFalse x (k.armFalse.mem x hmem)).1, ?_, ?_⟩ <;> omega

theorem nodup : (joining j (rep after) g).Nodup := by
  refine nodup_joining k.stage.sound fun x hx => ?_
  rcases k.mem_joining_iff.mp hx with hx | hx
  · exact k.armTrue.path.succs_last hx
  · exact k.armFalse.path.succs_last hx

theorem entryTrue_eq_iff : rep (j + 1) = rep after ↔ ts = [] := by
  rw [k.entryTrue]
  cases hts : ts with
  | nil => simp
  | cons t rest =>
    have ht := (k.ownTrue t (k.armTrue.mem t (by rw [hts]; exact List.mem_cons_self))).2.2.2
    simpa using ht

theorem entryFalse_eq_iff : rep other = rep after ↔ fs = [] := by
  rw [k.entryFalse]
  cases hfs : fs with
  | nil => simp
  | cons f rest =>
    have hf := (k.ownFalse f (k.armFalse.mem f (by rw [hfs]; exact List.mem_cons_self))).2.2.2
    simpa using hf

/-- No branch jumps over an else that is not there. -/
theorem not_jumped (he : rep other = rep after) {x : NodeId} (hx : x ∈ joining j (rep after) g)
    (target : Nat) : g.endsInJump x .b target = false := by
  have hnil := k.entryFalse_eq_iff.mp he
  have hopen : onTrue.Open := by
    rcases k.joins with ⟨-, hopen⟩ | ⟨hne, -⟩
    · exact hopen
    · exact absurd (k.armFalse.nil_iff.mp hnil) hne
  rcases k.mem_joining_iff.mp hx with hx | hx
  · unfold endsInJump
    cases hi : g.lastInstr? x with
    | none => rfl
    | some i =>
      have hne : i.opcode ≠ .b := fun hop => hopen i (k.armTrue.ends x i hx hi hop)
      simp [hne]
  · rw [hnil] at hx
    cases hx

theorem run : (visit j).run g = .ok (some (parted j (rep (j + 1)) (rep after) g).nodes.size)
    (folded j (rep (j + 1)) (rep other) (rep after) g) := by
  have hlast : g.lastInstr? j = some skip := by
    rw [lastInstr?, Graph.instrs, ← instrs_face, k.face_condition, Node.instrs,
      List.getLast?_concat]
  have hsuccs : (g.node j).succs = [rep (j + 1), rep other] := by
    rw [← succs_face, k.face_condition]
  have hfold := fold_run hsuccs fun he x hx => by
    rw [k.meet_eq] at he
    exact k.not_jumped he (he ▸ hx) _
  rw [k.meet_eq] at hfold
  rw [visit, run_get_bind, hlast, if_pos (by simp [k.skips]), map_eq_pure_bind, run_bind_ok hfold]
  rfl

/-! ### The graph after the fold -/

/-- The number of the new node. -/
theorem size_eq : (parted j (rep (j + 1)) (rep after) g).nodes.size =
    g.nodes.size + if ts = [] then 1 else 0 := by
  rw [size_parted k.stage.sound]
  simp only [k.entryTrue_eq_iff]

theorem face_eq (x : NodeId) : (folded j (rep (j + 1)) (rep other) (rep after) g).face x =
    let node := (parted j (rep (j + 1)) (rep after) g).nodes.size
    if x = node then
      { start := startOf all j, stop := startOf all after, kind := .branch, succs := [rep after]
        parent := if j = 0 then some (all.length + 1) else none
        children := [some j, some (ts.head?.getD g.nodes.size), fs.head?] }
    else
      let y := ((parted j (rep (j + 1)) (rep after) g).face x).moved j node
      if x = j ∨ x = ts.head?.getD g.nodes.size ∨ fs.head? = some x
        then { y with parent := some node } else y := by
  have hsize := k.stage.size
  have hle := k.stage.le
  have hafter := k.stands_after
  have htrue : rep (j + 1) < g.nodes.size :=
    (k.stage.stands (j + 1) (Nat.le_refl _) k.stage.le).2.1
  have hfalse : rep other < g.nodes.size :=
    (k.stage.stands other k.lt_other (Nat.le_trans k.other_le k.le)).2.1
  have hnode : trueNode (rep (j + 1)) (rep after) g = ts.head?.getD g.nodes.size := by
    simp only [trueNode, k.entryTrue_eq_iff]
    split
    · rename_i hts
      rw [hts]
      rfl
    · rename_i hts
      obtain ⟨t, rest, rfl⟩ := List.exists_cons_of_ne_nil hts
      exact k.entryTrue
  have helse : (if rep other = rep after then none else some (rep other)) = fs.head? := by
    simp only [k.entryFalse_eq_iff]
    split
    · rename_i hfs
      rw [hfs]
      rfl
    · rename_i hfs
      obtain ⟨f, rest, rfl⟩ := List.exists_cons_of_ne_nil hfs
      exact congrArg some k.entryFalse
  have hcondition := k.face_condition
  have hparent : (g.face j).parent = if j = 0 then some (all.length + 1) else none := by
    rw [hcondition]
  have hstart := k.stage.start_eq (Nat.lt_succ_self j)
  rw [face_folded k.stage.sound k.lt_size k.nodup htrue hfalse ?_ ?_, hnode, helse, hparent, hstart,
    hafter.1]
  · rw [hparent]
    split
    · intro he
      cases he
      omega
    · intro he
      cases he
  · intro x hx
    obtain ⟨hj, hroot⟩ := k.stage.holder (Nat.lt_succ_self j) hx
    rw [hparent, if_pos hj, hroot]

theorem size_le : g.nodes.size ≤ (parted j (rep (j + 1)) (rep after) g).nodes.size := by
  rw [k.size_eq]
  exact Nat.le_add_right _ _

theorem sound : (folded j (rep (j + 1)) (rep other) (rep after) g).Sound :=
  ((visit_edited k.stage.sound .refl k.lt_size).of_ok k.run).sound k.stage.sound

theorem face_node : (folded j (rep (j + 1)) (rep other) (rep after) g).face
    (parted j (rep (j + 1)) (rep after) g).nodes.size =
      { start := startOf all j, stop := startOf all after, kind := .branch, succs := [rep after]
        parent := if j = 0 then some (all.length + 1) else none
        children := [some j, some (ts.head?.getD g.nodes.size), fs.head?] } := by
  rw [k.face_eq]
  exact if_pos rfl

/-- The condition is left without its jump. -/
theorem face_test : (folded j (rep (j + 1)) (rep other) (rep after) g).face j =
    { start := startOf all j, stop := startOf all (j + 1), kind := .block is
      parent := some (parted j (rep (j + 1)) (rep after) g).nodes.size } := by
  have hne := Nat.ne_of_lt (Nat.lt_of_lt_of_le k.lt_size k.size_le)
  rw [k.face_eq]
  dsimp only
  rw [if_neg hne, if_pos (.inl rfl), face_parted k.stage.sound k.lt_size k.nodup, if_pos rfl,
    k.face_condition]
  simp [Node.mapInstrs, Node.moved, rename]

/-- A true branch without code is an empty node. -/
theorem face_empty (hts : ts = []) : (folded j (rep (j + 1)) (rep other) (rep after) g).face
    g.nodes.size = { start := startOf all after, stop := startOf all after
                     parent := some (parted j (rep (j + 1)) (rep after) g).nodes.size } := by
  have hnode := k.size_eq
  rw [if_pos hts] at hnode
  have hne : g.nodes.size ≠ j := Nat.ne_of_gt k.lt_size
  have hnew : g.nodes.size ≠ (parted j (rep (j + 1)) (rep after) g).nodes.size := by
    rw [hnode]
    exact Nat.ne_of_lt (Nat.lt_succ_self _)
  rw [k.face_eq]
  dsimp only
  rw [if_neg hnew, if_pos (.inr (.inl (by rw [hts]; rfl))),
    face_parted k.stage.sound k.lt_size k.nodup, if_neg hne, if_neg, face_withTrue,
    if_pos ⟨k.entryTrue_eq_iff.mpr hts, rfl⟩, k.stands_after.1]
  · rfl
  · rw [k.mem_joining_iff]
    rintro (hx | hx)
    · exact Nat.lt_irrefl _ (k.ownTrue _ (k.armTrue.mem _ (List.mem_of_getLast? hx))).2.1
    · exact Nat.lt_irrefl _ (k.ownFalse _ (k.armFalse.mem _ (List.mem_of_getLast? hx))).2.1

/-- Other nodes lead to the new node where they led to the condition. The last ones of the branches
are cut off. -/
theorem face_old {x : NodeId} (hx : x < g.nodes.size) (hne : x ≠ j) :
    (folded j (rep (j + 1)) (rep other) (rep after) g).face x =
      let node := (parted j (rep (j + 1)) (rep after) g).nodes.size
      let y := (ended g ts fs (rep after) (startOf all after) x).moved j node
      if ts.head? = some x ∨ fs.head? = some x then { y with parent := some node } else y := by
  have hlt := Nat.ne_of_lt (Nat.lt_of_lt_of_le hx k.size_le)
  have hhead : x = ts.head?.getD g.nodes.size ↔ ts.head? = some x := by
    cases ts.head? with
    | none => simpa using Nat.ne_of_lt hx
    | some t => simp [eq_comm]
  have hsame : (withTrue (rep (j + 1)) (rep after) g).face x = g.face x := by
    rw [face_withTrue, if_neg fun h => Nat.ne_of_lt hx h.2]
  rw [k.face_eq]
  dsimp only
  rw [if_neg hlt, face_parted k.stage.sound k.lt_size k.nodup, if_neg hne, hsame, k.stands_after.1]
  simp only [ended, hne, false_or, hhead, k.mem_joining_iff]

/-- A jump at the end of a branch leads behind the conditional. -/
theorem target_eq {x : NodeId} (hx : ts.getLast? = some x ∨ fs.getLast? = some x) {i : Instr}
    (hi : g.lastInstr? x = some i) (hop : i.opcode = .b) : i.target? = some (startOf all after) := by
  rcases hx with hx | hx
  · have hfinal := k.armTrue.ends x i hx hi hop
    rcases k.joins with ⟨-, hopen⟩ | ⟨-, jump, hjump, -, htarget⟩
    · exact absurd hfinal (hopen i)
    · cases hfinal.symm.trans hjump
      exact htarget
  · exact absurd (k.armFalse.ends x i hx hi hop) (k.opens i)

end Forked

/-- What the fold of a conditional makes of the graph: the new node, and the others around it. -/
structure Fold (all : List Cell) (j : Nat) (rep : Nat → Nat) (g : Graph) (after : Nat)
    (is : List Instr) (ts fs : List NodeId) (node : NodeId) (g' : Graph) : Prop where
  sound : g'.Sound
  node_eq : node = g.nodes.size + if ts = [] then 1 else 0
  size : g'.nodes.size = node + 1
  face_node : g'.face node =
    { start := startOf all j, stop := startOf all after, kind := .branch, succs := [rep after]
      parent := if j = 0 then some (all.length + 1) else none
      children := [some j, some (ts.head?.getD g.nodes.size), fs.head?] }
  face_test : g'.face j = { start := startOf all j, stop := startOf all (j + 1), kind := .block is
                            parent := some node }
  face_empty : ts = [] → g'.face g.nodes.size =
    { start := startOf all after, stop := startOf all after, parent := some node }
  face_old : ∀ x < g.nodes.size, x ≠ j → g'.face x =
    let y := (ended g ts fs (rep after) (startOf all after) x).moved j node
    if ts.head? = some x ∨ fs.head? = some x then { y with parent := some node } else y

section

variable {all : List Cell} {top : Node} {j : Nat} {rep : Nat → Nat} {other after : Nat}
  {is : List Instr} {skip : Instr} {onTrue onFalse : Nest} {Wt Wf : NodeId → Prop}
  {ts fs : List NodeId} (k : Forked all top j rep g other after is skip onTrue onFalse Wt Wf ts fs)

theorem Forked.exists_fold (k : Forked all top j rep g other after is skip onTrue onFalse Wt Wf ts fs) :
    ∃ node g', (visit j).run g = .ok (some node) g' ∧ Fold all j rep g after is ts fs node g' :=
  ⟨_, _, k.run, k.sound, k.size_eq, size_folded .., k.face_node, k.face_test, k.face_empty,
    fun _ hx hne => k.face_old hx hne⟩

namespace Fold

variable {node : NodeId} {g' : Graph} (f : Fold all j rep g after is ts fs node g')

include f in
theorem size_le : g.nodes.size ≤ node := by
  rw [f.node_eq]
  exact Nat.le_add_right _ _

include k f

/-- A node that is in no branch. -/
theorem face_other {x : NodeId} (hx : x < g.nodes.size) (hne : x ≠ j) (ht : ¬ Wt x) (hf : ¬ Wf x) :
    g'.face x = (g.face x).moved j node := by
  have hlast : ¬ (ts.getLast? = some x ∨ fs.getLast? = some x) := by
    rintro (h | h)
    · exact ht (k.armTrue.mem x (List.mem_of_getLast? h))
    · exact hf (k.armFalse.mem x (List.mem_of_getLast? h))
  have hhead : ¬ (ts.head? = some x ∨ fs.head? = some x) := by
    rintro (h | h)
    · exact ht (k.armTrue.mem x (List.mem_of_head? h))
    · exact hf (k.armFalse.mem x (List.mem_of_head? h))
  rw [f.face_old x hx hne]
  dsimp only
  rw [if_neg hhead, ended, if_neg hlast]

omit k in
/-- An old node, but for what holds it. -/
theorem look_face {x : NodeId} (hx : x < g.nodes.size) (hne : x ≠ j) : (g'.face x).look =
    ((ended g ts fs (rep after) (startOf all after) x).moved j node).look := by
  rw [f.face_old x hx hne]
  dsimp only
  split <;> rfl

/-- What an old node keeps, whatever becomes of its edges and slots. -/
theorem keeps_old {x : NodeId} (hx : x < g.nodes.size) :
    (g'.node x).start = (g.node x).start ∧ (g'.node x).isJump = (g.node x).isJump := by
  by_cases hne : x = j
  · subst hne
    have hface := f.face_test
    have hcondition := k.face_condition
    refine ⟨?_, ?_⟩
    · rw [← start_face, hface, ← start_face, hcondition]
    · rw [← isJump_face, hface, ← isJump_face, hcondition]
      rfl
  · have hlook := f.look_face hx hne
    exact ⟨(congrArg Node.start hlook).trans start_ended,
      (Node.isJump_of_look hlook).trans isJump_ended⟩

omit k in
/-- An old node names what it named before, but for the condition. -/
theorem names_old {x : NodeId} (hx : x < g.nodes.size) (hne : x ≠ j) {t : NodeId}
    (ht : (g'.face x).Names t) : t = node ∨ t ≠ j ∧ (g.face x).Names t := by
  have hlook := f.look_face hx hne
  have hmoved : ((ended g ts fs (rep after) (startOf all after) x).moved j node).Names t :=
    ht.imp (fun h => congrArg Node.succs hlook ▸ h) fun h => congrArg Node.children hlook ▸ h
  exact (Node.names_moved hmoved).imp_right fun h => ⟨h.1, names_of_ended h.2⟩

omit k in
/-- An old node that led nowhere still does. -/
theorem succs_old {x : NodeId} (hx : x < g.nodes.size) (hne : x ≠ j) (hsuccs : (g.node x).succs = []) :
    (g'.node x).succs = [] := by
  refine (congrArg Node.succs (f.look_face hx hne)).trans ?_
  change (((ended g ts fs (rep after) (startOf all after) x).succs).map _) = []
  rw [succs_ended hsuccs, List.map_nil]

/-- What the new node names: what follows the branches, the condition and the branches. -/
theorem names_node {t : NodeId} (ht : (g'.face node).Names t) :
    t = rep after ∨ t = j ∨ Wt t ∨ ts = [] ∧ t = g.nodes.size ∨ Wf t := by
  rw [f.face_node] at ht
  rcases ht with ht | ht
  · exact .inl (List.mem_singleton.mp ht)
  · simp only [List.mem_cons, Option.some.injEq, List.not_mem_nil, or_false] at ht
    rcases ht with rfl | rfl | hf
    · exact .inr (.inl rfl)
    · cases hts : ts with
      | nil => exact .inr (.inr (.inr (.inl ⟨rfl, rfl⟩)))
      | cons t rest =>
        exact .inr (.inr (.inl (k.armTrue.mem t (by rw [hts]; exact List.mem_cons_self))))
    · exact .inr (.inr (.inr (.inr (k.armFalse.mem t (List.mem_of_head? hf.symm)))))

omit k in
/-- What the fold added: the new node, and the empty branch where there is one. -/
theorem added {x : NodeId} (hge : g.nodes.size ≤ x) (hlt : x < g'.nodes.size) :
    x = node ∨ ts = [] ∧ x = g.nodes.size := by
  have hnode := f.node_eq
  rw [f.size] at hlt
  rcases Nat.lt_or_eq_of_le (Nat.le_of_lt_succ hlt) with hlt | he
  · rw [hnode] at hlt
    split at hlt
    · rename_i hts
      exact .inr ⟨hts, Nat.le_antisymm (Nat.le_of_lt_succ hlt) hge⟩
    · exact absurd hlt (Nat.not_lt.mpr hge)
  · exact .inl he

omit k in
/-- The nodes after the fold: the old ones, the empty branch and the new node. -/
theorem node_cases (x : NodeId) : x < g.nodes.size ∨ ts = [] ∧ x = g.nodes.size ∨ x = node ∨
    g'.face x = default := by
  rcases Nat.lt_or_ge x g.nodes.size with hlt | hge
  · exact .inl hlt
  · rcases Nat.lt_or_ge x g'.nodes.size with hlt | hge'
    · rcases f.added hge hlt with he | he
      · exact .inr (.inr (.inl he))
      · exact .inr (.inl he)
    · exact .inr (.inr (.inr (face_of_size_le hge')))

/-- Nothing from the condition on names what stands before it. -/
theorem names_ge {x : NodeId} (hx : j ≤ x) (hroot : x ≠ all.length + 1) {t : NodeId}
    (ht : (g'.face x).Names t) : j ≤ t := by
  have hnone : ∀ y : Node, y.succs = [] → y.children = [] → ¬ y.Names t := by
    intro y hsuccs hchildren h
    rcases h with h | h
    · rw [hsuccs] at h
      cases h
    · rw [hchildren] at h
      cases h
  rcases f.node_cases x with hold | ⟨hts, rfl⟩ | rfl | hdefault
  · rcases Nat.lt_or_eq_of_le hx with hgt | rfl
    · rcases f.names_old hold (Nat.ne_of_gt hgt) ht with rfl | ⟨-, ht⟩
      · exact Nat.le_of_lt (Nat.lt_of_lt_of_le k.lt_size f.size_le)
      · exact Nat.le_of_succ_le (k.stage.names x hgt hroot t ht)
    · rw [f.face_test] at ht
      exact absurd ht (hnone _ rfl rfl)
  · rw [f.face_empty hts] at ht
    exact absurd ht (hnone _ rfl rfl)
  · rcases f.names_node k ht with rfl | rfl | hw | ⟨-, rfl⟩ | hw
    · have hafter := k.stage.stands after (Nat.lt_of_lt_of_le k.lt_other k.other_le) k.le
      exact Nat.le_of_succ_le hafter.1
    · exact Nat.le_refl _
    · exact Nat.le_of_lt (k.ownTrue t hw).1
    · exact Nat.le_of_lt k.lt_size
    · exact Nat.le_of_lt (k.ownFalse t hw).1
  · rw [hdefault] at ht
    exact absurd ht (hnone _ rfl rfl)

/-- Nothing from the condition on that leads anywhere starts before it. -/
theorem start_ge {x : NodeId} (hx : j ≤ x) (hne : (g'.node x).succs ≠ []) :
    startOf all j ≤ (g'.node x).start := by
  rcases f.node_cases x with hold | ⟨hts, rfl⟩ | rfl | hdefault
  · rcases Nat.lt_or_eq_of_le hx with hgt | rfl
    · rw [(f.keeps_old k hold).1]
      have hplace := k.stage.place x hgt fun h => hne (f.succs_old hold (Nat.ne_of_gt hgt) h)
      have hnext := k.stage.ascends j (j + 1) (Nat.lt_succ_self j) k.stage.le
      exact Nat.le_trans (Nat.le_of_lt hnext) hplace
    · rw [← succs_face, f.face_test] at hne
      exact absurd rfl hne
  · rw [← succs_face, f.face_empty hts] at hne
    exact absurd rfl hne
  · exact Nat.le_of_eq (by rw [← start_face, f.face_node])
  · rw [← succs_face, hdefault] at hne
    exact absurd rfl hne

/-- After the fold the new node stands for the block of the condition. -/
theorem stage_fold : Stage all top j (fun i => if rep i = j then node else rep i) g' := by
  have hle := f.size_le
  have hlt := k.lt_size
  have hlength := k.stage.le
  have hroot := k.stage.size
  have hnew := f.size
  have hgrow : g.nodes.size < g'.nodes.size := by omega
  have hown : ∀ i, i ≤ j ∨ i = all.length + 1 → ¬ Wt i ∧ ¬ Wf i := by
    intro i hi
    refine ⟨fun hw => ?_, fun hw => ?_⟩
    · obtain ⟨hj, -, hne, -⟩ := k.ownTrue i hw
      exact hi.elim (fun h => Nat.not_le.mpr hj h) hne
    · obtain ⟨hj, -, hne, -⟩ := k.ownFalse i hw
      exact hi.elim (fun h => Nat.not_le.mpr hj h) hne
  have hbehind : ∀ i, j < i → i ≤ all.length → rep i ≠ j := fun i hi hi' =>
    Nat.ne_of_gt (k.stage.stands i hi hi').1
  refine ⟨f.sound, k.stage.ascends, Nat.le_of_succ_le hlength, by omega, fun i c hi hc => ?_, ?_,
    fun i hi => ?_, fun i hi hi' => ?_, fun x hx hroot t ht => f.names_ge k hx hroot ht,
    fun x hx hne => f.start_ge k hx hne⟩
  · obtain ⟨ht, hf⟩ := hown i (.inl (Nat.le_of_lt hi))
    rw [f.face_other k (Nat.lt_trans hi hlt) (Nat.ne_of_lt hi) ht hf,
      k.stage.cell i c (Nat.lt_succ_of_lt hi) hc, Node.moved, rename, List.map_map]
    rfl
  · obtain ⟨ht, hf⟩ := hown (all.length + 1) (.inr rfl)
    rw [f.face_other k hroot (Nat.ne_of_gt (Nat.lt_succ_of_lt hlength)) ht hf, k.stage.root,
      Node.moved, k.topSuccs]
    by_cases hzero : rep 0 = j <;> simp [rename, hzero]
  · have hsame := k.stage.same i (Nat.lt_succ_of_lt hi)
    rw [hsame, if_neg (Nat.ne_of_lt hi)]
  · rcases Nat.lt_or_eq_of_le hi with hgt | rfl
    · obtain ⟨hge, hsize, hne, hstart, hjump⟩ := k.stage.stands i hgt hi'
      obtain ⟨hstart', hjump'⟩ := f.keeps_old k hsize
      rw [if_neg (hbehind i hgt hi'), hstart', hjump']
      exact ⟨Nat.le_of_succ_le hge, Nat.lt_trans hsize hgrow, hne, hstart, hjump⟩
    · rw [if_pos (k.stage.same j (Nat.lt_succ_self j)), ← start_face, ← isJump_face, f.face_node]
      exact ⟨by omega, by omega, by omega, rfl, rfl⟩

theorem look_old {x : NodeId} (hx : x < g.nodes.size) (hgt : j < x) (hroot : x ≠ all.length + 1) :
    (g'.node x).look = if ts.getLast? = some x ∨ fs.getLast? = some x
      then { (g.node x).look.unjumped with succs := [] } else (g.node x).look := by
  have hnames : ¬ (ended g ts fs (rep after) (startOf all after) x).Names j := fun h =>
    Nat.lt_irrefl j (k.stage.names x hgt hroot j (names_of_ended h))
  refine (f.look_face hx (Nat.ne_of_gt hgt)).trans ?_
  rw [Node.moved_of_not_names hnames, ended]
  by_cases hlast : ts.getLast? = some x ∨ fs.getLast? = some x
  · have hsuccs : (g.node x).succs = [rep after] :=
      hlast.elim k.armTrue.path.succs_last k.armFalse.path.succs_last
    rw [if_pos hlast, if_pos hlast]
    exact look_cutNode (n := g.face x) hsuccs fun i hi => k.target_eq hlast hi
  · rw [if_neg hlast, if_neg hlast]
    rfl

theorem continues_true : Continues Wt ts none g g' := by
  intro x hx
  obtain ⟨hgt, hlt, hroot, -⟩ := k.ownTrue x hx
  have hfalse : fs.getLast? ≠ some x := fun h =>
    k.apart x hx (k.armFalse.mem x (List.mem_of_getLast? h))
  rw [f.look_old k hlt hgt hroot]
  simp only [hfalse, or_false]
  rfl

theorem continues_false : Continues Wf fs none g g' := by
  intro x hx
  obtain ⟨hgt, hlt, hroot, -⟩ := k.ownFalse x hx
  have htrue : ts.getLast? ≠ some x := fun h =>
    k.apart x (k.armTrue.mem x (List.mem_of_getLast? h)) hx
  rw [f.look_old k hlt hgt hroot]
  simp only [htrue, false_or]
  rfl

/-- A node behind the conditional that is in no branch stays as it is. -/
theorem face_behind {x : NodeId} (hgt : j < x) (hlt : x < g.nodes.size) (hroot : x ≠ all.length + 1)
    (ht : ¬ Wt x) (hf : ¬ Wf x) : g'.face x = g.face x := by
  rw [f.face_other k hlt (Nat.ne_of_gt hgt) ht hf, Node.moved_of_not_names]
  exact fun h => Nat.lt_irrefl j (k.stage.names x hgt hroot j h)

end Fold

end

/-- The nodes of a folded conditional and of what follows it. -/
def Within (j : Nat) (g g' : Graph) (Wt Wf Wr : NodeId → Prop) (x : Nat) : Prop :=
  x = j ∨ Wt x ∨ Wf x ∨ Wr x ∨ g.nodes.size ≤ x ∧ x < g'.nodes.size

theorem getLast?_cons_iff {n x : NodeId} {rs : List NodeId} :
    (n :: rs).getLast? = some x ↔ rs = [] ∧ x = n ∨ rs.getLast? = some x := by
  rw [List.getLast?_cons]
  cases hrs : rs.getLast? with
  | none => simp [List.getLast?_eq_none_iff.mp hrs, eq_comm]
  | some y =>
    have hne : rs ≠ [] := by
      rintro rfl
      cases hrs
    simp [hne]

namespace Fold

variable {all : List Cell} {top : Node} {j : Nat} {rep : Nat → Nat} {other after : Nat}
  {is : List Instr} {skip : Instr} {onTrue onFalse rest : Nest} {Wt Wf Wr : NodeId → Prop}
  {ts fs rs : List NodeId} {node : NodeId} {g' : Graph} {hi : Nat} {out : NodeId}
  (f : Fold all j rep g after is ts fs node g')
  (k : Forked all top j rep g other after is skip onTrue onFalse Wt Wf ts fs)
  (hr : Arm g rest Wr (startOf all after) hi out rs) (hentry : rep after = rs.head?.getD out)
  (hown : ∀ x, Wr x → j < x ∧ x < g.nodes.size ∧ x ≠ all.length + 1 ∧ ¬ Wt x ∧ ¬ Wf x)
include f k hr hown

theorem arm_rest : Arm g' rest Wr (startOf all after) hi out rs := by
  refine hr.of_face fun x hx => ?_
  obtain ⟨hgt, hlt, hroot, ht, hf⟩ := hown x hx
  exact f.face_behind k hgt hlt hroot ht hf

include hentry

omit f k hown hentry in
/-- A later graph has the nodes of the conditional as they are, its end and what follows apart. -/
theorem look_inside {h : Graph} {out' : Option NodeId}
    (hc : Continues (Within j g g' Wt Wf Wr) (node :: rs) out' g' h) {x : NodeId}
    (hx : Within j g g' Wt Wf Wr x) (hne : x ≠ node) (hw : ¬ Wr x) :
    (h.node x).look = (g'.node x).look := by
  have hlast : (node :: rs).getLast? ≠ some x := by
    intro hlast
    rcases getLast?_cons_iff.mp hlast with ⟨-, he⟩ | hlast
    · exact hne he
    · exact hw (hr.mem x (List.mem_of_getLast? hlast))
  rw [hc x hx, if_neg hlast]

omit k hentry in
/-- The slot of the true branch holds its first node, or an empty one. -/
theorem first_true {h : Graph} {out' : Option NodeId}
    (hc : Continues (Within j g g' Wt Wf Wr) (node :: rs) out' g' h) :
    ts.head? = some (ts.head?.getD g.nodes.size) ∨
      ts = [] ∧ (h.node (ts.head?.getD g.nodes.size)).kind = .empty ∧
        (h.node (ts.head?.getD g.nodes.size)).succs = [] := by
  cases hts : ts with
  | cons t rest' => exact .inl rfl
  | nil =>
    have hempty := f.face_empty hts
    have hne : g.nodes.size ≠ node := by
      intro he
      rw [he, f.face_node] at hempty
      cases congrArg Node.kind hempty
    have hlook := look_inside hr hc (.inr (.inr (.inr (.inr ⟨Nat.le_refl _,
      Nat.lt_of_le_of_lt f.size_le (f.size ▸ Nat.lt_succ_self _)⟩)))) hne
        fun hw => Nat.lt_irrefl _ (hown _ hw).2.1
    refine .inr ⟨rfl, (congrArg Node.kind hlook).trans ?_, (congrArg Node.succs hlook).trans ?_⟩
    · change (g'.face g.nodes.size).kind = _
      rw [hempty]
    · change (g'.face g.nodes.size).succs = _
      rw [hempty]

/-- The chain of a folded conditional holds its blocks, whatever becomes of the end of the chain. -/
theorem reads (h : Graph) (out' : Option NodeId)
    (hc : Continues (Within j g g' Wt Wf Wr) (node :: rs) out' g' h) :
    Reads h out' (.cond is skip onTrue onFalse rest) (node :: rs) := by
  have hold : ∀ x, x < g.nodes.size → x ≠ node := fun x hx =>
    Nat.ne_of_lt (Nat.lt_of_lt_of_le hx f.size_le)
  have hnode : Within j g g' Wt Wf Wr node :=
    .inr (.inr (.inr (.inr ⟨f.size_le, f.size ▸ Nat.lt_succ_self _⟩)))
  have htest := look_inside hr hc (.inl rfl) (hold j k.lt_size) fun hw =>
    Nat.lt_irrefl j (hown j hw).1
  have hkind : (h.node node).kind = .branch := by
    rw [hc.kind_eq hnode (by rw [← instrs_face, f.face_node]; rfl), ← kind_face, f.face_node]
  have hsuccs : (h.node node).succs = (rs.head? <|> out').toList := by
    rw [hc.succs_eq hnode, ← succs_face, f.face_node]
    cases hrs : rs with
    | nil => exact if_pos rfl
    | cons r rest' =>
      have hne : (node :: r :: rest').getLast? ≠ some node := fun hlast => by
        rcases getLast?_cons_iff.mp hlast with ⟨hnil, -⟩ | hlast
        · cases hnil
        · exact hold node (hown node (hr.mem node (hrs ▸ List.mem_of_getLast? hlast))).2.1 rfl
      rw [if_neg hne, hentry, hrs]
      rfl
  have hchildren : (h.node node).children =
      [some j, some (ts.head?.getD g.nodes.size), fs.head?] := by
    rw [hc.children_eq hnode, ← children_face, f.face_node]
  have htestKind : (h.node j).kind = .block is := by
    refine (congrArg Node.kind htest).trans ?_
    change (g'.face j).kind = _
    rw [f.face_test]
  have htestSuccs : (h.node j).succs = [] := by
    refine (congrArg Node.succs htest).trans ?_
    change (g'.face j).succs = _
    rw [f.face_test]
  refine .cond hkind hsuccs hchildren htestKind htestSuccs (f.first_true hr hown hc)
    k.armTrue.nodup k.armFalse.nodup (k.armTrue.reads h none fun x hx => ?_)
    (k.armFalse.reads h none fun x hx => ?_) ((f.arm_rest k hr hown).reads h out' fun x hx => ?_)
  · obtain ⟨-, hlt, -, -⟩ := k.ownTrue x hx
    rw [look_inside hr hc (.inr (.inl hx)) (hold x hlt) fun hw =>
      (hown x hw).2.2.2.1 hx]
    exact f.continues_true k x hx
  · obtain ⟨-, hlt, -, -⟩ := k.ownFalse x hx
    rw [look_inside hr hc (.inr (.inr (.inl hx))) (hold x hlt) fun hw =>
      (hown x hw).2.2.2.2 hx]
    exact f.continues_false k x hx
  · rw [hc x (.inr (.inr (.inr (.inl hx))))]
    simp only [getLast?_cons_iff, hold x (hown x hx).2.1, and_false, false_or]

omit hentry in
/-- The slots of a folded conditional and of what follows hold nodes of theirs. -/
theorem holds {x : NodeId} (hx : Within j g g' Wt Wf Wr x) {c : NodeId}
    (hc : some c ∈ (g'.node x).children) : Within j g g' Wt Wf Wr c := by
  rcases hx with rfl | hx | hx | hx | ⟨hge, hlt⟩
  · rw [← children_face, f.face_test] at hc
    cases hc
  · rw [(f.continues_true k).children_eq hx] at hc
    exact .inr (.inl (k.armTrue.holds x hx c hc))
  · rw [(f.continues_false k).children_eq hx] at hc
    exact .inr (.inr (.inl (k.armFalse.holds x hx c hc)))
  · exact .inr (.inr (.inr (.inl ((f.arm_rest k hr hown).holds x hx c hc))))
  · rcases f.added hge hlt with rfl | ⟨hts, rfl⟩
    · rw [← children_face, f.face_node] at hc
      simp only [List.mem_cons, Option.some.injEq, List.not_mem_nil, or_false] at hc
      rcases hc with rfl | rfl | hf
      · exact .inl rfl
      · cases hts : ts with
        | nil => exact .inr (.inr (.inr (.inr ⟨Nat.le_refl _,
            Nat.lt_of_le_of_lt f.size_le (f.size ▸ Nat.lt_succ_self _)⟩)))
        | cons t rest' =>
          exact .inr (.inl (k.armTrue.mem t (by rw [hts]; exact List.mem_cons_self)))
      · exact .inr (.inr (.inl (k.armFalse.mem c (List.mem_of_head? hf.symm))))
    · rw [← children_face, f.face_empty hts] at hc
      cases hc

/-- The nodes of a folded conditional and of what follows lead to one another; only the last one
leads on. -/
theorem leads {x : NodeId} (hx : Within j g g' Wt Wf Wr x) {t : NodeId}
    (ht : t ∈ (g'.node x).succs) :
    Within j g g' Wt Wf Wr t ∨ t = out ∧ (node :: rs).getLast? = some x := by
  rcases hx with rfl | hx | hx | hx | ⟨hge, hlt⟩
  · rw [← succs_face, f.face_test] at ht
    cases ht
  · rw [(f.continues_true k).succs_eq hx] at ht
    split at ht
    · cases ht
    · rename_i hlast
      exact .inl (.inr (.inl ((k.armTrue.leads x hx t ht).resolve_right fun h => hlast h.2)))
  · rw [(f.continues_false k).succs_eq hx] at ht
    split at ht
    · cases ht
    · rename_i hlast
      exact .inl (.inr (.inr (.inl ((k.armFalse.leads x hx t ht).resolve_right fun h => hlast h.2))))
  · rcases (f.arm_rest k hr hown).leads x hx t ht with hw | ⟨rfl, hlast⟩
    · exact .inl (.inr (.inr (.inr (.inl hw))))
    · exact .inr ⟨rfl, getLast?_cons_iff.mpr (.inr hlast)⟩
  · rcases f.added hge hlt with rfl | ⟨hts, rfl⟩
    · rw [← succs_face, f.face_node] at ht
      obtain rfl := List.mem_singleton.mp ht
      cases hrs : rs with
      | nil => exact .inr ⟨by rw [hentry, hrs]; rfl, rfl⟩
      | cons r rest' =>
        have hw : Wr (rep after) := by
          rw [hentry, hrs]
          exact hr.mem r (hrs ▸ List.mem_cons_self)
        exact .inl (.inr (.inr (.inr (.inl hw))))
    · rw [← succs_face, f.face_empty hts] at ht
      cases ht

/-- The new node goes ahead of the arm of what follows. -/
theorem arm (hhi : startOf all after ≤ hi) : Arm g' (.cond is skip onTrue onFalse rest)
    (Within j g g' Wt Wf Wr) (startOf all j) hi out (node :: rs) := by
  have hr' := f.arm_rest k hr hown
  have hself : Within j g g' Wt Wf Wr node :=
    .inr (.inr (.inr (.inr ⟨f.size_le, f.size ▸ Nat.lt_succ_self _⟩)))
  refine ⟨List.nodup_cons.mpr ⟨fun hmem => ?_, hr.nodup⟩, fun n hn => ?_, ⟨?_, hr'.path⟩,
    iff_of_false (List.cons_ne_nil _ _) Nest.noConfusion, fun n hn => ?_, fun n hn => ?_,
    fun x hx hne => ?_, fun x hx t ht => f.leads k hr hentry hown hx ht,
    fun x hx c hc => f.holds k hr hown hx hc, fun i hi => ?_, fun n i hn hi hop => ?_,
    f.reads k hr hentry hown⟩
  · exact Nat.not_le.mpr (hown _ (hr.mem _ hmem)).2.1 f.size_le
  · rcases List.mem_cons.mp hn with rfl | hn
    · exact hself
    · exact .inr (.inr (.inr (.inl (hr.mem n hn))))
  · rw [← succs_face, f.face_node, hentry]
  · cases hn
    rw [← start_face, f.face_node]
  · rcases List.mem_cons.mp hn with rfl | hn
    · rw [← start_face, ← isJump_face, f.face_node]
      have hnext := k.stage.ascends j after (Nat.lt_of_lt_of_le k.lt_other k.other_le) k.le
      exact ⟨Nat.lt_of_lt_of_le hnext hhi, rfl⟩
    · exact hr'.before n hn
  · refine (f.stage_fold k).place x ?_ hne
    rcases hx with rfl | hx | hx | hx | ⟨hx, -⟩
    · exact Nat.le_refl _
    · exact Nat.le_of_lt (k.ownTrue x hx).1
    · exact Nat.le_of_lt (k.ownFalse x hx).1
    · exact Nat.le_of_lt (hown x hx).1
    · exact Nat.le_trans (Nat.le_of_lt k.lt_size) hx
  · obtain ⟨n, hn, hi⟩ := hr'.closed i hi
    exact ⟨n, getLast?_cons_iff.mpr (.inr hn), hi⟩
  · rcases getLast?_cons_iff.mp hn with ⟨-, rfl⟩ | hn
    · rw [lastInstr?, Graph.instrs, ← instrs_face, f.face_node] at hi
      cases hi
    · exact hr'.ends n i hn hi hop

end Fold

end Branch
end GmlLift
