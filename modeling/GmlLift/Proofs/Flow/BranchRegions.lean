import GmlLift.Proofs.Flow.BranchFork

/-! # Folding nested conditionals

The pass visits the blocks of a tree from the last to the first. What is behind a conditional is
folded first, then its second and its first branch, and then the conditional itself. -/
namespace GmlLift

open GmlLift.Graph Cell Pass

namespace Branch

variable {all : List Cell} {top : Node} {j : Nat} {rep : Nat → Nat} {g : Graph} {is : List Instr}
  {skip : Instr} {onTrue onFalse : Nest}

/-! ## Trees of blocks -/

/-- The blocks of a tree and what was added while it was folded. -/
def Owned (j count : Nat) (g g' : Graph) (x : Nat) : Prop :=
  j ≤ x ∧ x < j + count ∨ g.nodes.size ≤ x ∧ x < g'.nodes.size

/-- A tree of blocks is folded, the rest of the graph stays as it was. -/
structure Region (all : List Cell) (top : Node) (s : Nest) (j out : Nat) (rep : Nat → Nat)
    (g : Graph) (rep' : Nat → Nat) (g' : Graph) (ns : List NodeId) : Prop where
  stage : Stage all top j rep' g'
  size_le : g.nodes.size ≤ g'.nodes.size
  later : ∀ i, j + s.count ≤ i → i ≤ all.length → rep' i = rep i
  entry : rep' j = ns.head?.getD (rep out)
  face_other : ∀ x, j + s.count ≤ x → x < g.nodes.size → x ≠ all.length + 1 → g'.face x = g.face x
  arm : Arm g' s (Owned j s.count g g') (startOf all j) (startOf all (j + s.count)) (rep out) ns

theorem region_done (hs : Stage all top j rep g) : Region all top .done j j rep g rep g [] := by
  have hnone : ∀ x, ¬ Owned j Nest.done.count g g x := by
    rintro x (h | h)
    · exact Nat.not_lt.mpr h.1 h.2
    · exact Nat.not_lt.mpr h.1 h.2
  refine ⟨hs, Nat.le_refl _, fun _ _ _ => rfl, rfl, fun _ _ _ _ => rfl, .nil, fun n hn => ?_,
    trivial, iff_of_true rfl rfl, fun n hn => ?_, fun n hn => ?_, fun x hx => absurd hx (hnone x),
    fun x hx => absurd hx (hnone x), fun x hx => absurd hx (hnone x), fun i hi => ?_,
    fun n i hn => ?_, fun _ _ _ => .done⟩
  · cases hn
  · cases hn
  · cases hn
  · cases hi
  · cases hn

section

variable {out : Nat} {closing : Option Instr}

/-- A block that does not end in a jump on false is left alone. -/
theorem visit_idle {x : NodeId} (h : ∀ i, g.lastInstr? x = some i → i.opcode ≠ .bf) :
    (visit x).run g = .ok none g := by
  have hlast : ((g.lastInstr? x).any fun i => i.opcode == .bf) = false := by
    cases hi : g.lastInstr? x with
    | none => rfl
    | some i => simpa using h i hi
  rw [visit, run_get_bind, hlast]
  rfl

variable (hs : Stage all top (j + 1) rep g) (hp : all[j]? = some ⟨is, closing, [out]⟩)
include hs hp

theorem face_last : g.face j =
    { start := startOf all j, stop := startOf all (j + 1), kind := .block (is ++ closing.toList)
      succs := [rep out], parent := if j = 0 then some (all.length + 1) else none } :=
  hs.cell j _ (Nat.lt_succ_self j) hp

/-- A block that is not folded stands for itself. -/
theorem stage_last (hnext : j < out) (hout : out ≤ all.length) : Stage all top j rep g := by
  have hface := face_last hs hp
  have hself := hs.same j (Nat.lt_succ_self j)
  have hlt : j < g.nodes.size := Nat.lt_trans hs.le (Nat.lt_of_succ_lt hs.size)
  have hle := hs.ascends j (j + 1) (Nat.lt_succ_self j) hs.le
  refine ⟨hs.sound, hs.ascends, Nat.le_of_succ_le hs.le, hs.size,
    fun i c hi => hs.cell i c (Nat.lt_succ_of_lt hi), hs.root,
    fun i hi => hs.same i (Nat.lt_succ_of_lt hi), fun i hi hi' => ?_, fun x hx hne t ht => ?_,
    fun x hx hne => ?_⟩
  · rcases Nat.lt_or_eq_of_le hi with hgt | rfl
    · obtain ⟨hge, hrest⟩ := hs.stands i hgt hi'
      exact ⟨Nat.le_of_succ_le hge, hrest⟩
    · rw [hself, ← start_face, ← isJump_face, hface]
      exact ⟨Nat.le_refl _, hlt, Nat.ne_of_lt (Nat.lt_succ_of_lt hs.le), rfl, rfl⟩
  · rcases Nat.lt_or_eq_of_le hx with hgt | rfl
    · exact Nat.le_of_succ_le (hs.names x hgt hne t ht)
    · rw [hface] at ht
      rcases ht with ht | ht
      · rw [List.mem_singleton.mp ht]
        exact Nat.le_of_succ_le (hs.stands out hnext hout).1
      · cases ht
  · rcases Nat.lt_or_eq_of_le hx with hgt | rfl
    · exact Nat.le_trans (Nat.le_of_lt hle) (hs.place x hgt hne)
    · exact Nat.le_of_eq (by rw [← start_face, hface])

variable (his : ∀ i ∈ is, i.Unmarked)
include his

/-- The last block ends in what closes it, or in straight code. -/
theorem lastInstr?_last {i : Instr} (hi : g.lastInstr? j = some i) :
    closing = some i ∨ closing = none ∧ i.endsBlock = false := by
  rw [lastInstr?, Graph.instrs, ← instrs_face, face_last hs hp, Node.instrs] at hi
  cases closing with
  | some c => exact .inl (by simpa using hi)
  | none => exact .inr ⟨rfl, (his i (List.mem_of_getLast? (by simpa using hi))).endsBlock⟩

/-- Without a jump that ends it the last block is the straight code, and what else closes it. -/
theorem unjumped_last : (g.node j).look.unjumped.kind =
    .block (is ++ (closing.filter (·.opcode != .b)).toList) := by
  have hlook : (g.node j).look = { g.face j with parent := none } := rfl
  rw [hlook, face_last hs hp]
  cases closing with
  | some c =>
    rw [Node.unjumped]
    by_cases hop : c.opcode = .b <;> simp [hop, Node.instrs, Node.mapInstrs, Option.filter]
  | none =>
    rw [Node.unjumped_of_ne]
    · rfl
    · intro i hi hop
      have hends := (his i (List.mem_of_getLast? (by simpa [Node.instrs] using hi))).endsBlock
      simp [Instr.endsBlock, hop] at hends

theorem region_last (hnext : j < out) (hout : out ≤ all.length) :
    Region all top (.last is closing) j out rep g rep g [j] := by
  have hface := face_last hs hp
  have hself := hs.same j (Nat.lt_succ_self j)
  have hstage := stage_last hs hp hnext hout
  have howned : ∀ x : Nat, Owned j (Nest.last is closing).count g g x ↔ x = j := fun x => by
    unfold Owned Nest.count
    omega
  refine ⟨hstage, Nat.le_refl _, fun _ _ _ => rfl, hself, fun _ _ _ _ => rfl,
    List.nodup_singleton j, fun n hn => ?_, ⟨?_, trivial⟩,
    iff_of_false (List.cons_ne_nil _ _) Nest.noConfusion, fun n hn => ?_, fun n hn => ?_,
    fun x hx _ => ?_, fun x hx t ht => ?_, fun x hx c hc => ?_, fun i hi => ?_,
    fun n i hn hi hop => ?_, fun h out' hc => ?_⟩
  · exact (howned n).mpr (List.mem_singleton.mp hn)
  · rw [← succs_face, hface]
    rfl
  · cases hn
    rw [← start_face, hface]
  · rw [List.mem_singleton.mp hn, ← start_face, ← isJump_face, hface]
    exact ⟨hs.ascends j (j + 1) (Nat.lt_succ_self j) hs.le, rfl⟩
  · exact Nat.le_of_eq (by rw [(howned x).mp hx, ← start_face, hface])
  · rw [(howned x).mp hx, ← succs_face, hface] at ht
    exact .inr ⟨List.mem_singleton.mp ht, congrArg some ((howned x).mp hx).symm⟩
  · rw [(howned x).mp hx, ← children_face, hface] at hc
    cases hc
  · refine ⟨j, rfl, ?_⟩
    obtain rfl : closing = some i := Option.some.inj hi
    rw [lastInstr?, Graph.instrs, ← instrs_face, hface, Node.instrs]
    simp
  · cases hn
    rcases lastInstr?_last hs hp his hi with rfl | ⟨-, hends⟩
    · rfl
    · simp [Instr.endsBlock, hop] at hends
  · have hj := (howned j).mpr rfl
    have hlast : [j].getLast? = some j := rfl
    refine .last ?_ ((hc.succs_eq hj).trans (if_pos hlast))
    have hkind := congrArg Node.kind (hc j hj)
    rw [if_pos hlast] at hkind
    exact Eq.trans hkind (unjumped_last hs hp his)

end

/-- A conditional whose rest and branches are folded, in this order. -/
structure Threaded (all : List Cell) (top : Node) (j out : Nat) (is : List Instr) (skip : Instr)
    (onTrue onFalse rest : Nest) (rep : Nat → Nat) (g : Graph) (rep₁ rep₂ rep₃ : Nat → Nat)
    (g₁ g₂ g₃ : Graph) (ts fs rs : List NodeId) : Prop where
  topSuccs : top.succs = []
  cell : all[j]? = some ⟨is, some skip, [j + 1, j + 1 + onTrue.count]⟩
  skips : skip.opcode = .bf
  joins : Nest.Joins onTrue onFalse (startOf all (j + 1 + onTrue.count + onFalse.count))
  opens : onFalse.Open
  start : Stage all top (j + 1 + onTrue.count + onFalse.count + rest.count) rep g
  le : j + 1 + onTrue.count + onFalse.count + rest.count ≤ out
  out_le : out ≤ all.length
  foldRest : Region all top rest (j + 1 + onTrue.count + onFalse.count) out rep g rep₁ g₁ rs
  foldFalse : Region all top onFalse (j + 1 + onTrue.count) (j + 1 + onTrue.count + onFalse.count) rep₁
    g₁ rep₂ g₂ fs
  foldTrue : Region all top onTrue (j + 1) (j + 1 + onTrue.count + onFalse.count) rep₂ g₂ rep₃ g₃ ts

theorem count_cond {rest : Nest} : j + (Nest.cond is skip onTrue onFalse rest).count =
    j + 1 + onTrue.count + onFalse.count + rest.count := by
  rw [Nest.count]
  omega

namespace Threaded

variable {out : Nat} {rest : Nest} {rep₁ rep₂ rep₃ : Nat → Nat} {g₁ g₂ g₃ : Graph}
  {rs : List NodeId} (t : Threaded all top j out is skip onTrue onFalse rest rep g rep₁ rep₂ rep₃ g₁
    g₂ g₃ ts fs rs)
include t

/-- What follows the conditional stands for itself until the end. -/
theorem rep_after : rep₃ (j + 1 + onTrue.count + onFalse.count) =
    rep₁ (j + 1 + onTrue.count + onFalse.count) := by
  have hle := t.le
  have hout := t.out_le
  rw [t.foldTrue.later _ (by omega) (by omega), t.foldFalse.later _ (by omega) (by omega)]

theorem face_rest {x : NodeId} (hx : j + 1 + onTrue.count + onFalse.count ≤ x)
    (hlt : x < g₁.nodes.size) (hroot : x ≠ all.length + 1) : g₃.face x = g₁.face x := by
  have hsize := t.foldFalse.size_le
  rw [t.foldTrue.face_other x (Nat.le_trans (Nat.le_add_right _ _) hx) (Nat.lt_of_lt_of_le hlt hsize)
    hroot, t.foldFalse.face_other x hx hlt hroot]

/-- A node behind the condition that is of no branch stands behind the branches. -/
theorem behind {x : Nat} (hx : j < x) (hlt : x < g₃.nodes.size)
    (ht : ¬ Owned (j + 1) onTrue.count g₂ g₃ x)
    (hf : ¬ Owned (j + 1 + onTrue.count) onFalse.count g₁ g₂ x) :
    j + 1 + onTrue.count + onFalse.count ≤ x ∧ x < g₁.nodes.size := by
  unfold Owned at ht hf
  have h₂ := t.foldFalse.size_le
  omega

theorem forked : Forked all top j rep₃ g₃ (j + 1 + onTrue.count)
    (j + 1 + onTrue.count + onFalse.count) is skip onTrue onFalse
    (Owned (j + 1) onTrue.count g₂ g₃) (Owned (j + 1 + onTrue.count) onFalse.count g₁ g₂) ts fs := by
  have hle := t.le
  have hout := t.out_le
  have hsize := t.start.size
  have h₁ := t.foldRest.size_le
  have h₂ := t.foldFalse.size_le
  have h₃ := t.foldTrue.size_le
  obtain ⟨hafter, hafterlt, -⟩ := t.foldRest.stage.stands (j + 1 + onTrue.count + onFalse.count)
    (Nat.le_refl _) (by omega)
  have hrep := t.rep_after
  have hrep₂ : rep₂ (j + 1 + onTrue.count + onFalse.count) =
      rep₁ (j + 1 + onTrue.count + onFalse.count) := t.foldFalse.later _ (Nat.le_refl _) (by omega)
  have hfalse : ∀ x : Nat, Owned (j + 1 + onTrue.count) onFalse.count g₁ g₂ x →
      j + 1 + onTrue.count ≤ x ∧ x < g₂.nodes.size ∧ x ≠ all.length + 1 ∧
        x ≠ rep₁ (j + 1 + onTrue.count + onFalse.count) := by
    rintro x (h | h) <;> omega
  have htrue : ∀ x : Nat, Owned (j + 1) onTrue.count g₂ g₃ x →
      j < x ∧ x < g₃.nodes.size ∧ x ≠ all.length + 1 ∧
        x ≠ rep₁ (j + 1 + onTrue.count + onFalse.count) := by
    rintro x (h | h) <;> omega
  refine ⟨t.foldTrue.stage, t.topSuccs, t.cell, t.skips, ?_, ?_, ?_, ?_, t.joins, t.opens,
    by omega, by omega, by omega, fun x hx => ?_, fun x hx => ?_, fun x hx hx' => ?_,
    fun x hx ht hf hne => ?_⟩
  · rw [hrep, ← hrep₂]
    exact t.foldTrue.arm
  · rw [hrep]
    refine t.foldFalse.arm.of_face fun x hx => ?_
    obtain ⟨hge, hlt, hroot, -⟩ := hfalse x hx
    exact t.foldTrue.face_other x hge hlt hroot
  · rw [hrep, ← hrep₂]
    exact t.foldTrue.entry
  · rw [hrep, ← t.foldFalse.entry]
    exact t.foldTrue.later _ (Nat.le_refl _) (by omega)
  · rw [hrep]
    exact htrue x hx
  · rw [hrep]
    obtain ⟨hge, hlt, hne⟩ := hfalse x hx
    exact ⟨Nat.lt_of_lt_of_le (Nat.lt_add_right _ (Nat.lt_succ_self j)) hge,
      Nat.lt_of_lt_of_le hlt h₃, hne⟩
  · rcases hx with hx | hx <;> rcases hx' with hx' | hx' <;> omega
  · have hlt : x < g₃.nodes.size := by
      by_contra hge
      rw [node_of_size_le (Nat.le_of_not_lt hge)] at hne
      exact hne rfl
    have hroot : x ≠ all.length + 1 := by
      rintro rfl
      rw [← succs_face, t.foldTrue.stage.root] at hne
      exact hne t.topSuccs
    obtain ⟨hge, hlt₁⟩ := t.behind hx hlt ht hf
    have hface := t.face_rest hge hlt₁ hroot
    rw [← start_face, hface, start_face]
    refine t.foldRest.stage.place x hge ?_
    rwa [← succs_face, hface, succs_face] at hne

/-- What stands behind the branches is of neither. -/
theorem outside {x : Nat} (hx : j + 1 + onTrue.count + onFalse.count ≤ x)
    (hlt : x < g₁.nodes.size) : j < x ∧ x < g₃.nodes.size ∧
      ¬ Owned (j + 1) onTrue.count g₂ g₃ x ∧ ¬ Owned (j + 1 + onTrue.count) onFalse.count g₁ g₂ x := by
  have h₂ := t.foldFalse.size_le
  have h₃ := t.foldTrue.size_le
  unfold Owned
  omega

theorem rep_behind {i : Nat} (hi : j + 1 + onTrue.count + onFalse.count + rest.count ≤ i)
    (hi' : i ≤ all.length) : j < rep₃ i ∧ rep₃ i = rep i := by
  refine ⟨(t.foldTrue.stage.stands i (by omega) hi').1, ?_⟩
  rw [t.foldTrue.later i (by omega) hi', t.foldFalse.later i (by omega) hi',
    t.foldRest.later i hi hi']

/-- The blocks of the conditional and of what follows it, and what was added for them. -/
theorem within_eq {g₄ : Graph} (hsize : g₃.nodes.size ≤ g₄.nodes.size) :
    Within j g₃ g₄ (Owned (j + 1) onTrue.count g₂ g₃) (Owned (j + 1 + onTrue.count) onFalse.count g₁ g₂)
      (Owned (j + 1 + onTrue.count + onFalse.count) rest.count g g₁) =
    Owned j (Nest.cond is skip onTrue onFalse rest).count g g₄ := by
  have hcount : j + (Nest.cond is skip onTrue onFalse rest).count = _ := count_cond
  have h₁ := t.foldRest.size_le
  have h₂ := t.foldFalse.size_le
  have h₃ := t.foldTrue.size_le
  funext x
  refine propext ?_
  unfold Within Owned
  omega

theorem exists_region : ∃ node rep₄ g₄, (visit j).run g₃ = .ok (some node) g₄ ∧
    Region all top (.cond is skip onTrue onFalse rest) j out rep g rep₄ g₄ (node :: rs) := by
  obtain ⟨node, g₄, hrun, f⟩ := t.forked.exists_fold
  have hcount : j + (Nest.cond is skip onTrue onFalse rest).count = _ := count_cond
  have hsize := t.start.size
  have hroot := t.start.le
  have h₁ := t.foldRest.size_le
  have h₂ := t.foldFalse.size_le
  have h₃ := t.foldTrue.size_le
  have hgrow : g₃.nodes.size ≤ g₄.nodes.size := f.size ▸ Nat.le_succ_of_le f.size_le
  have hown : ∀ x : Nat, Owned (j + 1 + onTrue.count + onFalse.count) rest.count g g₁ x →
      j + 1 + onTrue.count + onFalse.count ≤ x ∧ x < g₁.nodes.size ∧ x ≠ all.length + 1 := by
    rintro x (h | h) <;> omega
  have hrest : Arm g₃ rest (Owned (j + 1 + onTrue.count + onFalse.count) rest.count g g₁)
      (startOf all (j + 1 + onTrue.count + onFalse.count))
      (startOf all (j + 1 + onTrue.count + onFalse.count + rest.count)) (rep out) rs :=
    t.foldRest.arm.of_face fun x hx =>
      t.face_rest (hown x hx).1 (hown x hx).2.1 (hown x hx).2.2
  have hends : startOf all (j + 1 + onTrue.count + onFalse.count) ≤
      startOf all (j + 1 + onTrue.count + onFalse.count + rest.count) := by
    rcases Nat.eq_zero_or_pos rest.count with hzero | hpos
    · exact Nat.le_of_eq (by simp only [hzero, Nat.add_zero])
    · exact Nat.le_of_lt (t.start.ascends _ _ (Nat.lt_add_of_pos_right hpos) t.start.le)
  have harm := f.arm t.forked hrest (by rw [t.rep_after, t.foldRest.entry]) (fun x hx => by
    obtain ⟨hge, hlt, hne⟩ := hown x hx
    obtain ⟨hgt, hlt₃, hapart⟩ := t.outside hge hlt
    exact ⟨hgt, hlt₃, hne, hapart⟩) hends
  rw [t.within_eq hgrow, ← hcount] at harm
  refine ⟨node, _, g₄, hrun, f.stage_fold t.forked, Nat.le_trans (Nat.le_trans h₁ h₂)
    (Nat.le_trans h₃ hgrow), fun i hi hi' => ?_, ?_, fun x hx hlt hne => ?_, harm⟩
  · rw [hcount] at hi
    obtain ⟨hlater, hrep⟩ := t.rep_behind hi hi'
    rw [if_neg (Nat.ne_of_gt hlater), hrep]
  · exact if_pos (t.foldTrue.stage.same j (Nat.lt_succ_self j))
  · rw [hcount] at hx
    have hlt₁ : x < g₁.nodes.size := Nat.lt_of_lt_of_le hlt h₁
    have hafter : j + 1 + onTrue.count + onFalse.count ≤ x := Nat.le_trans (Nat.le_add_right _ _) hx
    obtain ⟨hgt, hlt₃, ht, hf⟩ := t.outside hafter hlt₁
    rw [f.face_behind t.forked hgt hlt₃ hne ht hf, t.face_rest hafter hlt₁ hne,
      t.foldRest.face_other x hx hlt hne]

end Threaded

/-- The blocks of a conditional, the last first. -/
theorem range_cond (j ct cf cr : Nat) : (List.range' j (1 + ct + cf + cr)).reverse =
    (List.range' (j + 1 + ct + cf) cr).reverse ++ ((List.range' (j + 1 + ct) cf).reverse ++
      ((List.range' (j + 1) ct).reverse ++ [j])) := by
  rw [← List.range'_append_1, ← List.range'_append_1, ← List.range'_append_1, List.range'_one]
  simp [Nat.add_assoc]

/-- The conditionals of a tree are folded, the last first. -/
theorem exists_region (htop : top.succs = []) {s : Nest} {j out : Nat} {rep : Nat → Nat} {g : Graph}
    (hs : Stage all top (j + s.count) rep g) (hp : Placed all j (s.cells j [out]))
    (hl : s.Laid (startOf all j)) (hle : j + s.count ≤ out) (hout : out ≤ all.length)
    (hopen : s.Open → out = j + s.count)
    (hclose : ∀ i, s.final = some (some i) → i.opcode ≠ .bf) : ∃ found rep' g' ns,
      (collect visit (List.range' j s.count).reverse).run g = .ok found g' ∧
      Region all top s j out rep g rep' g' ns := by
  induction s generalizing j out rep g with
  | done =>
    obtain rfl : out = j := hopen Nest.open_done
    exact ⟨[], rep, g, [], rfl, region_done hs⟩
  | last is closing =>
    have hidle : (visit j).run g = .ok none g := visit_idle fun i hi => by
      rcases lastInstr?_last hs hp.1 hl.1 hi with rfl | ⟨-, hends⟩
      · exact hclose i rfl
      · intro hop
        simp [Instr.endsBlock, hop] at hends
    refine ⟨[], rep, g, [j], ?_, region_last hs hp.1 hl.1 hle hout⟩
    exact collect_idle fun n hn => List.mem_singleton.mp hn ▸ hidle
  | cond is skip onTrue onFalse rest iht ihf ihr =>
    obtain ⟨-, hop, -, hjoins, hofalse, hlt, hlf, hlr⟩ := (Nest.laid_cond hp).mp hl
    obtain ⟨hcell, hpt, hpf, hpr⟩ := Nest.eachFrom_cond.mp hp
    rw [count_cond] at hs hle hopen
    obtain ⟨found₁, rep₁, g₁, rs, hrun₁, hr⟩ := ihr hs hpr hlr hle hout hopen hclose
    obtain ⟨found₂, rep₂, g₂, fs, hrun₂, hf⟩ := ihf hr.stage hpf hlf (Nat.le_refl _)
      (by omega) (fun _ => rfl) fun i hi => absurd hi (hofalse i)
    have htrue : onTrue.Open →
        j + 1 + onTrue.count + onFalse.count = j + 1 + onTrue.count := fun hopen => by
      rcases hjoins with ⟨rfl, -⟩ | ⟨-, jump, hfinal, -⟩
      · rfl
      · exact absurd hfinal (hopen jump)
    have hjump : ∀ i, onTrue.final = some (some i) → i.opcode ≠ .bf := fun i hi => by
      rcases hjoins with ⟨-, hopen⟩ | ⟨-, jump, hfinal, hjump, -⟩
      · exact absurd hi (hopen i)
      · obtain rfl : jump = i := Option.some.inj (Option.some.inj (hfinal.symm.trans hi))
        simp [hjump]
    obtain ⟨found₃, rep₃, g₃, ts, hrun₃, ht⟩ := iht hf.stage hpt hlt (Nat.le_add_right _ _)
      (by omega) htrue hjump
    obtain ⟨node, rep₄, g₄, hrun₄, hregion⟩ := Threaded.exists_region
      ⟨htop, hcell, hop, hjoins, hofalse, hs, hle, hout, hr, hf, ht⟩
    have hlast : (collect visit [j]).run g₃ = .ok [node] g₄ := by
      rw [collect, run_bind_ok hrun₄]
      rfl
    refine ⟨found₁ ++ (found₂ ++ (found₃ ++ [node])), rep₄, g₄, node :: rs, ?_, hregion⟩
    rw [Nest.count, range_cond]
    exact run_collect_append hrun₁ (run_collect_append hrun₂ (run_collect_append hrun₃ hlast))

end Branch
end GmlLift

