import GmlLift.Proofs.Flow.BranchFold
import GmlLift.Proofs.Flow.BranchLayout

/-! # Arms

Conditionals are folded from the last to the first, so what stands behind a conditional and inside of
it is folded before. Each tree of blocks then is an arm: a path of nodes that leads from where the
tree starts to where it leads out, and nothing else leads into the middle of it. -/
namespace GmlLift

open GmlLift.Graph Cell Pass

/-- A node without what only holds of its surroundings. -/
def Node.look (n : Node) : Node := { n with preds := [], parent := none }

theorem Node.isJump_of_look {x y : Node} (h : x.look = y.look) : x.isJump = y.isJump := by
  have he := congrArg Node.isJump h
  exact he

/-- A node without the jump that ends it. -/
def Node.unjumped (n : Node) : Node :=
  if n.instrs.getLast?.any (·.opcode == .b) then n.mapInstrs fun is => is.take (is.length - 1) else n

theorem Node.unjumped_of_ne {n : Node} (h : ∀ i, n.instrs.getLast? = some i → i.opcode ≠ .b) :
    n.unjumped = n := by
  refine if_neg ?_
  cases hi : n.instrs.getLast? with
  | none => exact Bool.false_ne_true
  | some i => simpa using h i hi

theorem Node.look_mapInstrs (f : List Instr → List Instr) (n : Node) :
    (n.mapInstrs f).look = n.look.mapInstrs f := by
  obtain ⟨start, stop, preds, succs, parent, children, unreachable, kind⟩ := n
  cases kind <;> rfl

namespace Branch

variable {g h : Graph}

theorem isJump_face (x : NodeId) : (g.face x).isJump = (g.node x).isJump := rfl

/-- A predecessor that leads to the meeting point only, once it is cut off. -/
theorem look_cutNode {meet : NodeId} {meetStart : Nat} {n : Node} (hsuccs : n.succs = [meet])
    (hjump : ∀ i, n.instrs.getLast? = some i → i.opcode = .b → i.target? = some meetStart) :
    (cutNode meet meetStart n).look = { n.look.unjumped with succs := [] } := by
  have herase : n.succs.erase meet = [] := by simp [hsuccs]
  have hany : (n.instrs.getLast?.any fun i => i.opcode == .b && i.target? == some meetStart) =
      n.look.instrs.getLast?.any (·.opcode == .b) := by
    change _ = n.instrs.getLast?.any _
    cases hi : n.instrs.getLast? with
    | none => rfl
    | some i =>
      by_cases hop : i.opcode = .b
      · simp [hop, hjump i hi hop]
      · simp [hop]
  rw [cutNode, herase, hany, Node.unjumped]
  split
  · rw [← Node.look_mapInstrs]
    rfl
  · rfl

/-! ## Paths -/

/-- Nodes lead to each other in order, and the last one leads out. -/
def Path (g : Graph) : List NodeId → (out : NodeId) → Prop
  | [], _ => True
  | n :: rest, out => (g.node n).succs = [rest.head?.getD out] ∧ Path g rest out

/-- The walk along the true branch follows a path to the first node at or past the false branch. -/

theorem Path.succs_last {ns : List NodeId} {out x : NodeId} (hp : Path g ns out)
    (hx : ns.getLast? = some x) : (g.node x).succs = [out] := by
  induction ns with
  | nil => cases hx
  | cons n rest ih =>
    cases rest with
    | nil =>
      cases hx
      exact hp.1
    | cons m rest => exact ih hp.2 (by rwa [List.getLast?_cons_cons] at hx)

/-- The walk along the true branch follows a path to the first node at or past the false branch. -/
theorem walkToMeet_path {onFalse meet : NodeId} (hmeet : (g.node meet).isJump = false)
    (hpast : (g.node onFalse).start ≤ (g.node meet).start) (shared : List NodeId)
    {ns : List NodeId} (hpath : Path g ns meet) (hnodup : ns.Nodup)
    (hns : ∀ n ∈ ns, (g.node n).start < (g.node onFalse).start ∧ (g.node n).isJump = false)
    {fuel : Nat} (hfuel : ns.length < fuel) {seen : List NodeId} (hseen : ∀ n ∈ ns, n ∉ seen) :
    walkToMeet g onFalse shared fuel seen (ns.head?.getD meet) = meet := by
  induction ns generalizing fuel seen with
  | nil =>
    obtain ⟨fuel, rfl⟩ : ∃ k, fuel = k + 1 := ⟨fuel - 1, by simp at hfuel; omega⟩
    simp [walkToMeet, hmeet, hpast]
  | cons n rest ih =>
    obtain ⟨hsuccs, hpath⟩ := hpath
    obtain ⟨hn, hnodup⟩ := List.nodup_cons.mp hnodup
    obtain ⟨hstart, hjump⟩ := hns n List.mem_cons_self
    obtain ⟨fuel, rfl⟩ : ∃ k, fuel = k + 1 := ⟨fuel - 1, by simp at hfuel; omega⟩
    have hstop : ¬ (n = onFalse ∨ (g.node onFalse).start ≤ (g.node n).start) := by
      rintro (rfl | hle)
      · exact Nat.lt_irrefl _ hstart
      · exact Nat.not_lt.mpr hle hstart
    have hnew : seen.contains n = false := by simpa using hseen n List.mem_cons_self
    have hnext : ((g.node n).succs.find? shared.contains <|> (g.node n).succs.head?) =
        some (rest.head?.getD meet) := by
      rw [hsuccs, List.find?_singleton]
      split <;> rfl
    rw [List.head?_cons, Option.getD_some, walkToMeet,
      hjump, if_neg Bool.false_ne_true, if_neg hstop, hnew, if_neg Bool.false_ne_true, hnext]
    refine ih hpath hnodup (fun m hm => hns m (List.mem_cons_of_mem _ hm))
      (by simpa using hfuel) fun m hm hmem => ?_
    rcases List.mem_cons.mp hmem with rfl | hmem
    · exact hn hm
    · exact hseen m (List.mem_cons_of_mem _ hm) hmem

/-! ## What a tree of blocks becomes -/

/-- A chain of nodes holds the blocks of a tree, without the jumps of conditionals. -/
inductive Reads (g : Graph) : (out : Option NodeId) → Nest → List NodeId → Prop where
  | done {out : Option NodeId} : Reads g out .done []
  | last {out : Option NodeId} {is : List Instr} {closing : Option Instr} {n : NodeId}
    (kind : (g.node n).kind = .block (is ++ (closing.filter (·.opcode != .b)).toList))
    (succs : (g.node n).succs = out.toList) : Reads g out (.last is closing) [n]
  | cond {out : Option NodeId} {is : List Instr} {skip : Instr} {onTrue onFalse rest : Nest}
    {n condition first : NodeId} {ts fs rs : List NodeId}
    (kind : (g.node n).kind = .branch) (succs : (g.node n).succs = (rs.head? <|> out).toList)
    (children : (g.node n).children = [some condition, some first, fs.head?])
    (test : (g.node condition).kind = .block is) (testSuccs : (g.node condition).succs = [])
    (entry : ts.head? = some first ∨
      ts = [] ∧ (g.node first).kind = .empty ∧ (g.node first).succs = [])
    (nodupTrue : ts.Nodup) (nodupFalse : fs.Nodup)
    (readsTrue : Reads g none onTrue ts) (readsFalse : Reads g none onFalse fs)
    (readsRest : Reads g out rest rs) : Reads g out (.cond is skip onTrue onFalse rest) (n :: rs)

/-- A later graph has the nodes of a tree as they are, but that the last one leads elsewhere and does
not jump. -/
def Continues (W : NodeId → Prop) (ns : List NodeId) (out : Option NodeId) (g h : Graph) : Prop :=
  ∀ x, W x → (h.node x).look = if ns.getLast? = some x
    then { (g.node x).look.unjumped with succs := out.toList } else (g.node x).look

namespace Continues

variable {W : NodeId → Prop} {ns : List NodeId} {out : Option NodeId} (hc : Continues W ns out g h)
  {x : NodeId} (hx : W x)
include hc hx

theorem succs_eq :
    (h.node x).succs = if ns.getLast? = some x then out.toList else (g.node x).succs := by
  have he := congrArg Node.succs (hc x hx)
  split at he <;> rename_i hlast
  · rw [if_pos hlast]
    exact he
  · rw [if_neg hlast]
    exact he

theorem children_eq : (h.node x).children = (g.node x).children := by
  have he := congrArg Node.children (hc x hx)
  split at he
  · refine he.trans ?_
    change (g.node x).look.unjumped.children = _
    unfold Node.unjumped
    split
    · exact Node.children_mapInstrs ..
    · rfl
  · exact he

theorem kind_eq (hi : (g.node x).instrs = []) : (h.node x).kind = (g.node x).kind := by
  have hnone : (g.node x).look.unjumped = (g.node x).look := Node.unjumped_of_ne fun i h => by
    have hlook : (g.node x).look.instrs = [] := hi
    rw [hlook] at h
    cases h
  have he := congrArg Node.kind (hc x hx)
  rw [hnone] at he
  split at he <;> exact he

end Continues

/-- A tree of blocks that is folded, as a path through nodes that are its own. -/
structure Arm (g : Graph) (s : Nest) (W : NodeId → Prop) (lo hi : Nat) (out : NodeId)
    (ns : List NodeId) : Prop where
  nodup : ns.Nodup
  mem : ∀ n ∈ ns, W n
  path : Path g ns out
  nil_iff : ns = [] ↔ s = .done
  first : ∀ n, ns.head? = some n → (g.node n).start = lo
  before : ∀ n ∈ ns, (g.node n).start < hi ∧ (g.node n).isJump = false
  place : ∀ x, W x → (g.node x).succs ≠ [] → lo ≤ (g.node x).start
  leads : ∀ x, W x → ∀ t ∈ (g.node x).succs, W t ∨ t = out ∧ ns.getLast? = some x
  holds : ∀ x, W x → ∀ c, some c ∈ (g.node x).children → W c
  closed : ∀ i, s.final = some (some i) → ∃ n, ns.getLast? = some n ∧ g.lastInstr? n = some i
  ends : ∀ n i, ns.getLast? = some n → g.lastInstr? n = some i → i.opcode = .b →
    s.final = some (some i)
  reads : ∀ h out', Continues W ns out' g h → Reads h out' s ns

theorem look_of_face {x : NodeId} (hx : h.face x = g.face x) : (h.node x).look = (g.node x).look :=
  congrArg (fun n : Node => { n with parent := none }) hx

theorem Path.of_face {ns : List NodeId} {out : NodeId} (hp : Path g ns out)
    (hface : ∀ n ∈ ns, h.face n = g.face n) : Path h ns out := by
  induction ns with
  | nil => trivial
  | cons n rest ih =>
    refine ⟨?_, ih hp.2 fun m hm => hface m (List.mem_cons_of_mem _ hm)⟩
    rw [← succs_face, hface n List.mem_cons_self, succs_face, hp.1]

/-- An arm stays one where its nodes stay as they are. -/
theorem Arm.of_face {s : Nest} {W : NodeId → Prop} {lo hi : Nat} {out : NodeId} {ns : List NodeId}
    (ha : Arm g s W lo hi out ns) (hface : ∀ x, W x → h.face x = g.face x) :
    Arm h s W lo hi out ns := by
  have hstart : ∀ x, W x → (h.node x).start = (g.node x).start := fun x hx => by
    rw [← start_face, hface x hx, start_face]
  have hlast : ∀ n, ns.getLast? = some n → h.lastInstr? n = g.lastInstr? n := fun n hn => by
    rw [lastInstr?, Graph.instrs, ← instrs_face, hface n (ha.mem n (List.mem_of_getLast? hn))]
    rfl
  refine ⟨ha.nodup, ha.mem, ha.path.of_face fun n hn => hface n (ha.mem n hn), ha.nil_iff,
    fun n hn => ?_, fun n hn => ?_, fun x hx hne => ?_, fun x hx t ht => ?_,
    fun x hx c hc => ?_, fun i hi => ?_, fun n i hn hi hop => ?_, fun h' out' hc => ha.reads h' out' fun x hx => ?_⟩
  · rw [hstart n (ha.mem n (List.mem_of_head? hn))]
    exact ha.first n hn
  · rw [hstart n (ha.mem n hn), Node.isJump_of_look (look_of_face (hface n (ha.mem n hn)))]
    exact ha.before n hn
  · rw [hstart x hx]
    refine ha.place x hx ?_
    rwa [← succs_face, hface x hx, succs_face] at hne
  · rw [← succs_face, hface x hx] at ht
    exact ha.leads x hx t ht
  · rw [← children_face, hface x hx] at hc
    exact ha.holds x hx c hc
  · obtain ⟨n, hn, hi⟩ := ha.closed i hi
    exact ⟨n, hn, (hlast n hn).trans hi⟩
  · rw [hlast n hn] at hi
    exact ha.ends n i hn hi hop
  · rw [hc x hx, look_of_face (hface x hx)]

/-! ## Stages of the pass -/

/-- The conditionals of the blocks from number `k` on are folded. The nodes that stand for blocks now
are given by `rep`; the node of the entry is `top` but for its child. -/
structure Stage (all : List Cell) (top : Node) (k : Nat) (rep : Nat → Nat) (g : Graph) :
    Prop where
  sound : g.Sound
  ascends : ∀ i j, i < j → j ≤ all.length → startOf all i < startOf all j
  le : k ≤ all.length
  size : all.length + 1 < g.nodes.size
  cell : ∀ i c, i < k → all[i]? = some c → g.face i =
    { start := startOf all i, stop := startOf all (i + 1), kind := .block c.instrs
      succs := c.nexts.map rep, parent := if i = 0 then some (all.length + 1) else none }
  root : g.face (all.length + 1) = { top with children := [some (rep 0)] }
  same : ∀ i < k, rep i = i
  stands : ∀ i, k ≤ i → i ≤ all.length → k ≤ rep i ∧ rep i < g.nodes.size ∧
    rep i ≠ all.length + 1 ∧ (g.node (rep i)).start = startOf all i ∧ (g.node (rep i)).isJump = false
  names : ∀ x, k ≤ x → x ≠ all.length + 1 → ∀ t, (g.face x).Names t → k ≤ t
  place : ∀ x, k ≤ x → (g.node x).succs ≠ [] → startOf all k ≤ (g.node x).start

namespace Stage

variable {all : List Cell} {top : Node} {k : Nat} {rep : Nat → Nat} (hs : Stage all top k rep g)
include hs

theorem exists_cell {x : Nat} (hx : x < k) : ∃ c, all[x]? = some c :=
  ⟨_, List.getElem?_eq_getElem (Nat.lt_of_lt_of_le hx hs.le)⟩

theorem start_eq {x : Nat} (hx : x < k) : (g.node x).start = startOf all x := by
  obtain ⟨c, hc⟩ := hs.exists_cell hx
  rw [← start_face, hs.cell x c hx hc]

theorem children_eq {x : Nat} (hx : x < k) : (g.face x).children = [] := by
  obtain ⟨c, hc⟩ := hs.exists_cell hx
  rw [hs.cell x c hx hc]

/-- Only the entry's node holds a block that is not folded, which is the first. -/
theorem holder {i : Nat} (hi : i < k) {x : NodeId} (hx : some i ∈ (g.face x).children) :
    i = 0 ∧ x = all.length + 1 := by
  rcases Nat.lt_or_ge x k with hlt | hge
  · rw [hs.children_eq hlt] at hx
    cases hx
  · by_cases hroot : x = all.length + 1
    · have hzero := hs.same 0 (Nat.lt_of_le_of_lt (Nat.zero_le i) hi)
      rw [hroot, hs.root, hzero] at hx
      simpa [hroot] using hx
    · exact absurd (hs.names x hge hroot i (.inr hx)) (Nat.not_le.mpr hi)

end Stage

end Branch
end GmlLift
