import GmlLift.Proofs.Build.Chains
import GmlLift.Proofs.Flow.RepeatWith
import GmlLift.Proofs.Frame.StackOnly

/-! # Loops are recovered

Straight-line code around one loop, laid out as the compiler lays it out, is built to the statements
of the code, the loop with its condition, count or target and its body, and the exit. -/
namespace GmlLift

open GmlLift.Graph Step

namespace Build

variable {ctx : Context} {depth : Nat} {n : NodeId} {info : LoopInfo} {f f' f'' : Frame} {e : Expr}
  {out : List Stmt}

/-! ## The four statements -/

section

variable (hk : (ctx.graph.node n).kind = .loop info)
include hk

theorem yields_while (hkind : info.kind = .whileLoop) (hcondition : info.hasCondition = true)
    (hstep : info.continuesToStep = false)
    (hhead : Yields (chain ctx.graph (node ctx depth) (child (ctx.graph.node n) Slot.loopHead)) f []
      { f with stack := e :: f.stack })
    (hbody : Yields (chain ctx.graph (node ctx depth) (child (ctx.graph.node n) Slot.loopBody)) f out
      f) : Yields (node ctx (depth + 1) n) f [.whileLoop (some e) out false] f := by
  rw [node, visit, hk]
  dsimp only
  rw [loop, hkind]
  dsimp only
  rw [if_pos hcondition, hstep]
  exact hhead.bind ((yields_pop rfl).bind (hbody.bind (yields_pure _ _)))

theorem yields_doUntil (hkind : info.kind = .doUntil)
    (hhead : Yields (chain ctx.graph (node ctx depth) (child (ctx.graph.node n) Slot.loopHead)) f out
      { f with stack := e :: f.stack }) : Yields (node ctx (depth + 1) n) f [.doUntil out e] f := by
  rw [node, visit, hk]
  dsimp only
  rw [loop, hkind]
  exact hhead.bind ((yields_pop rfl).bind (yields_pure _ _))

theorem yields_repeat (hkind : info.kind = .repeatLoop)
    (hhead : Yields (chain ctx.graph (node ctx depth) (child (ctx.graph.node n) Slot.loopHead)) f out
      f) : Yields (node ctx (depth + 1) n) { f with stack := e :: f.stack } [.repeatLoop e out] f := by
  rw [node, visit, hk]
  dsimp only
  rw [loop, hkind]
  exact (yields_pop rfl).bind (hhead.bind (yields_pure _ _))

theorem yields_with (hkind : info.kind = .withLoop)
    (hhead : Yields (chain ctx.graph (node ctx depth) (child (ctx.graph.node n) Slot.loopHead)) f out
      f) : Yields (node ctx (depth + 1) n) { f with stack := e :: f.stack } [.withLoop e out] f := by
  rw [node, visit, hk]
  dsimp only
  rw [loop, hkind]
  exact (yields_pop rfl).bind (hhead.bind (yields_pure _ _))

end

end Build

/-! ## Blocks inside a loop -/

namespace Loops

open Build

/-- Blocks of a layout that lead from one to the next and then nowhere, with their code. -/
def Threads (cs : List Cell) : List Nat → List Instr → Prop
  | [], is => is = []
  | n :: rest, is => ∃ d later, cs[n]? = some d ∧ d.nexts = rest.head?.toList ∧
      is = d.instrs ++ later ∧ Threads cs rest later

theorem threads_single {cs : List Cell} {n : Nat} {is : List Instr}
    (h : cs[n]? = some ⟨is, none, []⟩) : Threads cs [n] is :=
  ⟨_, [], h, rfl, by simp [Cell.instrs], rfl⟩

variable {cs : List Cell} {code : CodeEntry} {c : Candidate} {info : LoopInfo} {body : NodeId}
  {g : Graph} (h : Folded cs code c info body g)
include h

theorem isCase_cell {n : Nat} {d : Cell} (hd : cs[n]? = some d) : isCase (g.node n) = false := by
  rw [isCase, h.kind n d hd]

theorem lt_of_cell {n : Nat} {d : Cell} (hd : cs[n]? = some d) : n < g.nodes.size := by
  rw [h.size]
  exact Nat.lt_of_lt_of_le (List.getElem?_eq_some_iff.mp hd).1 (Nat.le_add_right ..)

theorem linked_of_threads {ns : List Nat} {is : List Instr} (ht : Threads cs ns is)
    (hin : ∀ n ∈ ns, c.head ≤ n ∧ n < c.next) :
    Linked g ns ∧ ∀ n ∈ ns, n < g.nodes.size := by
  induction ns generalizing is with
  | nil => exact ⟨trivial, fun _ hn => nomatch hn⟩
  | cons n rest ih =>
    obtain ⟨d, later, hd, hnexts, rfl, ht⟩ := ht
    obtain ⟨hlinked, hlt⟩ := ih ht fun m hm => hin m (by simp [hm])
    obtain ⟨hlow, hhigh⟩ := hin n (by simp)
    refine ⟨⟨isCase_cell h hd, ?_, hlinked⟩, fun m hm => ?_⟩
    · rw [h.inside n d hd hlow hhigh, hnexts]
    · rcases List.mem_cons.mp hm with rfl | hm
      · exact lt_of_cell h hd
      · exact hlt m hm

variable {game : Game} {settings : Settings} {depth : Nat} {f f' : Frame} {out : List Stmt}

theorem yields_cell {n : Nat} {d : Cell} (hd : cs[n]? = some d)
    (hrun : executeAll game d.instrs f = .ok out f') :
    Yields (node ⟨g, game, settings⟩ (depth + 1) n) f out f' :=
  yields_block (h.kind n d hd) hrun

/-- Blocks inside the loop execute their code. -/
theorem yields_threads (ns : List Nat) {is : List Instr} (ht : Threads cs ns is)
    (hin : ∀ n ∈ ns, c.head ≤ n ∧ n < c.next) (hnodup : ns.Nodup)
    (hrun : executeAll game is f = .ok out f') :
    Yields (chain g (node ⟨g, game, settings⟩ (depth + 1)) ns.head?) f out f' := by
  obtain ⟨hlinked, hlt⟩ := linked_of_threads h ht hin
  rw [chain_eq_visitAll hlinked hnodup hlt]
  clear hnodup hlinked hlt hin
  induction ns generalizing is f out with
  | nil =>
    cases ht
    cases hrun
    exact yields_pure [] _
  | cons n rest ih =>
    obtain ⟨d, later, hd, -, rfl, ht⟩ := ht
    rw [executeAll_append] at hrun
    obtain ⟨here, f₁, hhere, hrun⟩ := ok_of_bind_step hrun
    obtain ⟨after, f₂, hafter, hrun⟩ := ok_of_bind_step hrun
    cases hrun
    exact (yields_cell h hd hhere).visitAll_cons (ih ht hafter)

/-! ## The chain around a loop -/

theorem child_root : child (g.node cs.length) Slot.head =
    some (if c.head = 0 then cs.length + 1 else 0) := by
  rw [child, h.children_root]
  rfl

theorem child_head : child (g.node (cs.length + 1)) Slot.loopHead = some c.head := by
  rw [child, h.children_node]
  rfl

theorem child_body : child (g.node (cs.length + 1)) Slot.loopBody = some body := by
  rw [child, h.children_node]
  rfl

/-- What comes before the loop: nothing, or one block that leads to its head. -/
def Opens (cs : List Cell) (c : Candidate) (before : List Nat) (is : List Instr) : Prop :=
  c.head = 0 ∧ before = [] ∧ is = [] ∨
    c.head = 1 ∧ before = [0] ∧ ∃ d, cs[0]? = some d ∧ d.instrs = is ∧ d.nexts = [1]

variable {exit : Instr} {before : List Nat} {pre : List Instr}

/-- The root leads through the code before the loop, the loop and the exit. -/
theorem linked_root (hopens : Opens cs c before pre) (hhead : c.head < c.next)
    (hexit : cs[c.next]? = some ⟨[], some exit, [c.next + 1]⟩)
    (hlast : cs[c.next + 1]? = some ⟨[], none, []⟩) :
    child (g.node cs.length) Slot.head =
        (before ++ [cs.length + 1, c.next, c.next + 1]).head? ∧
      Linked g (before ++ [cs.length + 1, c.next, c.next + 1]) ∧
      (before ++ [cs.length + 1, c.next, c.next + 1]).Nodup ∧
      ∀ n ∈ before ++ [cs.length + 1, c.next, c.next + 1], n < g.nodes.size := by
  have hne : c.next + 1 ≠ c.head := fun he => absurd hhead (by rw [← he]; exact Nat.not_succ_lt_self)
  have hstop : c.next + 1 < cs.length := (List.getElem?_eq_some_iff.mp hlast).1
  have hends : Linked g [cs.length + 1, c.next, c.next + 1] := by
    refine ⟨?_, h.succs_node, isCase_cell h hexit, ?_, isCase_cell h hlast, ?_, trivial⟩
    · rw [isCase, h.kind_node]
    · rw [h.outside c.next _ hexit (.inr (Nat.le_refl _))]
      simp [rename, hne]
    · rw [h.outside (c.next + 1) _ hlast (.inr (Nat.le_succ _))]
      rfl
  have hsize := h.size
  have hnode : cs.length + 1 < g.nodes.size := by
    rw [hsize]
    exact Nat.add_lt_add_left (by decide) _
  have hltnode : c.next + 1 < cs.length + 1 := Nat.lt_succ_of_lt hstop
  have hbounds : ∀ n ∈ [cs.length + 1, c.next, c.next + 1], n < g.nodes.size := by
    intro n hn
    simp only [List.mem_cons, List.not_mem_nil, or_false] at hn
    rcases hn with rfl | rfl | rfl
    · exact hnode
    · exact lt_of_cell h hexit
    · exact lt_of_cell h hlast
  have hnodup : [cs.length + 1, c.next, c.next + 1].Nodup := by
    have hfirst : cs.length + 1 ≠ c.next := Nat.ne_of_gt (Nat.lt_of_succ_lt hltnode)
    have hsecond : cs.length + 1 ≠ c.next + 1 := Nat.ne_of_gt hltnode
    simp only [List.nodup_cons, List.mem_cons, List.not_mem_nil, or_false, not_or]
    exact ⟨⟨hfirst, hsecond⟩, Nat.ne_of_lt (Nat.lt_succ_self _), not_false, List.nodup_nil⟩
  rw [child_root h]
  rcases hopens with ⟨hzero, rfl, -⟩ | ⟨hone, rfl, d, hd, -, hnexts⟩
  · exact ⟨by rw [if_pos hzero]; rfl, hends, hnodup, hbounds⟩
  · have hfirst : (g.node 0).succs = [cs.length + 1] := by
      rw [h.outside 0 d hd (.inl (by rw [hone]; exact Nat.one_pos)), hnexts, hone]
      rfl
    refine ⟨by rw [if_neg (by rw [hone]; exact Nat.one_ne_zero)]; rfl,
      ⟨isCase_cell h hd, hfirst, hends⟩, ?_, fun n hn => ?_⟩
    · refine List.nodup_cons.mpr ⟨fun hmem => ?_, hnodup⟩
      rcases List.mem_cons.mp hmem with he | hmem
      · exact absurd he (Nat.succ_ne_zero _).symm
      · rcases List.mem_cons.mp hmem with he | hmem
        · rw [← he] at hhead
          exact absurd hhead (Nat.not_lt_zero _)
        · exact absurd (List.mem_singleton.mp hmem) (Nat.succ_ne_zero _).symm
    · rcases List.mem_cons.mp hn with rfl | hn
      · exact lt_of_cell h hd
      · exact hbounds n hn

/-- The code before the loop, the loop's statement and the exit. -/
theorem buildStatements_of_loop (hopens : Opens cs c before pre) (hhead : c.head < c.next)
    (hexit : cs[c.next]? = some ⟨[], some exit, [c.next + 1]⟩)
    (hlast : cs[c.next + 1]? = some ⟨[], none, []⟩) (hop : exit.opcode = .exit) {f : Frame}
    {stmt : Stmt} (hpre : executeAll game pre
      { entry := code.name, argumentCount := code.argumentCount } = .ok out f)
    (hloop : ∀ depth, Yields (node ⟨g, game, settings⟩ (depth + 2) (cs.length + 1)) f [stmt]
      { entry := code.name, argumentCount := code.argumentCount }) :
    buildStatements g game settings = .ok (out ++ [stmt, .exit], []) := by
  obtain ⟨hroot, hlinked, hnodup, hlt⟩ := linked_root h hopens hhead hexit hlast
  obtain ⟨blocks, hk⟩ := h.kind_root
  obtain ⟨depth, hdepth⟩ : ∃ depth, depthBound g = depth + 2 := by
    refine ⟨depthBound g - 2, ?_⟩
    have hbound := le_depthBound g
    rw [h.size] at hbound
    omega
  have hstop : Yields (visitAll (node ⟨g, game, settings⟩ (depth + 2)) [c.next, c.next + 1])
      { entry := code.name, argumentCount := code.argumentCount } [.exit]
      { entry := code.name, argumentCount := code.argumentCount } := by
    have hrun : ∀ f : Frame, executeAll game [exit] f = .ok [.exit] f := by
      intro f
      rw [executeAll, Step.execute, hop]
      rfl
    exact (yields_cell h hexit (hrun _)).visitAll_cons
      ((yields_cell h hlast rfl).visitAll_cons (yields_pure [] _))
  have hbody := (hloop depth).visitAll_cons hstop
  refine buildStatements_of_yields h.root hk ?_
  rw [hroot, chain_eq_visitAll hlinked hnodup hlt, hdepth]
  rcases hopens with ⟨-, rfl, rfl⟩ | ⟨-, rfl, d, hd, rfl, -⟩
  · cases hpre
    exact hbody
  · exact (yields_cell h hd hpre).visitAll_cons hbody

end Loops

/-! ## The four loops -/

/-- Some code, a loop with its condition, count or target and its body, and an exit. -/
inductive LoopLayout (pre key body is : List Instr) : LoopKind → Prop
  | whileLoop {test back exit : Instr} (h : Loops.WhileCode pre key body test back exit is) :
      LoopLayout pre key body is .whileLoop
  | doUntil {test exit : Instr} (h : Loops.DoUntilCode pre key body test exit is) :
      LoopLayout pre key body is .doUntil
  | repeatLoop {check lower : List Instr} {skip back drop exit : Instr}
      (h : Loops.RepeatCode pre key check skip body lower back drop exit is) :
      LoopLayout pre key body is .repeatLoop
  | withLoop {enter leave exit : Instr} (h : Loops.WithCode pre key enter body leave exit is) :
      LoopLayout pre key body is .withLoop
  | withExit {enter leave jump drop exit : Instr}
      (h : Loops.WithExitCode pre key enter body leave jump drop exit is) :
      LoopLayout pre key body is .withLoop

/-- The statement of a loop with a condition, a count or a target. -/
def LoopKind.statement (kind : LoopKind) (e : Expr) (body : List Stmt) : Stmt := match kind with
  | .whileLoop => .whileLoop (some e) body false
  | .doUntil => .doUntil body e
  | .repeatLoop => .repeatLoop e body
  | .withLoop => .withLoop e body

/-- Simulated from an empty stack, the code completes statements and leaves values. -/
def Simulates (game : Game) (code : CodeEntry) (is : List Instr) (out : List Stmt)
    (left : List Expr) : Prop :=
  ∃ f, executeAll game is { entry := code.name, argumentCount := code.argumentCount } = .ok out f ∧
    f.stack = left

variable {game : Game} {code : CodeEntry} {pre key body is : List Instr} {out outBody : List Stmt}
  {e : Expr} {left : List Expr}

theorem Simulates.run (h : Simulates game code is out left) (his : ∀ i ∈ is, i.SparesReturn) :
    executeAll game is { entry := code.name, argumentCount := code.argumentCount } =
      .ok out { entry := code.name, argumentCount := code.argumentCount, stack := left } := by
  obtain ⟨f, hrun, hstack⟩ := h
  exact executeAll_frame his ⟨rfl, rfl⟩ hrun hstack

theorem Simulates.ne_nil (h : Simulates game code is out (e :: left)) : is ≠ [] := by
  rintro rfl
  obtain ⟨f, hrun, hstack⟩ := h
  cases hrun
  cases hstack

namespace Loops

theorem opens_lead (pre : List Instr) {c : Candidate} {l : List Cell}
    (hhead : c.head = (lead pre 1).length) : ∃ before, Opens (lead pre 1 ++ l) c before pre := by
  by_cases hpre : pre = []
  · refine ⟨[], .inl ⟨?_, rfl, hpre⟩⟩
    rw [hhead, lead, if_pos hpre]
    rfl
  · refine ⟨[0], .inr ⟨?_, rfl, ⟨pre, none, [1]⟩, ?_, by simp [Cell.instrs], rfl⟩⟩
    · rw [hhead, lead, if_neg hpre]
      rfl
    · rw [lead, if_neg hpre]
      rfl

/-- The blocks of the body of a `with`. -/
theorem threads_lead {first : Cell} {cells : List Cell} :
    Threads (first :: (lead body 2 ++ ⟨[], none, []⟩ :: cells))
      (List.range' 1 ((lead body 2).length + 1)) body := by
  by_cases hbody : body = []
  · subst hbody
    exact threads_single rfl
  · have hlead : lead body 2 = [⟨body, none, [2]⟩] := by rw [lead, if_neg hbody]
    rw [hlead]
    exact ⟨⟨body, none, [2]⟩, [], rfl, rfl, by simp [Cell.instrs], threads_single rfl⟩

end Loops

section

variable (layout : TryCatch.Layout) (settings : Settings) (hcode : code.Single)
  (hord : ∀ i ∈ pre ++ key ++ body, i.Ordinary)
  (hpre : executeAll game pre { entry := code.name, argumentCount := code.argumentCount } =
    .ok out { entry := code.name, argumentCount := code.argumentCount })
  (hkey : executeAll game key { entry := code.name, argumentCount := code.argumentCount } =
    .ok [] { entry := code.name, argumentCount := code.argumentCount, stack := [e] })
  (hbody : executeAll game body { entry := code.name, argumentCount := code.argumentCount } =
    .ok outBody { entry := code.name, argumentCount := code.argumentCount })
include hcode hord hpre hkey hbody

open Build Loops

theorem recovers_while {test back exit : Instr}
    (h : Loops.WhileCode pre key body test back exit code.instrs) :
    ∃ g, analyze code layout = .ok g ∧
      buildStatements g game settings = .ok (out ++ [.whileLoop (some e) outBody false, .exit], []) := by
  obtain ⟨g, info, hrun, hfolded, hkind, hcondition, hstep⟩ := h.analyze_eq hcode hord layout
  obtain ⟨before, hopens⟩ := opens_lead pre (c := WhileCode.candidate pre)
    (l := [⟨key, none, []⟩, ⟨body, none, []⟩, ⟨[], some exit, [(lead pre 1).length + 3]⟩,
      ⟨[], none, []⟩]) rfl
  refine ⟨g, hrun, buildStatements_of_loop hfolded hopens (Nat.lt_add_of_pos_right (by decide))
    (by simp [WhileCode.trimmed, WhileCode.candidate])
    (by simp [WhileCode.trimmed, WhileCode.candidate, Nat.add_assoc]) h.exits hpre fun depth => ?_⟩
  refine yields_while hfolded.kind_node hkind hcondition hstep ?_ ?_
  · rw [child_head hfolded]
    exact yields_threads hfolded [(lead pre 1).length]
      (threads_single (by simp [WhileCode.trimmed]))
      (by simp [WhileCode.candidate]) (List.nodup_singleton _) hkey
  · rw [child_body hfolded]
    exact yields_threads hfolded [(lead pre 1).length + 1]
      (threads_single (by simp [WhileCode.trimmed]))
      (by simp [WhileCode.candidate]) (List.nodup_singleton _) hbody

theorem recovers_doUntil (hne : key ≠ []) {test exit : Instr}
    (h : DoUntilCode pre key body test exit code.instrs) : ∃ g, analyze code layout = .ok g ∧
      buildStatements g game settings = .ok (out ++ [.doUntil outBody e, .exit], []) := by
  obtain ⟨g, info, hrun, hfolded, hkind⟩ := h.analyze_eq hcode hord hne layout
  obtain ⟨before, hopens⟩ := opens_lead pre (c := DoUntilCode.candidate pre)
    (l := [⟨body ++ key, none, []⟩, ⟨[], some exit, [(lead pre 1).length + 2]⟩,
      ⟨[], none, []⟩]) rfl
  refine ⟨g, hrun, buildStatements_of_loop hfolded hopens (Nat.lt_succ_self _)
    (by simp [DoUntilCode.trimmed, DoUntilCode.candidate])
    (by simp [DoUntilCode.trimmed, DoUntilCode.candidate, Nat.add_assoc]) h.exits hpre
    fun depth => yields_doUntil hfolded.kind_node hkind ?_⟩
  rw [child_head hfolded]
  have hboth := executeAll_append_ok hbody hkey
  rw [List.append_nil] at hboth
  exact yields_threads hfolded [(lead pre 1).length]
    (threads_single (by simp [DoUntilCode.trimmed]))
    (by simp [DoUntilCode.candidate]) (List.nodup_singleton _) hboth

theorem recovers_repeat {check lower : List Instr} {skip back drop exit : Instr}
    (h : RepeatCode pre key check skip body lower back drop exit code.instrs) :
    ∃ g, analyze code layout = .ok g ∧
      buildStatements g game settings = .ok (out ++ [.repeatLoop e outBody, .exit], []) := by
  obtain ⟨g, info, hrun, hfolded, hkind⟩ := h.analyze_eq hcode hord layout
  have hboth := executeAll_append_ok hpre hkey
  rw [List.append_nil] at hboth
  refine ⟨g, hrun, buildStatements_of_loop hfolded
    (.inr ⟨rfl, rfl, ⟨pre ++ key, none, [1]⟩, rfl, by simp [Cell.instrs], rfl⟩)
    (Nat.lt_succ_self _) rfl rfl h.exits hboth
    fun depth => yields_repeat (f := { entry := code.name, argumentCount := code.argumentCount })
      hfolded.kind_node hkind ?_⟩
  rw [child_head hfolded]
  exact yields_threads hfolded [1] (threads_single rfl)
    (by simp [RepeatCode.candidate]) (List.nodup_singleton _) hbody

theorem recovers_with {enter leave exit : Instr}
    (h : WithCode pre key enter body leave exit code.instrs) :
    ∃ g, analyze code layout = .ok g ∧
      buildStatements g game settings = .ok (out ++ [.withLoop e outBody, .exit], []) := by
  obtain ⟨g, info, hrun, hfolded, hkind⟩ := h.analyze_eq hcode hord layout
  have hboth := executeAll_append_ok hpre hkey
  rw [List.append_nil] at hboth
  refine ⟨g, hrun, buildStatements_of_loop hfolded
    (.inr ⟨rfl, rfl, ⟨pre ++ key, none, [1]⟩, rfl, by simp [Cell.instrs], rfl⟩)
    (Nat.succ_lt_succ (Nat.succ_pos _)) (by simp [WithCode.trimmed, WithCode.candidate])
    (by simp [WithCode.trimmed, WithCode.candidate]) h.exits hboth
    fun depth => yields_with (f := { entry := code.name, argumentCount := code.argumentCount })
      hfolded.kind_node hkind ?_⟩
  rw [child_head hfolded]
  refine yields_threads hfolded _ threads_lead (fun n hn => ?_) List.nodup_range' hbody
  obtain ⟨hlow, hhigh⟩ := List.mem_range'_1.mp hn
  exact ⟨hlow, Nat.lt_of_lt_of_le hhigh (by simp [WithCode.candidate]; omega)⟩

theorem recovers_withExit {enter leave jump drop exit : Instr}
    (h : WithExitCode pre key enter body leave jump drop exit code.instrs) :
    ∃ g, analyze code layout = .ok g ∧
      buildStatements g game settings = .ok (out ++ [.withLoop e outBody, .exit], []) := by
  obtain ⟨g, info, hrun, hfolded, hkind⟩ := h.analyze_eq hcode hord layout
  have hboth := executeAll_append_ok hpre hkey
  rw [List.append_nil] at hboth
  refine ⟨g, hrun, buildStatements_of_loop hfolded
    (.inr ⟨rfl, rfl, ⟨pre ++ key, none, [1]⟩, rfl, by simp [Cell.instrs], rfl⟩)
    (Nat.succ_lt_succ (Nat.succ_pos _)) (by simp [WithExitCode.trimmed, WithExitCode.candidate])
    (by simp [WithExitCode.trimmed, WithExitCode.candidate]) h.exits hboth
    fun depth => yields_with (f := { entry := code.name, argumentCount := code.argumentCount })
      hfolded.kind_node hkind ?_⟩
  rw [child_head hfolded]
  refine yields_threads hfolded _ threads_lead (fun n hn => ?_) List.nodup_range' hbody
  obtain ⟨hlow, hhigh⟩ := List.mem_range'_1.mp hn
  exact ⟨hlow, Nat.lt_of_lt_of_le hhigh (by simp [WithExitCode.candidate]; omega)⟩

end

/-- A loop in any of the layouts, around any straight-line code that leaves the stack as it was, is
analyzed and built without an error or a warning to the statements before it, the one statement of
the loop, and the exit. -/
theorem buildStatements_loop {kind : LoopKind} (layout : TryCatch.Layout) (settings : Settings)
    (hcode : code.Single) (hlaid : LoopLayout pre key body code.instrs kind)
    (hord : ∀ i ∈ pre ++ key ++ body, i.Ordinary ∧ i.SparesReturn)
    (hpre : Simulates game code pre out []) (hkey : Simulates game code key [] [e])
    (hbody : Simulates game code body outBody []) : ∃ g, analyze code layout = .ok g ∧
      buildStatements g game settings = .ok (out ++ [kind.statement e outBody, .exit], []) := by
  have hflow : ∀ i ∈ pre ++ key ++ body, i.Ordinary := fun i hi => (hord i hi).1
  have hpre := hpre.run fun i hi => (hord i (by simp [hi])).2
  have hne := hkey.ne_nil
  have hkey := hkey.run fun i hi => (hord i (by simp [hi])).2
  have hbody := hbody.run fun i hi => (hord i (by simp [hi])).2
  cases hlaid with
  | whileLoop h => exact recovers_while layout settings hcode hflow hpre hkey hbody h
  | doUntil h => exact recovers_doUntil layout settings hcode hflow hpre hkey hbody hne h
  | repeatLoop h => exact recovers_repeat layout settings hcode hflow hpre hkey hbody h
  | withLoop h => exact recovers_with layout settings hcode hflow hpre hkey hbody h
  | withExit h => exact recovers_withExit layout settings hcode hflow hpre hkey hbody h

/-- `x = 5; while (c) { f(); }`. -/
def whileExample : CodeEntry := .ofInstrs "gml_Script_example" [
  ⟨0, .pushI, none, .int16, .double, .int16 5⟩,
  ⟨4, .pop, none, .var, .int16, .var ⟨"x", -1, .normal⟩⟩,
  ⟨12, .push, none, .var, .double, .var ⟨"c", -1, .normal⟩⟩,
  ⟨20, .conv, none, .var, .bool, .none⟩,
  ⟨24, .bf, none, .double, .double, .branch 20⟩,
  ⟨28, .call, none, .int32, .double, .call "f" 0⟩,
  ⟨36, .popz, none, .var, .double, .none⟩,
  ⟨40, .b, none, .double, .double, .branch (-28)⟩,
  ⟨44, .exit, none, .int32, .double, .none⟩]

theorem buildStatements_loop_whileExample : ∃ g, analyze whileExample .catchFirst = .ok g ∧
    buildStatements g {} {} = .ok ([
      .assign ⟨"x", .scope .own, [], false⟩ (.ofKind (.int16 5 false) .int16) .normal false,
      .whileLoop (some ((Expr.ofVar ⟨"c", .scope .own, [], false⟩).withStackType .bool))
        [.expr (.ofKind (.call "f" []) .var)] false,
      .exit], []) := by
  have hcode : whileExample.Single :=
    ⟨⟨rfl, rfl, rfl, rfl, rfl, rfl, rfl, rfl, rfl, trivial⟩, rfl, rfl⟩
  have hlaid : LoopLayout
      [⟨0, .pushI, none, .int16, .double, .int16 5⟩,
        ⟨4, .pop, none, .var, .int16, .var ⟨"x", -1, .normal⟩⟩]
      [⟨12, .push, none, .var, .double, .var ⟨"c", -1, .normal⟩⟩,
        ⟨20, .conv, none, .var, .bool, .none⟩]
      [⟨28, .call, none, .int32, .double, .call "f" 0⟩, ⟨36, .popz, none, .var, .double, .none⟩]
      whileExample.instrs .whileLoop := .whileLoop ⟨rfl, ⟨rfl, rfl⟩, ⟨rfl, rfl⟩, rfl⟩
  refine buildStatements_loop .catchFirst {} hcode hlaid (fun i hi => ?_) ⟨_, rfl, rfl⟩
    ⟨_, rfl, rfl⟩ ⟨_, rfl, rfl⟩
  simp only [List.cons_append, List.nil_append, List.mem_cons, List.not_mem_nil, or_false] at hi
  rcases hi with rfl | rfl | rfl | rfl | rfl | rfl
  all_goals exact ⟨by decide, fun v hv => by cases hv <;> decide⟩

end GmlLift
