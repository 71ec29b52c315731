import GmlLift.Build
import GmlLift.Flow.Analyze
import GmlLift.Proofs.Flow.Outcome

/-! # What building executes

Building follows edges and slots of the structured graph; values on the stack decide what statements
come out, but never where a chain goes. The nodes that are visited, and with them the code that is
executed, can therefore be read off the graph. -/
namespace GmlLift

/-- The code that a visit of a node executes itself. -/
def Node.runs (n : Node) : List Instr := match n.kind with
  | .block is => is
  | .switch values => values.flatten
  | _ => []

namespace Visits

open Build

/-- The nodes that are visited below a node, given those on the chain from each child. -/
def below (g : Graph) (chain : Option NodeId → List NodeId) (n : Node) : List NodeId :=
  match n.kind with
  | .fragment .. | .staticInit | .nullish => chain (child n Slot.head)
  | .loop info => chain (child n Slot.loopHead) ++
      if info.kind = .whileLoop ∧ info.hasCondition then chain (child n Slot.loopBody) else []
  | .branch => chain (child n Slot.condition) ++
      (chain (child n Slot.onTrue) ++ chain (child n Slot.onFalse))
  | .shortCircuit _ => (n.children.filterMap id).flatMap fun c => chain (some c)
  | .tryCatch _ => chain (child n Slot.tryBody) ++
      (chain (child n Slot.catchBody) ++ chain (child n Slot.finallyBody))
  | .switch _ => (n.children.filterMap id).flatMap fun marker => chain (g.node marker).succs.head?
  | .block _ | .switchCase _ | .breakJump | .continueJump | .empty => []

/-- The nodes on a chain, each followed by those below it. -/
def chainFrom (g : Graph) (visit : NodeId → List NodeId) :
    (fuel : Nat) → (seen : List NodeId) → Option NodeId → List NodeId
  | 0, _, _ => []
  | _ + 1, _, none => []
  | fuel + 1, seen, some n =>
    if seen.contains n || isCase (g.node n) then []
    else visit n ++ match next g n with
      | .ok following => chainFrom g visit fuel (n :: seen) following
      | .error _ => []

def chain (g : Graph) (visit : NodeId → List NodeId) (start : Option NodeId) : List NodeId :=
  chainFrom g visit (g.nodes.size + 1) [] start

/-- A node and the nodes below it. -/
def node (g : Graph) : (fuel : Nat) → NodeId → List NodeId
  | 0, _ => []
  | fuel + 1, n => n :: below g (chain g (node g fuel)) (g.node n)

end Visits

/-- The code that visits of nodes execute. -/
def Graph.codeOf (g : Graph) (ns : List NodeId) : List Instr := ns.flatMap fun n => (g.node n).runs

/-- The nodes that building a graph visits, in order and as often as it does. -/
def Graph.visits (g : Graph) : List NodeId := match g.root? with
  | none => []
  | some root =>
    Visits.chain g (Visits.node g (Build.depthBound g)) (Build.child (g.node root) Slot.head)

@[simp] theorem Graph.codeOf_nil (g : Graph) : g.codeOf [] = [] := rfl

@[simp] theorem Graph.codeOf_cons (g : Graph) (n : NodeId) (ns : List NodeId) :
    g.codeOf (n :: ns) = (g.node n).runs ++ g.codeOf ns := List.flatMap_cons

@[simp] theorem Graph.codeOf_append (g : Graph) (ms ns : List NodeId) :
    g.codeOf (ms ++ ns) = g.codeOf ms ++ g.codeOf ns := List.flatMap_append

namespace Build

variable {α β : Type} {is js : List Instr}

theorem ok_of_bind_run {b : Builder α} {f : α → Builder β} {s s' : State} {c : β}
    (h : (b >>= f) s = .ok (c, s')) : ∃ a s₁, b s = .ok (a, s₁) ∧ f a s₁ = .ok (c, s') := by
  obtain ⟨⟨a, s₁⟩, h₁, h₂⟩ := ok_of_bind h
  exact ⟨a, s₁, h₁, h₂⟩

/-- Whenever a builder returns, it has executed exactly the given code. -/
def Executes (b : Builder α) (is : List Instr) : Prop :=
  ∀ s a s', b s = .ok (a, s') → s'.executed = s.executed ++ is

theorem executes_pure (a : α) : Executes (pure a) [] := by
  intro s a' s' h
  cases h
  exact (List.append_nil _).symm

theorem executes_throw (e : BuildError) (is : List Instr) :
    Executes (throw e : Builder α) is := by
  intro s a s' h
  cases h

theorem Executes.bind {b : Builder α} {f : α → Builder β} (hb : Executes b is)
    (hf : ∀ a, Executes (f a) js) : Executes (b >>= f) (is ++ js) := by
  intro s c s' h
  obtain ⟨a, s₁, h₁, h₂⟩ := ok_of_bind_run h
  rw [hf a s₁ c s' h₂, hb s a s₁ h₁, List.append_assoc]

/-- Steps before and after that execute nothing. -/
theorem Executes.after {b : Builder α} {f : α → Builder β} (hb : Executes b [])
    (hf : ∀ a, Executes (f a) is) : Executes (b >>= f) is := hb.bind hf

theorem Executes.before {b : Builder α} {f : α → Builder β} (hb : Executes b is)
    (hf : ∀ a, Executes (f a) []) : Executes (b >>= f) is := by
  have h := hb.bind hf
  rwa [List.append_nil] at h

theorem executes_lift_bind {x : Except BuildError α} {f : α → Builder β}
    (hf : ∀ a, x = .ok a → Executes (f a) is) : Executes (StateT.lift x >>= f) is := by
  intro s c s' h
  obtain ⟨a, s₁, h₁, h₂⟩ := ok_of_bind_run h
  obtain ⟨b, hx, hb⟩ := ok_of_bind h₁
  cases hb
  exact hf a hx s c s' h₂

theorem executes_modify {f : State → State} (hf : ∀ s, (f s).executed = s.executed) :
    Executes (modify f) [] := by
  intro s a s' h
  cases h
  rw [List.append_nil]
  exact hf s

theorem executes_get : Executes (get : Builder State) [] := by
  intro s a s' h
  cases h
  exact (List.append_nil _).symm

theorem executes_onFrame (step : Step α) : Executes (onFrame step) [] := by
  intro s a s' h
  unfold onFrame at h
  split at h
  · cases h
    exact (List.append_nil _).symm
  · cases h

theorem executes_execute (game : Game) (is : List Instr) : Executes (execute game is) is := by
  intro s out s' h
  obtain ⟨out', s₁, h₁, h₂⟩ := ok_of_bind_run h
  have hs := executes_onFrame _ s out' s₁ h₁
  rw [List.append_nil] at hs
  cases h₂
  dsimp only
  rw [hs]

theorem executes_pop (address : Nat) (what : String) : Executes (pop address what) [] := by
  intro s a s' h
  unfold pop at h
  obtain ⟨s₀, s₁, h₁, h₂⟩ := ok_of_bind_run h
  cases h₁
  cases hstack : s.frame.stack with
  | nil =>
    simp only [hstack] at h₂
    cases h₂
  | cons e rest =>
    simp only [hstack] at h₂
    cases h₂
    exact (List.append_nil _).symm

theorem executes_push (e : Expr) : Executes (push e) [] := executes_onFrame _

theorem executes_height : Executes height [] := executes_get.after fun _ => executes_pure _

theorem executes_finish (settings : Settings) : Executes (finish settings) [] := by
  intro s a s' h
  unfold finish at h
  obtain ⟨s₀, s₁, h₁, h₂⟩ := ok_of_bind_run h
  cases h₁
  dsimp only at h₂
  split at h₂
  · cases h₂
    exact (List.append_nil _).symm
  · split at h₂
    · cases h₂
      exact (List.append_nil _).symm
    · cases h₂

theorem Executes.inFrame {b : Builder α} (h : Executes b is) (frame : Frame) :
    Executes (inFrame frame b) is := by
  refine executes_get.after fun outer => ?_
  refine Executes.after (executes_modify ?_) fun _ => h.before fun a => ?_
  · intro s; rfl
  · refine Executes.after (executes_modify ?_) fun _ => executes_pure a
    intro s; rfl

theorem Executes.withEmptyStack {b : Builder α} (h : Executes b is) :
    Executes (withEmptyStack b) is := by
  refine executes_get.after fun s => h.before fun a => ?_
  refine Executes.after (executes_modify ?_) fun _ => executes_pure a
  intro s; rfl

theorem executes_caseValues (ctx : Context) (address : Nat) (values : List (List Instr)) :
    Executes (caseValues ctx address values) values.flatten := by
  induction values with
  | nil => exact executes_pure _
  | cons is rest ih =>
    refine Executes.after (executes_modify ?_) fun _ => ?_
    · intro s; rfl
    refine (executes_execute ctx.game is).bind fun _ => (executes_pop address _).after fun _ => ?_
    exact ih.before fun _ => executes_pure _

section

variable {ctx : Context} {chain : Option NodeId → Builder (List Stmt)}
  {path : Option NodeId → List NodeId}
  (hchain : ∀ start, Executes (chain start) (ctx.graph.codeOf (path start)))
include hchain

theorem executes_function (n : Node) (entry : String) (argumentCount : Nat) :
    Executes (function ctx chain n entry argumentCount)
      (ctx.graph.codeOf (path (child n Slot.head))) := by
  refine Executes.inFrame ((hchain _).before fun _ => ?_) _
  exact (executes_finish _).after fun _ => executes_pure _

theorem executes_loop {n : Node} {info : LoopInfo} (hn : n.kind = .loop info) :
    Executes (loop chain n info) (ctx.graph.codeOf (Visits.below ctx.graph path n)) := by
  unfold loop Visits.below
  simp only [hn]
  cases hk : info.kind with
  | whileLoop =>
    cases hc : info.hasCondition with
    | true =>
      simp only [and_self, if_true, Graph.codeOf_append]
      refine (hchain _).bind fun _ => (executes_pop _ _).after fun _ => ?_
      exact (hchain _).before fun _ => executes_pure _
    | false =>
      simp only [Bool.false_eq_true, and_false, if_false, List.append_nil]
      exact (hchain _).before fun _ => executes_pure _
  | doUntil =>
    simp only [reduceCtorEq, false_and, if_false, List.append_nil]
    refine (hchain _).before fun _ => ?_
    exact (executes_pop _ _).after fun _ => executes_pure _
  | repeatLoop | withLoop =>
    simp only [reduceCtorEq, false_and, if_false, List.append_nil]
    refine (executes_pop _ _).after fun _ => ?_
    exact (hchain _).before fun _ => executes_pure _

theorem executes_operands (address : Nat) (ns : List NodeId) :
    Executes (operands chain address ns)
      (ctx.graph.codeOf (ns.flatMap fun c => path (some c))) := by
  induction ns with
  | nil => exact executes_pure _
  | cons c rest ih =>
    rw [List.flatMap_cons, Graph.codeOf_append]
    refine (hchain _).bind fun _ => (executes_pop _ _).after fun _ => ?_
    exact ih.before fun _ => executes_pure _

theorem executes_cases (address : Nat) (values : List Expr) (ns : List NodeId) :
    Executes (cases ctx chain address values ns)
      (ctx.graph.codeOf (ns.flatMap fun m => path (ctx.graph.node m).succs.head?)) := by
  induction ns with
  | nil => exact executes_pure _
  | cons m rest ih =>
    rw [List.flatMap_cons, Graph.codeOf_append]
    unfold cases
    dsimp only
    split
    · refine executes_lift_bind fun _ _ => (hchain _).bind fun _ => ?_
      exact ih.before fun _ => executes_pure _
    · exact executes_throw _ _

theorem executes_optionalBody (hnone : path none = []) (head : Option NodeId) :
    Executes (optionalBody chain head) (ctx.graph.codeOf (path head)) := by
  cases head with
  | none => rw [hnone]; exact executes_pure _
  | some head => exact (hchain _).before fun _ => executes_pure _

theorem executes_branch (hnone : path none = []) {n : Node} (hn : n.kind = .branch) :
    Executes (branch chain n) (ctx.graph.codeOf (Visits.below ctx.graph path n)) := by
  unfold Visits.below
  rw [hn]
  dsimp only
  rw [Graph.codeOf_append, Graph.codeOf_append]
  refine (hchain _).bind fun before => (executes_pop _ _).after fun condition => ?_
  refine executes_height.after fun depth => (hchain _).bind fun thenBody => ?_
  refine executes_height.after fun depth' => ?_
  split
  · refine (executes_pop _ _).after fun onTrue => (hchain _).before fun elseBody => ?_
    refine executes_height.after fun depth'' => ?_
    split
    · exact executes_throw _ _
    · refine (executes_pop _ _).after fun onFalse => ?_
      exact (executes_push _).after fun _ => executes_pure _
  · exact (executes_optionalBody hchain hnone _).before fun _ => executes_pure _

/-- A visit executes the code of the node and then that of the nodes below. -/
theorem executes_visit (hnone : path none = []) (n : Node) :
    Executes (visit ctx chain n)
      (n.runs ++ ctx.graph.codeOf (Visits.below ctx.graph path n)) := by
  unfold visit Node.runs
  cases hn : n.kind with
  | block is =>
    rw [Visits.below, hn]
    simp only [Graph.codeOf_nil, List.append_nil]
    exact executes_execute ctx.game is
  | fragment entry argumentCount blocks =>
    rw [Visits.below, hn]
    refine (executes_function hchain n entry argumentCount).before fun _ => ?_
    exact (executes_onFrame _).after fun _ => executes_pure _
  | loop info => exact executes_loop hchain hn
  | branch => exact executes_branch hchain hnone hn
  | shortCircuit op =>
    rw [Visits.below, hn]
    refine (executes_operands hchain n.start _).before fun _ => ?_
    exact (executes_push _).after fun _ => executes_pure _
  | staticInit =>
    rw [Visits.below, hn]
    exact (hchain _).before fun _ => executes_pure _
  | nullish =>
    rw [Visits.below, hn]
    refine (executes_pop _ _).after fun _ => (hchain _).before fun _ => ?_
    refine (executes_pop _ _).after fun _ => ?_
    exact (executes_push _).after fun _ => executes_pure _
  | tryCatch name =>
    rw [Visits.below, hn]
    simp only [List.nil_append, Graph.codeOf_append]
    refine (hchain _).bind fun _ => (executes_optionalBody hchain hnone _).bind fun _ => ?_
    exact (executes_optionalBody hchain hnone _).before fun _ => executes_pure _
  | switch values =>
    rw [Visits.below, hn]
    refine (executes_pop _ _).after fun _ => ?_
    refine (executes_caseValues ctx n.start values).withEmptyStack.bind fun _ => ?_
    exact (executes_cases hchain n.start _ _).before fun _ => executes_pure _
  | breakJump | continueJump | switchCase _ | empty =>
    rw [Visits.below, hn]
    exact executes_pure _

end

/-- A chain executes the code of the nodes on it, one after the other. -/
theorem executes_chainFrom {g : Graph} {visit : NodeId → Builder (List Stmt)}
    {path : NodeId → List NodeId} (hvisit : ∀ n, Executes (visit n) (g.codeOf (path n)))
    (fuel : Nat) (seen : List NodeId) (start : Option NodeId) :
    Executes (chainFrom g visit fuel seen start)
      (g.codeOf (Visits.chainFrom g path fuel seen start)) := by
  induction fuel generalizing seen start with
  | zero => exact executes_pure _
  | succ fuel ih =>
    cases start with
    | none => exact executes_pure _
    | some n =>
      unfold chainFrom Visits.chainFrom
      split
      · exact executes_pure _
      · rw [Graph.codeOf_append]
        refine (hvisit n).bind fun out => ?_
        refine executes_lift_bind fun following hnext => ?_
        rw [hnext]
        exact (ih (n :: seen) following).before fun _ => executes_pure _

theorem executes_node (ctx : Context) (fuel : Nat) (n : NodeId) :
    Executes (node ctx fuel n) (ctx.graph.codeOf (Visits.node ctx.graph fuel n)) := by
  induction fuel generalizing n with
  | zero => exact executes_throw _ _
  | succ fuel ih =>
    rw [Visits.node, Graph.codeOf_cons]
    exact executes_visit (executes_chainFrom ih _ _) rfl (ctx.graph.node n)

/-- Building executes the code of the nodes that are visited and no other. -/
theorem executed_root {g : Graph} {game : Game} {settings : Settings} {body : List Stmt} {s : State}
    (h : root g game settings = .ok (body, s)) : s.executed = g.codeOf g.visits := by
  unfold root at h
  split at h
  · cases h
  · rename_i root hroot
    dsimp only at h
    split at h
    · rename_i entry argumentCount _ _
      rw [Graph.visits, hroot]
      have hchain := executes_chainFrom (executes_node ⟨g, game, settings⟩ (depthBound g))
        (g.nodes.size + 1) [] (child (g.node root) Slot.head)
      refine (hchain.before fun body => ?_) _ _ _ h
      exact (executes_finish settings).after fun _ => executes_pure body
    · cases h

end Build

/-! ## Statements lost and repeated -/

/-- The instructions that complete a statement: stores, dropped values and ways out. -/
def Instr.endsStatement (i : Instr) : Bool := match i.opcode with
  | .pop => i.var?.isSome
  | .popz | .ret | .exit => true
  | .extended => i.extended == some .popFinal
  | _ => false

namespace Graph

/-- Every instruction of a block that completes a statement was executed exactly once. -/
def EachOnce (g : Graph) (executed : List Instr) : Prop :=
  ∀ b ∈ g.blocks, ∀ i ∈ g.instrs b, i.endsStatement = true → executed.count i = 1

instance (g : Graph) (executed : List Instr) : Decidable (g.EachOnce executed) :=
  inferInstanceAs (Decidable (∀ b ∈ g.blocks, ∀ i ∈ g.instrs b, _ → _))

/-- One node alone is visited that runs the instruction, once, and it is visited once. -/
def OnOnePath (g : Graph) (i : Instr) : Prop :=
  ∃ n, g.visits.count n = 1 ∧ (g.node n).runs.count i = 1 ∧
    ∀ m ∈ g.visits, i ∈ (g.node m).runs → m = n

/-- An instruction that occurs once in the code of some nodes stands in one of them alone. -/
theorem count_codeOf_eq_one_iff (g : Graph) (i : Instr) (ns : List NodeId) :
    (g.codeOf ns).count i = 1 ↔ ∃ n, ns.count n = 1 ∧ (g.node n).runs.count i = 1 ∧
      ∀ m ∈ ns, i ∈ (g.node m).runs → m = n := by
  induction ns with
  | nil => simp
  | cons a ns ih =>
    rw [codeOf_cons, List.count_append]
    by_cases ha : i ∈ (g.node a).runs
    · have hpos := List.count_pos_iff.mpr ha
      constructor
      · intro h
        have hzero : (g.codeOf ns).count i = 0 := by omega
        have hrest : ∀ m ∈ ns, i ∉ (g.node m).runs := fun m hm hi =>
          List.count_eq_zero.mp hzero (List.mem_flatMap.mpr ⟨m, hm, hi⟩)
        refine ⟨a, ?_, by omega, fun m hm hi => ?_⟩
        · rw [List.count_cons_self, List.count_eq_zero.mpr fun hm => hrest a hm ha]
        · rcases List.mem_cons.mp hm with rfl | hm
          · rfl
          · exact absurd hi (hrest m hm)
      · rintro ⟨n, hn, hruns, honly⟩
        obtain rfl := honly a (by simp) ha
        rw [List.count_cons_self] at hn
        have hout : a ∉ ns := List.count_eq_zero.mp (by omega)
        have hzero : (g.codeOf ns).count i = 0 := List.count_eq_zero.mpr fun hi => by
          obtain ⟨m, hm, hi⟩ := List.mem_flatMap.mp hi
          exact hout (honly m (List.mem_cons_of_mem _ hm) hi ▸ hm)
        omega
    · rw [List.count_eq_zero.mpr ha, Nat.zero_add, ih]
      -- the node in front does not run the instruction, so it is not the one
      have hne : ∀ n, (g.node n).runs.count i = 1 → a ≠ n := fun n hn he =>
        ha (List.count_pos_iff.mp (by rw [he, hn]; exact Nat.one_pos))
      constructor
      · rintro ⟨n, hn, hruns, honly⟩
        refine ⟨n, by rw [List.count_cons_of_ne (hne n hruns), hn], hruns, fun m hm hi => ?_⟩
        rcases List.mem_cons.mp hm with rfl | hm
        · exact absurd hi ha
        · exact honly m hm hi
      · rintro ⟨n, hn, hruns, honly⟩
        rw [List.count_cons_of_ne (hne n hruns)] at hn
        exact ⟨n, hn, hruns, fun m hm => honly m (List.mem_cons_of_mem _ hm)⟩

end Graph

/-- Whether each statement is executed once is decided by the graph, be it made from an entry or not:
it is if and only if building comes to its last instruction on one path and once. -/
theorem eachOnce_executed_iff {game : Game} {settings : Settings} {g : Graph}
    {body : List Stmt} {s : Build.State} (h : Build.root g game settings = .ok (body, s)) :
    g.EachOnce s.executed ↔
      ∀ b ∈ g.blocks, ∀ i ∈ g.instrs b, i.endsStatement = true → g.OnOnePath i := by
  rw [Graph.EachOnce, Build.executed_root h]
  simp only [Graph.count_codeOf_eq_one_iff, Graph.OnOnePath]

/-- A conditional with a call in each branch. -/
def twoCalls : CodeEntry := .ofInstrs "two_calls"
  [⟨0, .push, none, .var, .var, .var ⟨"a", -1, .normal⟩⟩, ⟨8, .conv, none, .var, .bool, .none⟩,
    ⟨12, .bf, none, .int32, .int32, .branch 20⟩, ⟨16, .call, none, .int32, .int32, .call "f" 0⟩,
    ⟨24, .popz, none, .var, .var, .none⟩, ⟨28, .b, none, .int32, .int32, .branch 16⟩,
    ⟨32, .call, none, .int32, .int32, .call "g" 0⟩, ⟨40, .popz, none, .var, .var, .none⟩,
    ⟨44, .exit, none, .int32, .int32, .none⟩]

theorem eachOnce_executed_twoCalls : ∃ g body s,
    analyze twoCalls (Game.handlerLayout {}) = .ok g ∧ Build.root g {} {} = .ok (body, s) ∧
      s.executed.map Instr.address = [0, 8, 16, 24, 32, 40, 44] ∧
      ∀ b ∈ g.blocks, ∀ i ∈ g.instrs b, i.endsStatement = true → g.OnOnePath i := by
  have hrun : ((analyze twoCalls (Game.handlerLayout {})).toOption.any fun g =>
      (Build.root g {} {}).toOption.any fun r =>
        decide (r.2.executed.map Instr.address = [0, 8, 16, 24, 32, 40, 44] ∧
          g.EachOnce r.2.executed)) = true := by decide +kernel
  obtain ⟨g, hg, hrun⟩ := ok_of_any hrun
  obtain ⟨⟨body, s⟩, hs, hrun⟩ := ok_of_any hrun
  obtain ⟨haddresses, honce⟩ := of_decide_eq_true hrun
  exact ⟨g, body, s, hg, hs, haddresses, (eachOnce_executed_iff hs).mp honce⟩

/-- A loop with a call that nothing leads to after a `continue`. -/
def deadCall : CodeEntry := .ofInstrs "dead_call"
  [⟨0, .push, none, .var, .var, .var ⟨"a", -1, .normal⟩⟩, ⟨8, .conv, none, .var, .bool, .none⟩,
    ⟨12, .bf, none, .int32, .int32, .branch 20⟩, ⟨16, .b, none, .int32, .int32, .branch (-16)⟩,
    ⟨20, .call, none, .int32, .int32, .call "f" 0⟩, ⟨28, .popz, none, .var, .var, .none⟩,
    ⟨32, .call, none, .int32, .int32, .call "g" 0⟩, ⟨40, .popz, none, .var, .var, .none⟩,
    ⟨44, .b, none, .int32, .int32, .branch (-44)⟩, ⟨48, .exit, none, .int32, .int32, .none⟩]

/-- The jump node of the `continue` takes the place of the edge that kept the call on a path. -/
theorem not_eachOnce_deadCall : ∃ g body s,
    analyze deadCall (Game.handlerLayout {}) = .ok g ∧ Build.root g {} {} = .ok (body, s) ∧
      ¬ g.EachOnce s.executed := by
  have hrun : ((analyze deadCall (Game.handlerLayout {})).toOption.any fun g =>
      (Build.root g {} {}).toOption.any fun r => decide (¬ g.EachOnce r.2.executed)) = true := by
    decide +kernel
  obtain ⟨g, hg, hrun⟩ := ok_of_any hrun
  obtain ⟨⟨body, s⟩, hs, hrun⟩ := ok_of_any hrun
  exact ⟨g, body, s, hg, hs, of_decide_eq_true hrun⟩

end GmlLift
