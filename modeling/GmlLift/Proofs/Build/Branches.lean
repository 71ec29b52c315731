import GmlLift.Proofs.Build.Chains
import GmlLift.Proofs.Flow.BranchOutcome

/-! # Building nested conditionals

A conditional whose branches leave the stack as it was is one statement. The chain of nodes that
holds a tree of blocks is built to the statements that the blocks complete. -/
namespace GmlLift

open GmlLift.Graph Step

theorem Graph.lt_size_of_kind {g : Graph} {n : NodeId} (h : (g.node n).kind ≠ .empty) :
    n < g.nodes.size := Nat.lt_of_not_ge fun hge => h (by rw [node_of_size_le hge]; rfl)

namespace Build

variable {ctx : Context} {depth : Nat} {n : NodeId} {f : Frame} {e : Expr}

theorem visitAll_append (visit : NodeId → Builder (List Stmt)) (ns ms : List NodeId) :
    visitAll visit (ns ++ ms) = do
      let out ← visitAll visit ns
      return out ++ (← visitAll visit ms) := by
  induction ns with
  | nil => simp [visitAll]
  | cons n rest ih =>
    simp only [List.cons_append, visitAll, ih, bind_assoc, pure_bind, List.append_assoc]

theorem Yields.append {visit : NodeId → Builder (List Stmt)} {ns ms : List NodeId} {f' f'' : Frame}
    {out out' : List Stmt} (h : Yields (visitAll visit ns) f out f')
    (hrest : Yields (visitAll visit ms) f' out' f'') :
    Yields (visitAll visit (ns ++ ms)) f (out ++ out') f'' := by
  rw [visitAll_append]
  exact h.bind (hrest.bind (yields_pure _ _))

/-- A node without code is a chain of its own, and adds nothing. -/
theorem yields_empty (hk : (ctx.graph.node n).kind = .empty) (hsuccs : (ctx.graph.node n).succs = []) :
    Yields (chain ctx.graph (node ctx (depth + 1)) (some n)) f [] f := by
  have hlinked : Linked ctx.graph [n] := ⟨by rw [isCase, hk], hsuccs, trivial⟩
  have hnode : Yields (node ctx (depth + 1) n) f [] f := by
    rw [node, visit, hk]
    exact yields_pure [] f
  have hchain : chain ctx.graph (node ctx (depth + 1)) (some n) =
      visitAll (node ctx (depth + 1)) [n] :=
    chainFrom_eq_visitAll hlinked (List.nodup_singleton n) (Nat.succ_pos _) fun _ _ h =>
      absurd h List.not_mem_nil
  rw [hchain]
  exact hnode.visitAll_cons (yields_pure [] f)

/-- A conditional whose branches leave no value is a statement. -/
theorem yields_branch (hk : (ctx.graph.node n).kind = .branch) {condition first : NodeId}
    {second : Option NodeId}
    (hchildren : (ctx.graph.node n).children = [some condition, some first, second])
    {before outTrue : List Stmt} {outFalse : Option (List Stmt)}
    (htest : Yields (chain ctx.graph (node ctx depth) (some condition)) f before
      { f with stack := e :: f.stack })
    (htrue : Yields (chain ctx.graph (node ctx depth) (some first)) f outTrue f)
    (hfalse : Yields (optionalBody (chain ctx.graph (node ctx depth)) second) f outFalse f) :
    Yields (node ctx (depth + 1) n) f
      (before ++ [.cond e outTrue (outFalse.filter fun b => !b.isEmpty)]) f := by
  have hslots : child (ctx.graph.node n) Slot.condition = some condition ∧
      child (ctx.graph.node n) Slot.onTrue = some first ∧
      child (ctx.graph.node n) Slot.onFalse = second := by
    simp only [child, hchildren]
    exact ⟨rfl, rfl, by cases second <;> rfl⟩
  -- the first branch leaves the stack as high as it was, so it left no value
  have hheight : (outTrue.isEmpty && f.stack.length == f.stack.length + 1 && second.isSome) =
      false := by
    simp
  rw [node, visit, hk]
  dsimp only
  rw [branch, hslots.1, hslots.2.1, hslots.2.2]
  refine htest.bind ((yields_pop rfl).bind ((yields_height f).bind (htrue.bind
    ((yields_height f).bind ?_))))
  rw [if_neg (by rw [hheight]; exact Bool.false_ne_true)]
  exact hfalse.bind (yields_pure _ _)

end Build

namespace Branch

open Build

/-- On a frame, the blocks of a tree without the jumps of conditionals complete statements. -/
inductive Nest.Executes (game : Game) (f : Frame) : Nest → List Stmt → Prop
  | done : Executes game f .done []
  | last {is : List Instr} {closing : Option Instr} {out : List Stmt}
      (run : executeAll game (is ++ (closing.filter (·.opcode != .b)).toList) f = .ok out f) :
      Executes game f (.last is closing) out
  | cond {is : List Instr} {skip : Instr} {onTrue onFalse rest : Nest} {e : Expr}
      {before outTrue outFalse outRest : List Stmt}
      (test : executeAll game is f = .ok before { f with stack := e :: f.stack })
      (first : Executes game f onTrue outTrue) (second : Executes game f onFalse outFalse)
      (after : Executes game f rest outRest) :
      Executes game f (.cond is skip onTrue onFalse rest)
        (before ++ .cond e outTrue ((some outFalse).filter fun b => !b.isEmpty) :: outRest)

namespace Reads

variable {g : Graph} {out : Option NodeId} {s : Nest} {ns : List NodeId}

theorem eq_done (h : Reads g out s []) : s = .done := by
  cases h
  rfl

theorem lt_size (h : Reads g out s ns) : ∀ n ∈ ns, n < g.nodes.size := by
  induction h with
  | done => exact List.forall_mem_nil _
  | last kind _ =>
    intro n hn
    rw [List.mem_singleton.mp hn]
    exact lt_size_of_kind (by simp [kind])
  | cond kind _ _ _ _ _ _ _ _ _ _ _ _ ih =>
    intro n hn
    rcases List.mem_cons.mp hn with rfl | hn
    · exact lt_size_of_kind (by simp [kind])
    · exact ih n hn

/-- The nodes lead from one to the next, and into a chain that begins where they lead out. -/
theorem linked_append (h : Reads g out s ns) {tail : List NodeId} (hout : tail.head? = out)
    (htail : Linked g tail) : Linked g (ns ++ tail) := by
  induction h with
  | done => exact htail
  | last kind succs => exact ⟨by rw [isCase, kind], by rw [succs, ← hout]; rfl, htail⟩
  | @cond _ _ _ _ _ _ _ _ _ _ _ rs kind succs _ _ _ _ _ _ _ _ _ _ _ ih =>
    refine ⟨by rw [isCase, kind], ?_, ih hout⟩
    have hhead : (rs.head? <|> tail.head?) = (rs ++ tail).head? := by cases rs <;> rfl
    rw [succs, ← hout, hhead]
    rfl

theorem linked (h : Reads g none s ns) : Linked g ns := by
  have hlinked : Linked g (ns ++ []) := h.linked_append rfl trivial
  rwa [List.append_nil] at hlinked

variable {ctx : Context} {depth : Nat} {f : Frame} {stmts : List Stmt}

theorem yields_chain (h : Reads ctx.graph none s ns) (hnodup : ns.Nodup)
    (hall : Yields (visitAll (node ctx depth) ns) f stmts f) :
    Yields (chain ctx.graph (node ctx depth) ns.head?) f stmts f := by
  rwa [chain_eq_visitAll h.linked hnodup h.lt_size]

/-- A first branch is a chain, or a node without code where its tree is empty. -/
theorem yields_first (h : Reads ctx.graph none s ns) (hnodup : ns.Nodup) {first : NodeId}
    (entry : ns.head? = some first ∨ ns = [] ∧ (ctx.graph.node first).kind = .empty ∧
      (ctx.graph.node first).succs = [])
    (hall : Yields (visitAll (node ctx (depth + 1)) ns) f stmts f) (hs : s = .done → stmts = []) :
    Yields (chain ctx.graph (node ctx (depth + 1)) (some first)) f stmts f := by
  rcases entry with hfirst | ⟨rfl, hempty, hsuccs⟩
  · rw [← hfirst]
    exact h.yields_chain hnodup hall
  · rw [hs h.eq_done]
    exact yields_empty hempty hsuccs

/-- A second branch is a chain, or there is none where its tree is empty. -/
theorem yields_second (h : Reads ctx.graph none s ns) (hnodup : ns.Nodup)
    (hall : Yields (visitAll (node ctx depth) ns) f stmts f) (hs : s = .done → stmts = []) :
    ∃ outFalse : Option (List Stmt),
      Yields (optionalBody (chain ctx.graph (node ctx depth)) ns.head?) f outFalse f ∧
        (outFalse.filter fun b => !b.isEmpty) = (some stmts).filter fun b => !b.isEmpty := by
  have hchain := h.yields_chain hnodup hall
  cases ns with
  | nil =>
    refine ⟨none, yields_pure none f, ?_⟩
    rw [hs h.eq_done]
    rfl
  | cons n rest => exact ⟨some stmts, yields_optionalBody hchain, rfl⟩

/-- The chain is built to the statements that the blocks of the tree complete. -/
theorem yields (h : Reads ctx.graph out s ns) (hs : s.Executes ctx.game f stmts)
    (hdepth : s.count < depth) : Yields (visitAll (node ctx depth) ns) f stmts f := by
  have hdone : ∀ {s stmts}, Nest.Executes ctx.game f s stmts → s = .done → stmts = [] := by
    rintro _ _ h rfl
    cases h
    rfl
  induction h generalizing stmts depth with
  | done =>
    rw [hdone hs rfl]
    exact yields_pure [] f
  | @last _ is closing n kind _ =>
    obtain ⟨depth, rfl⟩ : ∃ k, depth = k + 1 := ⟨depth - 1, by omega⟩
    cases hs with
    | last run =>
      have hnode : Yields (node ctx (depth + 1) n) f stmts f := yields_block kind run
      rw [← List.append_nil stmts]
      exact hnode.visitAll_cons (yields_pure [] f)
  | @cond _ is skip onTrue onFalse rest n condition first ts fs rs kind _ children test testSuccs
      entry nodupTrue nodupFalse readsTrue readsFalse _ ihTrue ihFalse ihRest =>
    rw [Nest.count] at hdepth
    obtain ⟨depth, rfl⟩ : ∃ k, depth = k + 2 := ⟨depth - 2, by omega⟩
    cases hs with
    | @cond _ _ _ _ _ e before outTrue outFalse outRest hrun htrue hfalse hrest =>
      have hcondition : Yields (chain ctx.graph (node ctx (depth + 1)) (some condition)) f before
          { f with stack := e :: f.stack } := yields_lone ctx test testSuccs
            (lt_size_of_kind (by simp [test])) hrun
      have hfirst : Yields (chain ctx.graph (node ctx (depth + 1)) (some first)) f outTrue f :=
        readsTrue.yields_first nodupTrue entry (ihTrue htrue (by omega)) (hdone htrue)
      have hother : Yields (visitAll (node ctx (depth + 1)) fs) f outFalse f :=
        ihFalse hfalse (by omega)
      obtain ⟨second, hsecond, hfilter⟩ := readsFalse.yields_second nodupFalse hother (hdone hfalse)
      have hnode := yields_branch kind children hcondition hfirst hsecond
      rw [hfilter] at hnode
      have hall := hnode.visitAll_cons (ihRest hrest (by omega))
      rw [List.append_assoc] at hall
      exact hall

end Reads

variable {s : Nest} {code : CodeEntry} {game : Game} {out : List Stmt}

/-- Code that an `exit` ends is analyzed and built without an error or a warning to the statements
that the blocks of its tree complete. -/
theorem NestCode.exists_built (h : NestCode s code) (settings : Settings)
    (hs : s.Executes game { entry := code.name, argumentCount := code.argumentCount } out) :
    ∃ g, (∀ layout, analyze code layout = .ok g) ∧ buildStatements g game settings = .ok (out, []) := by
  obtain ⟨g, ns, hanalyze, hroot, hface, hreads, hnodup, hend, hkind, hsuccs⟩ := h.exists_analyzed
  have htop : (g.node (s.count + 1)).kind =
      .fragment code.name code.argumentCount (List.range (s.count + 1)) := by
    rw [← kind_face, hface]
    rfl
  have hchild : child (g.node (s.count + 1)) Slot.head = (ns ++ [s.count]).head? := by
    obtain ⟨exit, hfinal, -⟩ := h.exits
    rw [child, ← children_face, hface]
    cases ns with
    | nil =>
      rw [hreads.eq_done] at hfinal
      cases hfinal
    | cons n rest => rfl
  have hsize : s.count + 1 < g.nodes.size := lt_size_of_kind (by simp [htop])
  have hdepth : s.count < depthBound g := by
    have hbound := le_depthBound g
    omega
  have hlinked : Linked g (ns ++ [s.count]) :=
    hreads.linked_append rfl ⟨by rw [isCase, hkind], hsuccs, trivial⟩
  have hdistinct : (ns ++ [s.count]).Nodup :=
    List.nodup_append.mpr ⟨hnodup, List.nodup_singleton _, fun n hn m hm he => hend (by
      rwa [← List.mem_singleton.mp hm, ← he])⟩
  have hlast : Yields (node ⟨g, game, settings⟩ (depthBound g) s.count)
      { entry := code.name, argumentCount := code.argumentCount } []
      { entry := code.name, argumentCount := code.argumentCount } := by
    obtain ⟨depth, hd⟩ : ∃ k, depthBound g = k + 1 := ⟨depthBound g - 1, by omega⟩
    rw [hd]
    exact yields_block hkind rfl
  refine ⟨g, hanalyze, buildStatements_of_yields hroot htop ?_⟩
  rw [hchild, chain_eq_visitAll hlinked hdistinct fun n hn => ?_]
  · have hbody : Yields (visitAll (node ⟨g, game, settings⟩ (depthBound g)) ns) _ out _ :=
      hreads.yields hs hdepth
    rw [← List.append_nil out]
    exact hbody.append (hlast.visitAll_cons (yields_pure [] _))
  · rcases List.mem_append.mp hn with hn | hn
    · exact hreads.lt_size n hn
    · rw [List.mem_singleton.mp hn]
      exact Nat.lt_of_succ_lt hsize

end Branch

end GmlLift
