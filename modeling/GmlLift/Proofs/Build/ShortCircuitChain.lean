import GmlLift.Proofs.Build.LoopLayouts
import GmlLift.Proofs.Flow.ShortCircuitChain

/-! # Short-circuit chains are recovered

Operands that each leave one value, laid out as a chain whose result is stored, are built to one
assignment of one expression that holds them all in order, however many there are. -/
namespace GmlLift

open GmlLift.Graph Step

namespace Build

variable {ctx : Context} {depth : Nat} {n : NodeId} {f : Frame} {op : Logic}
  {cs : List NodeId} {es : List Expr}

/-- The operands of a chain are built in order. -/
theorem yields_operands {chain : Option NodeId → Builder (List Stmt)} (address : Nat)
    (h : List.Forall₂ (fun c e => Yields (chain (some c)) f [] { f with stack := e :: f.stack })
      cs es) : Yields (operands chain address cs) f ([], es) f := by
  induction h with
  | nil => exact yields_pure _ _
  | cons hfirst _ ih =>
    exact hfirst.bind ((yields_pop rfl).bind (ih.bind (yields_pure _ _)))

/-- A chain of operands that each leave a value leaves one value. -/
theorem yields_shortCircuit (hk : (ctx.graph.node n).kind = .shortCircuit op)
    (hchildren : (ctx.graph.node n).children = cs.map some)
    (h : List.Forall₂ (fun c e => Yields (chain ctx.graph (node ctx depth) (some c)) f []
      { f with stack := e :: f.stack }) cs es) : Yields (node ctx (depth + 1) n) f []
      { f with stack := .ofKind (.logic op es) .bool :: f.stack } := by
  have hcs : (ctx.graph.node n).children.filterMap id = cs := by
    rw [hchildren]
    simp
  have hpush : Yields (push (.ofKind (.logic op es) .bool)) f ⟨⟩
      { f with stack := .ofKind (.logic op es) .bool :: f.stack } := yields_onFrame rfl
  rw [node, visit, hk]
  dsimp only
  rw [hcs]
  exact (yields_operands _ h).bind (hpush.bind (yields_pure _ _))

end Build

/-! ## The store of the result -/

/-- A value whose kind a store only passes on is assigned as it is. -/
theorem Step.execute_storeLogic {game : Game} {store : Instr} {x : String} {op : Logic}
    {es : List Expr} {f : Frame} (hop : store.opcode = .pop) (htype : store.type1 ≠ .int32)
    (hvar : store.operand = .var ⟨x, -1, .normal⟩) (hx : x ≠ returnTemp) :
    execute game store { f with stack := .ofKind (.logic op es) .bool :: f.stack } =
      .ok [.assign ⟨x, .scope .own, [], false⟩ (.ofKind (.logic op es) .bool) .normal false] f := by
  obtain ⟨entry, argumentCount, stack, functions, returnValue⟩ := f
  unfold execute Step.store
  rw [hop, hvar]
  simp only [if_neg htype, if_neg hx]
  rfl

namespace ShortCircuit

open Build

variable {op : Logic} {terms : List Term} {last : List Instr} {skip result store exit : Instr}
  {code : CodeEntry} {g : Graph} {game : Game} {settings : Settings} {es : List Expr}

/-- An operand is a chain of its own. -/
theorem yields_operand (h : Chained op terms last store exit code g) {depth j : Nat}
    {is : List Instr} {f f' : Frame} (hj : (terms.map Term.operand ++ [last])[j]? = some is)
    (hrun : executeAll game is f = .ok [] f') :
    Yields (chain g (node ⟨g, game, settings⟩ (depth + 1)) (some j)) f [] f' := by
  obtain ⟨hkind, hsuccs⟩ := h.operand j is hj
  have hlt : j < (terms.map Term.operand ++ [last]).length := (List.getElem?_eq_some_iff.mp hj).1
  have hbound : j < g.nodes.size := by
    rw [h.size]
    rw [List.length_append, List.length_map, List.length_singleton] at hlt
    exact Nat.lt_of_lt_of_le hlt (Nat.add_le_add_left (by decide) _)
  exact yields_lone ⟨g, game, settings⟩ hkind hsuccs hbound hrun

/-- The root leads through the chain, what stores its result and the end. -/
theorem linked_chained (h : Chained op terms last store exit code g) :
    Linked g [terms.length + 5, terms.length + 2, terms.length + 3] :=
  ⟨by rw [isCase, h.kind_node], h.succs_node, by rw [isCase, h.stored.1], h.stored.2,
    by rw [isCase, h.ended.1], h.ended.2, trivial⟩

/-- The operands are executed in order, then what comes behind them. -/
theorem buildStatements_of_chained (h : Chained op terms last store exit code g)
    (hops : List.Forall₂ (fun is e => executeAll game is
      { entry := code.name, argumentCount := code.argumentCount } =
        .ok [] { entry := code.name, argumentCount := code.argumentCount, stack := [e] })
      (terms.map Term.operand ++ [last]) es) {out : List Stmt}
    (hend : executeAll game [store, exit] { entry := code.name, argumentCount := code.argumentCount
                                            stack := [.ofKind (.logic op es) .bool] } =
      .ok out { entry := code.name, argumentCount := code.argumentCount }) :
    buildStatements g game settings = .ok (out, []) := by
  obtain ⟨blocks, hkind⟩ := h.kind_root
  obtain ⟨depth, hdepth⟩ : ∃ depth, depthBound g = depth + 2 := by
    refine ⟨depthBound g - 2, ?_⟩
    have hbound := le_depthBound g
    rw [h.size] at hbound
    omega
  let base : Frame := { entry := code.name, argumentCount := code.argumentCount }
  have hoperands : List.Forall₂ (fun c e => Yields (chain g (node ⟨g, game, settings⟩ (depth + 1))
      (some c)) base [] { base with stack := e :: base.stack })
      (List.range (terms.length + 1)) es := by
    have hlength := hops.length_eq
    rw [List.length_append, List.length_map, List.length_singleton] at hlength
    refine List.forall₂_iff_get.mpr ⟨by rw [List.length_range, hlength], fun j hj hj' => ?_⟩
    have hlt : j < (terms.map Term.operand ++ [last]).length := by simpa using hj
    have hrun := (List.forall₂_iff_get.mp hops).2 j hlt hj'
    rw [List.get_eq_getElem, List.getElem_range]
    exact yields_operand h (List.getElem?_eq_getElem hlt) hrun
  have hchain : Yields (node ⟨g, game, settings⟩ (depth + 2) (terms.length + 5)) base []
      { base with stack := [.ofKind (.logic op es) .bool] } :=
    yields_shortCircuit h.kind_node h.children_node hoperands
  have hstored : Yields (node ⟨g, game, settings⟩ (depth + 2) (terms.length + 2))
      { base with stack := [.ofKind (.logic op es) .bool] } out base :=
    yields_block h.stored.1 hend
  have hended : Yields (node ⟨g, game, settings⟩ (depth + 2) (terms.length + 3)) base [] base :=
    yields_block h.ended.1 rfl
  have hroot : child (g.node (terms.length + 4)) Slot.head =
      [terms.length + 5, terms.length + 2, terms.length + 3].head? := by
    rw [child, h.children_root]
    rfl
  have hall : Yields (visitAll (node ⟨g, game, settings⟩ (depth + 2))
      [terms.length + 5, terms.length + 2, terms.length + 3]) base out base := by
    have hlast : Yields (visitAll (node ⟨g, game, settings⟩ (depth + 2)) [terms.length + 3]) base
        [] base := hended.visitAll_cons (yields_pure [] base)
    have hrest := hstored.visitAll_cons hlast
    rw [List.append_nil] at hrest
    exact hchain.visitAll_cons hrest
  refine buildStatements_of_yields h.root hkind ?_
  rw [hroot, chain_eq_visitAll (linked_chained h) (by simp) (fun n hn => ?_), hdepth]
  · exact hall
  · rw [h.size]
    simp only [List.mem_cons, List.not_mem_nil, or_false] at hn
    rcases hn with rfl | rfl | rfl <;> exact Nat.add_lt_add_left (by decide) _

/-- Code that leaves one value and completes no statement only computes. -/
theorem computes_of_simulates {is : List Instr} {e : Expr}
    (hflow : ∀ i ∈ is, i.endsBlock = false ∧ i.isCallTo Hook.try_ = false)
    (h : Simulates game code is [] [e]) : ∀ i ∈ is, i.Computes := by
  intro i hi
  obtain ⟨f, hrun, -⟩ := h
  obtain ⟨f₁, here, f₂, hexec, hout⟩ := exists_execute hrun hi
  have hnothing : here = [] := List.eq_nil_iff_forall_not_mem.mpr fun stmt hs => nomatch hout stmt hs
  rw [hnothing] at hexec
  obtain ⟨hstatic, hnullish⟩ := isExtended_of_execute hexec
  obtain ⟨hends, hhook⟩ := hflow i hi
  exact { hook := hhook
          keeps := opcode_ne_popz_of_execute hexec
          notStatic := hstatic
          notNullish := hnullish
          notLoop := Loops.kind?_of_not_endsBlock hends
          endsBlock := hends }

end ShortCircuit

/-! ## Chains -/

section

open ShortCircuit

variable {op : Logic} {terms : List Term} {last : List Instr} {skip result store exit : Instr}
  {code : CodeEntry} {game : Game} {es : List Expr} {x : String}

/-- A chain of two or more operands that each leave one value, in the layout of `&&` or `||`, is
analyzed to one node that holds the operands in order, without the jumps between them, and built
without an error or a warning to the one assignment of its result and the exit. -/
theorem buildStatements_shortCircuit (layout : TryCatch.Layout) (settings : Settings)
    (hcode : code.Single) (hlaid : ChainCode op terms last skip result store exit code.instrs)
    (hstore : store.operand = .var ⟨x, -1, .normal⟩ ∧ store.type1 = .var ∧ store.type2 = .bool)
    (hx : x ≠ returnTemp)
    (hflow : ∀ is ∈ terms.map Term.operand ++ [last], ∀ i ∈ is,
      i.endsBlock = false ∧ i.isCallTo Hook.try_ = false ∧ i.SparesReturn)
    (hops : List.Forall₂ (fun is e => Simulates game code is [] [e])
      (terms.map Term.operand ++ [last]) es) :
    ∃ g, analyze code layout = .ok g ∧
      (∃ n, (g.node n).kind = .shortCircuit op ∧
        (g.node n).children = (List.range (terms.length + 1)).map some ∧
        ∀ (j : Nat) is, (terms.map Term.operand ++ [last])[j]? = some is →
          (g.node j).kind = .block is) ∧
      buildStatements g game settings = .ok ([
        .assign ⟨x, .scope .own, [], false⟩ (.ofKind (.logic op es) .bool) .normal false,
        .exit], []) := by
  have hcomputes : ∀ is ∈ terms.map Term.operand ++ [last], ∀ i ∈ is, i.Computes := by
    intro is his
    obtain ⟨j, hj⟩ := List.getElem?_of_mem his
    obtain ⟨hlt, rfl⟩ := List.getElem?_eq_some_iff.mp hj
    have hj' : j < es.length := hops.length_eq ▸ hlt
    refine computes_of_simulates (fun i hi => ?_) ((List.forall₂_iff_get.mp hops).2 j hlt hj')
    exact ⟨(hflow _ his i hi).1, (hflow _ his i hi).2.1⟩
  have hterms : ∀ t ∈ terms, ∀ i ∈ t.operand, i.Computes := fun t ht =>
    hcomputes t.operand (List.mem_append_left _ (List.mem_map_of_mem ht))
  have hlast : ∀ i ∈ last, i.Computes := hcomputes last (by simp)
  obtain ⟨g, hrun, hchained⟩ := hlaid.analyze_eq hcode hterms hlast layout
  have hruns : List.Forall₂ (fun is e => executeAll game is
      { entry := code.name, argumentCount := code.argumentCount } =
        .ok [] { entry := code.name, argumentCount := code.argumentCount, stack := [e] })
      (terms.map Term.operand ++ [last]) es := by
    refine List.forall₂_iff_get.mpr ⟨hops.length_eq, fun j hj hj' => ?_⟩
    exact ((List.forall₂_iff_get.mp hops).2 j hj hj').run fun i hi =>
      (hflow _ (List.getElem_mem hj) i hi).2.2
  have hassigned : execute game store { entry := code.name, argumentCount := code.argumentCount
                                        stack := [.ofKind (.logic op es) .bool] } =
      .ok [.assign ⟨x, .scope .own, [], false⟩ (.ofKind (.logic op es) .bool) .normal false]
        { entry := code.name, argumentCount := code.argumentCount } :=
    execute_storeLogic (f := { entry := code.name, argumentCount := code.argumentCount })
      hlaid.stores (by rw [hstore.2.1]; decide) hstore.1 hx
  have hexit : executeAll game [exit] { entry := code.name, argumentCount := code.argumentCount } =
      .ok [.exit] { entry := code.name, argumentCount := code.argumentCount } := by
    rw [executeAll, execute, hlaid.exits]
    rfl
  refine ⟨g, hrun, ⟨terms.length + 5, hchained.kind_node, hchained.children_node,
    fun j is hj => (hchained.operand j is hj).1⟩, ?_⟩
  exact buildStatements_of_chained hchained hruns (executeAll_cons_ok hassigned hexit)

/-- `x = a && b && c`. -/
def chainExample : CodeEntry := .ofInstrs "gml_Script_example" [
  ⟨0, .push, none, .var, .double, .var ⟨"a", -1, .normal⟩⟩,
  ⟨8, .conv, none, .var, .bool, .none⟩,
  ⟨12, .bf, none, .double, .double, .branch 32⟩,
  ⟨16, .push, none, .var, .double, .var ⟨"b", -1, .normal⟩⟩,
  ⟨24, .conv, none, .var, .bool, .none⟩,
  ⟨28, .bf, none, .double, .double, .branch 16⟩,
  ⟨32, .push, none, .var, .double, .var ⟨"c", -1, .normal⟩⟩,
  ⟨40, .b, none, .double, .double, .branch 8⟩,
  ⟨44, .push, none, .int16, .double, .int16 0⟩,
  ⟨48, .pop, none, .var, .bool, .var ⟨"x", -1, .normal⟩⟩,
  ⟨56, .exit, none, .int32, .double, .none⟩]

theorem buildStatements_shortCircuit_chainExample :
    ∃ g, analyze chainExample .catchFirst = .ok g ∧
      (∃ n, (g.node n).kind = .shortCircuit .and ∧
        (g.node n).children = (List.range 3).map some ∧
        ∀ (j : Nat) is, ([
          [⟨0, .push, none, .var, .double, .var ⟨"a", -1, .normal⟩⟩,
            ⟨8, .conv, none, .var, .bool, .none⟩],
          [⟨16, .push, none, .var, .double, .var ⟨"b", -1, .normal⟩⟩,
            ⟨24, .conv, none, .var, .bool, .none⟩],
          [⟨32, .push, none, .var, .double, .var ⟨"c", -1, .normal⟩⟩]] : List (List Instr))[j]? =
            some is → (g.node j).kind = .block is) ∧
      buildStatements g {} {} = .ok ([
        .assign ⟨"x", .scope .own, [], false⟩ (.ofKind (.logic .and [
          (Expr.ofVar ⟨"a", .scope .own, [], false⟩).withStackType .bool,
          (Expr.ofVar ⟨"b", .scope .own, [], false⟩).withStackType .bool,
          Expr.ofVar ⟨"c", .scope .own, [], false⟩]) .bool) .normal false,
        .exit], []) := by
  have hcode : chainExample.Single :=
    ⟨⟨rfl, rfl, rfl, rfl, rfl, rfl, rfl, rfl, rfl, rfl, rfl, trivial⟩, rfl, rfl⟩
  have hlaid : ChainCode .and [
      ⟨[⟨0, .push, none, .var, .double, .var ⟨"a", -1, .normal⟩⟩,
        ⟨8, .conv, none, .var, .bool, .none⟩], ⟨12, .bf, none, .double, .double, .branch 32⟩⟩,
      ⟨[⟨16, .push, none, .var, .double, .var ⟨"b", -1, .normal⟩⟩,
        ⟨24, .conv, none, .var, .bool, .none⟩], ⟨28, .bf, none, .double, .double, .branch 16⟩⟩]
      [⟨32, .push, none, .var, .double, .var ⟨"c", -1, .normal⟩⟩]
      ⟨40, .b, none, .double, .double, .branch 8⟩ ⟨44, .push, none, .int16, .double, .int16 0⟩
      ⟨48, .pop, none, .var, .bool, .var ⟨"x", -1, .normal⟩⟩
      ⟨56, .exit, none, .int32, .double, .none⟩ chainExample.instrs := by
    refine ⟨rfl, List.cons_ne_nil _ _, fun t ht => ?_, ⟨rfl, rfl⟩, ⟨rfl, rfl, 0, rfl, by simp⟩, rfl,
      rfl⟩
    simp only [List.mem_cons, List.not_mem_nil, or_false] at ht
    rcases ht with rfl | rfl <;> exact ⟨rfl, rfl⟩
  refine buildStatements_shortCircuit .catchFirst {} hcode hlaid ⟨rfl, rfl, rfl⟩ (by decide)
    (fun is his i hi => ?_) (.cons ⟨_, rfl, rfl⟩ (.cons ⟨_, rfl, rfl⟩ (.cons ⟨_, rfl, rfl⟩ .nil)))
  simp only [List.map_cons, List.map_nil, List.cons_append, List.nil_append, List.mem_cons,
    List.not_mem_nil, or_false] at his
  rcases his with rfl | rfl | rfl <;>
  · simp only [List.mem_cons, List.not_mem_nil, or_false] at hi
    rcases hi with rfl | rfl <;> exact ⟨by decide, by decide, fun v hv => by cases hv <;> decide⟩

end

end GmlLift
