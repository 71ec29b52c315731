import GmlLift.Proofs.Build.Depth
import GmlLift.Proofs.Frame.Declaration

/-! # Building along a chain

A chain whose nodes each lead to the next and at last to nothing is built node by node. What a
builder makes of a frame, without the record of what was executed, composes along the chain. -/
namespace GmlLift

namespace Build

variable {α β : Type}

/-- On a frame the builder gives a value and another frame, without a warning. -/
def Yields (b : Builder α) (f : Frame) (a : α) (f' : Frame) : Prop :=
  ∀ s, s.frame = f → ∃ is, b s = .ok (a, { s with frame := f', executed := s.executed ++ is })

theorem yields_pure (a : α) (f : Frame) : Yields (pure a) f a f := by
  rintro s rfl
  exact ⟨[], by rw [List.append_nil]; rfl⟩

theorem Yields.bind {b : Builder α} {k : α → Builder β} {f f' f'' : Frame} {a : α} {c : β}
    (h : Yields b f a f') (hk : Yields (k a) f' c f'') : Yields (b >>= k) f c f'' := by
  intro s hs
  obtain ⟨is, hb⟩ := h s hs
  obtain ⟨js, hc⟩ := hk { s with frame := f', executed := s.executed ++ is } rfl
  refine ⟨is ++ js, ?_⟩
  change (b s >>= _) = _
  rw [hb, ← List.append_assoc]
  exact hc

theorem yields_onFrame {step : Step α} {f f' : Frame} {a : α} (h : step.run f = .ok a f') :
    Yields (onFrame step) f a f' := by
  rintro s rfl
  refine ⟨[], ?_⟩
  unfold onFrame
  rw [h, List.append_nil]

theorem yields_execute {game : Game} {is : List Instr} {f f' : Frame} {out : List Stmt}
    (h : Step.executeAll game is f = .ok out f') : Yields (execute game is) f out f' := by
  have hrecord : Yields (modify fun s => { s with executed := s.executed ++ is }) f' ⟨⟩ f' := by
    rintro s rfl
    exact ⟨is, rfl⟩
  exact (yields_onFrame h).bind (hrecord.bind (yields_pure out f'))

theorem yields_pop {address : Nat} {what : String} {f : Frame} {e : Expr} {rest : List Expr}
    (hf : f.stack = e :: rest) : Yields (pop address what) f e { f with stack := rest } := by
  rintro s rfl
  refine ⟨[], ?_⟩
  have hget : ∀ k : State → Builder Expr, (get >>= k) s = k s s := fun _ => rfl
  rw [pop, hget, hf, List.append_nil]
  rfl

theorem yields_height (f : Frame) : Yields height f f.stack.length f := by
  rintro s rfl
  exact ⟨[], by rw [List.append_nil]; rfl⟩

theorem yields_finish (settings : Settings) {f : Frame} (hf : f.stack = []) :
    Yields (finish settings) f ⟨⟩ f := by
  rintro s rfl
  refine ⟨[], ?_⟩
  unfold finish
  change (if s.frame.stack.length = 0 then pure ⟨⟩ else _ : Builder Unit) s = _
  rw [hf, List.append_nil]
  rfl

/-! ## Chains -/

/-- Each node leads to the next one alone, and the last one nowhere. -/
def Linked (g : Graph) : List NodeId → Prop
  | [] => True
  | n :: rest => isCase (g.node n) = false ∧ (g.node n).succs = rest.head?.toList ∧ Linked g rest

/-- Visit nodes in order. -/
def visitAll (visit : NodeId → Builder (List Stmt)) : List NodeId → Builder (List Stmt)
  | [] => return []
  | n :: rest => do
    let out ← visit n
    return out ++ (← visitAll visit rest)

variable {g : Graph} {visit : NodeId → Builder (List Stmt)}

theorem chainFrom_eq_visitAll {ns : List NodeId} (h : Linked g ns) (hnodup : ns.Nodup)
    {fuel : Nat} (hfuel : ns.length ≤ fuel) {seen : List NodeId} (hseen : ∀ n ∈ ns, n ∉ seen) :
    chainFrom g visit fuel seen ns.head? = visitAll visit ns := by
  induction ns generalizing fuel seen with
  | nil => exact chainFrom_none
  | cons n rest ih =>
    obtain ⟨hcase, hsuccs, hrest⟩ := h
    obtain ⟨hn, hnodup⟩ := List.nodup_cons.mp hnodup
    obtain ⟨fuel, rfl⟩ : ∃ k, fuel = k + 1 := ⟨fuel - 1, by simp at hfuel; omega⟩
    have hgo : (seen.contains n || isCase (g.node n)) = false := by
      rw [hcase, Bool.or_false]
      simpa using hseen n (by simp)
    have hnext : next g n = .ok rest.head? := by
      rw [next, hsuccs]
      cases rest <;> rfl
    rw [List.head?_cons, chainFrom_eq hgo hnext, visitAll,
      ih hrest hnodup (by simpa using hfuel) fun m hm hmem => ?_]
    rcases List.mem_cons.mp hmem with rfl | hmem
    · exact hn hm
    · exact hseen m (by simp [hm]) hmem

/-- A chain of linked nodes is built node by node. -/
theorem chain_eq_visitAll {ns : List NodeId} (h : Linked g ns) (hnodup : ns.Nodup)
    (hlt : ∀ n ∈ ns, n < g.nodes.size) : chain g visit ns.head? = visitAll visit ns :=
  chainFrom_eq_visitAll h hnodup (Nat.le_succ_of_le (length_le_size hnodup hlt)) fun _ _ h =>
    nomatch h

theorem Yields.visitAll_cons {n : NodeId} {rest : List NodeId} {f f' f'' : Frame}
    {out out' : List Stmt} (h : Yields (visit n) f out f')
    (hrest : Yields (visitAll visit rest) f' out' f'') :
    Yields (visitAll visit (n :: rest)) f (out ++ out') f'' :=
  h.bind (hrest.bind (yields_pure _ _))

/-! ## Nodes -/

variable {ctx : Context} {depth : Nat} {n : NodeId}

theorem yields_block {is : List Instr} (hk : (ctx.graph.node n).kind = .block is) {f f' : Frame}
    {out : List Stmt} (h : Step.executeAll ctx.game is f = .ok out f') :
    Yields (node ctx (depth + 1) n) f out f' := by
  rw [node, Build.visit, hk]
  exact yields_execute h

/-- A block that leads nowhere is a chain of its own. -/
theorem yields_lone (ctx : Context) {is : List Instr} (hk : (ctx.graph.node n).kind = .block is)
    (hsuccs : (ctx.graph.node n).succs = []) (hlt : n < ctx.graph.nodes.size) {f f' : Frame}
    {out : List Stmt} (h : Step.executeAll ctx.game is f = .ok out f') :
    Yields (chain ctx.graph (node ctx (depth + 1)) (some n)) f out f' := by
  have hlinked : Linked ctx.graph [n] := ⟨by rw [isCase, hk], hsuccs, trivial⟩
  have hall : Yields (visitAll (node ctx (depth + 1)) [n]) f (out ++ []) f' :=
    (yields_block hk h).visitAll_cons (yields_pure [] f')
  rw [List.append_nil] at hall
  show Yields (chain ctx.graph _ [n].head?) f out f'
  rw [chain_eq_visitAll hlinked (List.nodup_singleton n) fun m hm => List.mem_singleton.mp hm ▸ hlt]
  exact hall

theorem yields_optionalBody {chain : Option NodeId → Builder (List Stmt)} {f f' : Frame}
    {out : List Stmt} (h : Yields (chain (some n)) f out f') :
    Yields (optionalBody chain (some n)) f (some out) f' := h.bind (yields_pure _ _)

/-- Nodes may nest as deep as the graph is large. -/
theorem le_depthBound (g : Graph) : g.nodes.size + 1 ≤ depthBound g :=
  Nat.le_mul_of_pos_right _ (Nat.succ_pos _)

/-- The root entry is built if its chain leaves its frame as it was. -/
theorem buildStatements_of_yields {game : Game} {settings : Settings} {r : NodeId} {entry : String}
    {argc : Nat} {blocks : List NodeId} {body : List Stmt} (hroot : g.root? = some r)
    (hk : (g.node r).kind = .fragment entry argc blocks)
    (h : Yields (chain g (node ⟨g, game, settings⟩ (depthBound g)) (child (g.node r) Slot.head))
      { entry, argumentCount := argc } body { entry, argumentCount := argc }) :
    buildStatements g game settings = .ok (body, []) := by
  have hend : Yields (do finish settings; return body) { entry, argumentCount := argc } body
      { entry, argumentCount := argc } := (yields_finish settings rfl).bind (yields_pure body _)
  obtain ⟨is, hrun⟩ := Yields.bind (k := fun body => do finish settings; return body) h hend
    { frame := { entry, argumentCount := argc } } rfl
  unfold buildStatements root
  rw [hroot]
  dsimp only
  rw [hk]
  dsimp only [StateT.run]
  rw [hrun]
  rfl

end Build

end GmlLift
