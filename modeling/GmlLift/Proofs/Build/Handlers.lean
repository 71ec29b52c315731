import GmlLift.Proofs.Build.LoopLayouts
import GmlLift.Proofs.Flow.HandlerLayouts
import GmlLift.Proofs.Frame.Placement

/-! # Exception handlers are recovered

Newer code has the catch body before the finally body, older code has it behind and jumps back. Built
for the games that use it, either layout gives the same one statement. -/
namespace GmlLift

open GmlLift.Graph Step

namespace Build

variable {ctx : Context} {depth : Nat} {n caught cleanup : NodeId} {f : Frame}
  {out outCaught outCleanup : List Stmt} {name : Option String}

/-- A handler with all three bodies is built from what they yield. -/
theorem yields_tryCatch (hk : (ctx.graph.node n).kind = .tryCatch name) {body : NodeId}
    (hchildren : (ctx.graph.node n).children = [some body, some caught, some cleanup])
    (hbody : Yields (chain ctx.graph (node ctx depth) (some body)) f out f)
    (hcaught : Yields (chain ctx.graph (node ctx depth) (some caught)) f outCaught f)
    (hcleanup : Yields (chain ctx.graph (node ctx depth) (some cleanup)) f outCleanup f) :
    Yields (node ctx (depth + 1) n) f
      [.tryCatch out (some ⟨name, outCaught⟩) (some outCleanup)] f := by
  have hslots : child (ctx.graph.node n) Slot.tryBody = some body ∧
      child (ctx.graph.node n) Slot.catchBody = some caught ∧
      child (ctx.graph.node n) Slot.finallyBody = some cleanup := by
    simp only [child, hchildren]
    exact ⟨rfl, rfl, rfl⟩
  rw [node, visit, hk]
  dsimp only
  rw [hslots.1, hslots.2.1, hslots.2.2]
  exact hbody.bind ((yields_optionalBody hcaught).bind ((yields_optionalBody hcleanup).bind
    (yields_pure _ _)))

end Build

namespace TryCatch

open Build Parts

variable {p : Parts} {layout : Layout} {name : String} {code : CodeEntry} {n : NodeId} {g : Graph}
  {game : Game} {settings : Settings} {out outCaught outCleanup : List Stmt}

/-- The root leads through the hook's block, the statement and the exit. -/
theorem linked_caught (h : Caught p layout name code n g) :
    Linked g [0, n, exitCell layout, exitCell layout + 1] :=
  ⟨by rw [isCase, h.hook.1], h.hook.2, by rw [isCase, h.kind_node], h.succs_node,
    by rw [isCase, h.left.1], h.left.2, by rw [isCase, h.ended.1], h.ended.2, trivial⟩

theorem nodup_caught (h : Caught p layout name code n g) :
    [0, n, exitCell layout, exitCell layout + 1].Nodup := by
  obtain ⟨hlow, -⟩ := h.lt_size
  cases layout <;>
  · simp only [exitCell] at hlow ⊢
    simp only [List.nodup_cons, List.mem_cons, List.not_mem_nil, or_false, not_or]
    grind

/-- The bodies are executed under one statement. -/
theorem buildStatements_of_caught (h : Caught p layout name code n g) (hexit : p.exit.opcode = .exit)
    (hbody : executeAll game p.body { entry := code.name, argumentCount := code.argumentCount } =
      .ok out { entry := code.name, argumentCount := code.argumentCount })
    (hcaught : executeAll game p.caught { entry := code.name, argumentCount := code.argumentCount } =
      .ok outCaught { entry := code.name, argumentCount := code.argumentCount })
    (hcleanup : executeAll game p.cleanup
      { entry := code.name, argumentCount := code.argumentCount } =
      .ok outCleanup { entry := code.name, argumentCount := code.argumentCount }) :
    buildStatements g game settings =
      .ok ([.tryCatch out (some ⟨some name, outCaught⟩) (some outCleanup), .exit], []) := by
  obtain ⟨blocks, hkind⟩ := h.kind_root
  obtain ⟨hlow, hhigh⟩ := h.lt_size
  obtain ⟨depth, hdepth⟩ : ∃ depth, depthBound g = depth + 2 := by
    refine ⟨depthBound g - 2, ?_⟩
    have hbound := le_depthBound g
    have hpos : 1 ≤ n := Nat.zero_lt_of_lt hlow
    have hsize : 1 < g.nodes.size := Nat.lt_of_le_of_lt hpos hhigh
    omega
  let base : Frame := { entry := code.name, argumentCount := code.argumentCount }
  have hlt : ∀ x, x ≤ exitCell layout + 1 → x < g.nodes.size := fun x hx =>
    Nat.lt_of_le_of_lt hx (Nat.lt_trans (Nat.lt_of_succ_lt hlow) hhigh)
  have hstatement : Yields (node ⟨g, game, settings⟩ (depth + 2) n) base
      [.tryCatch out (some ⟨some name, outCaught⟩) (some outCleanup)] base := by
    refine yields_tryCatch h.kind_node h.children_node (yields_lone _ h.body.1 h.body.2 ?_ hbody)
      (yields_lone _ h.caught.1 h.caught.2 ?_ hcaught)
      (yields_lone _ h.cleanup.1 h.cleanup.2 ?_ hcleanup) <;>
    · refine hlt _ ?_
      cases layout <;> decide
  have hended : Yields (visitAll (node ⟨g, game, settings⟩ (depth + 2))
      [exitCell layout, exitCell layout + 1]) base [.exit] base := by
    have hrun : executeAll game [p.exit] base = .ok [.exit] base := by
      rw [executeAll, Step.execute, hexit]
      rfl
    have hlast : Yields (node ⟨g, game, settings⟩ (depth + 2) (exitCell layout + 1)) base [] base :=
      yields_block h.ended.1 rfl
    have hleft : Yields (node ⟨g, game, settings⟩ (depth + 2) (exitCell layout)) base [.exit] base :=
      yields_block h.left.1 hrun
    exact hleft.visitAll_cons (hlast.visitAll_cons (yields_pure [] base))
  have hopened : Yields (node ⟨g, game, settings⟩ (depth + 2) 0) base [] base :=
    yields_block h.hook.1 rfl
  have hroot : child (g.node (exitCell layout + 2)) Slot.head =
      [0, n, exitCell layout, exitCell layout + 1].head? := by
    rw [child, h.children_root]
    rfl
  refine buildStatements_of_yields h.root hkind ?_
  rw [hroot, chain_eq_visitAll (linked_caught h) (nodup_caught h) (fun m hm => ?_), hdepth]
  · exact hopened.visitAll_cons (hstatement.visitAll_cons hended)
  · simp only [List.mem_cons, List.not_mem_nil, or_false] at hm
    rcases hm with rfl | rfl | rfl | rfl
    · exact hlt 0 (Nat.zero_le _)
    · exact hhigh
    · exact hlt _ (Nat.le_succ _)
    · exact hlt _ (Nat.le_refl _)

/-- Code in a layout that has these bodies, wherever it has them. -/
structure Handles (body caught cleanup : List Instr) (name : String) (layout : Layout) (p : Parts)
    (code : CodeEntry) : Prop where
  single : code.Single
  fits : p.Fits layout name
  instrs : code.instrs = p.instrs layout
  body : List.Forall₂ Instr.Moved body p.body
  caught : List.Forall₂ Instr.Moved caught p.caught
  cleanup : List.Forall₂ Instr.Moved cleanup p.cleanup

end TryCatch

section

open TryCatch

variable {game : Game} {body caught cleanup : List Instr} {name : String}
  {out outCaught outCleanup : List Stmt}

/-- Straight code that completes statements tests for nothing. -/
theorem ordinary_of_simulates {code : CodeEntry} {is : List Instr} {left : List Expr}
    (hflow : ∀ i ∈ is, i.Straight) (h : Simulates game code is out left) :
    ∀ i ∈ is, i.Ordinary := by
  intro i hi
  obtain ⟨f, hrun, -⟩ := h
  obtain ⟨f₁, here, f₂, hexec, -⟩ := exists_execute hrun hi
  obtain ⟨hstatic, hnullish⟩ := isExtended_of_execute hexec
  exact { toStraight := hflow i hi, notStatic := hstatic, notNullish := hnullish }

/-- What bare code is executed to, it is executed to at another place of other code for the same
entry, in a game of either age. -/
theorem Simulates.placed {code code' : CodeEntry} {is js : List Instr}
    (h : Simulates game code is out []) (older : Bool) (hmoved : List.Forall₂ Instr.Moved is js)
    (his : ∀ i ∈ is, i.SparesReturn) (hname : code'.name = code.name)
    (hargs : code'.argumentCount = code.argumentCount) :
    executeAll { game with olderExceptionHandling := older } js
      { entry := code'.name, argumentCount := code'.argumentCount } =
      .ok out { entry := code'.name, argumentCount := code'.argumentCount } := by
  rw [executeAll_older, hname, hargs]
  exact follows_executeAll game hmoved _ _ _ (h.run his)

/-- Bodies that leave the stack as it was, under a handler in the layout that the game uses, are
analyzed and built without an error or a warning to one statement with the three bodies and the name
of the caught value, and the exit: the same statements whether the catch body stands before the
finally body, as newer games have it, or behind, as older ones do. -/
theorem buildStatements_tryCatch {code : Bool → CodeEntry} {p : Bool → Parts} (settings : Settings)
    (hcode : ∀ older, Handles body caught cleanup name
      { game with olderExceptionHandling := older }.handlerLayout (p older) (code older))
    (hsame : (code true).name = (code false).name ∧
      (code true).argumentCount = (code false).argumentCount)
    (hflow : ∀ i ∈ body ++ caught ++ cleanup,
      i.Straight ∧ i.isCallTo Hook.unhook = false ∧ i.SparesReturn)
    (hbody : Simulates game (code false) body out [])
    (hcaught : Simulates game (code false) caught outCaught [])
    (hcleanup : Simulates game (code false) cleanup outCleanup []) :
    ∀ older, ∃ g,
      analyze (code older) { game with olderExceptionHandling := older }.handlerLayout = .ok g ∧
      buildStatements g { game with olderExceptionHandling := older } settings =
        .ok ([.tryCatch out (some ⟨some name, outCaught⟩) (some outCleanup), .exit], []) := by
  intro older
  obtain ⟨hsingle, hfits, hinstrs, hmovedBody, hmovedCaught, hmovedCleanup⟩ := hcode older
  have hname : (code older).name = (code false).name := by
    cases older
    · rfl
    · exact hsame.1
  have hargs : (code older).argumentCount = (code false).argumentCount := by
    cases older
    · rfl
    · exact hsame.2
  have hmoved : List.Forall₂ Instr.Moved (body ++ caught ++ cleanup)
      ((p older).body ++ (p older).caught ++ (p older).cleanup) :=
    List.rel_append (List.rel_append hmovedBody hmovedCaught) hmovedCleanup
  have hord : ∀ i ∈ body ++ caught ++ cleanup, i.Ordinary := by
    refine List.forall_mem_append.mpr ⟨List.forall_mem_append.mpr ⟨?_, ?_⟩, ?_⟩
    · exact ordinary_of_simulates (fun i hi => (hflow i (by simp [hi])).1) hbody
    · exact ordinary_of_simulates (fun i hi => (hflow i (by simp [hi])).1) hcaught
    · exact ordinary_of_simulates (fun i hi => (hflow i (by simp [hi])).1) hcleanup
  have hordMoved : ∀ i ∈ (p older).body ++ (p older).caught ++ (p older).cleanup, i.Ordinary :=
    Instr.forall_moved (fun i a h => ⟨⟨h.endsBlock, h.hook, h.finish⟩, h.notStatic, h.notNullish⟩)
      hmoved hord
  have hunhook : ∀ i ∈ (p older).caught, i.isCallTo Hook.unhook = false :=
    Instr.forall_moved (fun i a h => h) hmovedCaught fun i hi => (hflow i (by simp [hi])).2.1
  obtain ⟨n, g, hrun, hg⟩ := analyze_eq hfits hsingle hinstrs hordMoved hunhook
  refine ⟨g, hrun, buildStatements_of_caught hg hfits.exits ?_ ?_ ?_⟩
  · exact hbody.placed older hmovedBody (fun i hi => (hflow i (by simp [hi])).2.2) hname hargs
  · exact hcaught.placed older hmovedCaught (fun i hi => (hflow i (by simp [hi])).2.2) hname hargs
  · exact hcleanup.placed older hmovedCleanup (fun i hi => (hflow i (by simp [hi])).2.2) hname hargs

/-- `try { risky(); } catch (err) { recover(); } finally { cleanup(); }`, in the layout of newer or of
older games. -/
def handlerParts (older : Bool) : Parts where
  hook := [
    ⟨0, .push, none, .int32, .double, .int32 (if older then 64 else 100)⟩,
    ⟨8, .conv, none, .int32, .var, .none⟩,
    ⟨12, .push, none, .int32, .double, .int32 (if older then 92 else 64)⟩,
    ⟨20, .conv, none, .int32, .var, .none⟩,
    ⟨24, .call, none, .int32, .double, .call Hook.try_ 2⟩,
    ⟨32, .popz, none, .var, .double, .none⟩]
  body := [⟨36, .call, none, .int32, .double, .call "risky" 0⟩,
    ⟨44, .popz, none, .var, .double, .none⟩]
  unhook := [⟨48, .call, none, .int32, .double, .call Hook.unhook 0⟩,
    ⟨56, .popz, none, .var, .double, .none⟩]
  jump := ⟨60, .b, none, .double, .double, .branch (if older then 4 else 40)⟩
  opening := [
    ⟨if older then 92 else 64, .pop, none, .var, .var, .var ⟨"err", -7, .normal⟩⟩,
    ⟨if older then 100 else 72, .call, none, .int32, .double, .call Hook.unhook 0⟩,
    ⟨if older then 108 else 80, .popz, none, .var, .double, .none⟩]
  caught := [⟨if older then 112 else 84, .call, none, .int32, .double, .call "recover" 0⟩,
    ⟨if older then 120 else 92, .popz, none, .var, .double, .none⟩]
  leave := ⟨if older then 124 else 96, .b, none, .double, .double, .branch (if older then -60 else 4)⟩
  cleanup := [⟨if older then 64 else 100, .call, none, .int32, .double, .call "cleanup" 0⟩,
    ⟨if older then 72 else 108, .popz, none, .var, .double, .none⟩]
  finish := [⟨if older then 76 else 112, .call, none, .int32, .double, .call Hook.finishFinally 0⟩,
    ⟨if older then 84 else 120, .popz, none, .var, .double, .none⟩]
  skip := ⟨88, .b, none, .double, .double, .branch 40⟩
  exit := ⟨if older then 128 else 124, .exit, none, .int32, .double, .none⟩

def handlerExample (older : Bool) : CodeEntry := .ofInstrs "gml_Script_example"
  ((handlerParts older).instrs (if older then .finallyFirst else .catchFirst))

theorem buildStatements_tryCatch_handlerExample :
    (∃ g, analyze (handlerExample false) .catchFirst = .ok g ∧
      buildStatements g { olderExceptionHandling := false } {} =
        .ok ([.tryCatch [.expr (.ofKind (.call "risky" []) .var)]
          (some ⟨some "err", [.expr (.ofKind (.call "recover" []) .var)]⟩)
          (some [.expr (.ofKind (.call "cleanup" []) .var)]), .exit], [])) ∧
    ∃ g, analyze (handlerExample true) .finallyFirst = .ok g ∧
      buildStatements g { olderExceptionHandling := true } {} =
        .ok ([.tryCatch [.expr (.ofKind (.call "risky" []) .var)]
          (some ⟨some "err", [.expr (.ofKind (.call "recover" []) .var)]⟩)
          (some [.expr (.ofKind (.call "cleanup" []) .var)]), .exit], []) := by
  have hfits : ∀ older,
      (handlerParts older).Fits (if older then .finallyFirst else .catchFirst) "err" := by
    intro older
    cases older <;>
      exact ⟨.mk ⟨rfl, rfl, rfl⟩ rfl ⟨rfl, rfl, rfl⟩ rfl (.mk rfl rfl), .mk rfl rfl, ⟨rfl, rfl⟩,
        .storeFirst rfl rfl rfl (.mk rfl rfl), ⟨rfl, rfl⟩, .mk rfl rfl, by decide, rfl⟩
  have hcode : ∀ older, Handles (handlerParts false).body (handlerParts false).caught
      (handlerParts false).cleanup "err"
      { ({} : Game) with olderExceptionHandling := older }.handlerLayout (handlerParts older)
      (handlerExample older) := by
    intro older
    cases older <;>
      exact ⟨⟨by decide, rfl, rfl⟩, hfits _, rfl, by decide, by decide, by decide⟩
  have hbody : Simulates {} (handlerExample false) (handlerParts false).body
      [.expr (.ofKind (.call "risky" []) .var)] [] := ⟨_, rfl, rfl⟩
  have hall := buildStatements_tryCatch {} hcode ⟨rfl, rfl⟩ (fun i hi => ?_) hbody ⟨_, rfl, rfl⟩
    ⟨_, rfl, rfl⟩
  · exact ⟨hall false, hall true⟩
  · simp only [handlerParts, List.cons_append, List.nil_append, List.mem_cons, List.not_mem_nil,
      or_false] at hi
    rcases hi with rfl | rfl | rfl | rfl | rfl | rfl <;>
      exact ⟨by decide, by decide, fun v hv => by cases hv⟩

end

end GmlLift
