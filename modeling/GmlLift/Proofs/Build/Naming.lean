import GmlLift.Proofs.Build.Leniency
import GmlLift.Proofs.Frame.Declaration

/-! # The names of the functions that building gives

Each function is built in a frame of its own and waits in the frame around it, without a name. If
all straight-line code names functions by declarations alone, so does the whole build: every
function in its statements has the name that goes with its entry. -/
namespace GmlLift

/-- The pieces of straight-line code that a visit of a node executes. -/
def Node.pieces (n : Node) : List (List Instr) := match n.kind with
  | .block is => [is]
  | .switch values => values
  | _ => []

/-- The code of all nodes names functions by declarations alone. -/
def Graph.Tidy (names : String → Option String) (anonymous : List String) (g : Graph) : Prop :=
  ∀ n, ∀ is ∈ (g.node n).pieces, GmlLift.Tidy names anonymous is

namespace Build

variable {names : String → Option String} {anonymous : List String} {α β : Type}

/-- Whenever a builder returns from a quiet frame, the frame is quiet and the result as it
should be. -/
def Keeps (names : String → Option String) (anonymous : List String) (b : Builder α)
    (Q : α → Prop) : Prop :=
  ∀ s a s', s.frame.Quiet names anonymous → b s = .ok (a, s') →
    s'.frame.Quiet names anonymous ∧ Q a

/-- What statements have to be. -/
abbrev Named (names : String → Option String) (body : List Stmt) : Prop :=
  Faithful names (Stmt.gatherIn functionOf body)

theorem keeps_pure {a : α} {Q : α → Prop} (h : Q a) : Keeps names anonymous (pure a) Q := by
  intro s a' s' hs hr
  cases hr
  exact ⟨hs, h⟩

theorem keeps_throw (e : BuildError) (Q : α → Prop) :
    Keeps names anonymous (throw e : Builder α) Q := by
  intro s a s' hs hr
  cases hr

theorem Keeps.bind {b : Builder α} {f : α → Builder β} {Q : α → Prop} {R : β → Prop}
    (hb : Keeps names anonymous b Q) (hf : ∀ a, Q a → Keeps names anonymous (f a) R) :
    Keeps names anonymous (b >>= f) R := by
  intro s c s' hs hr
  obtain ⟨a, s₁, h₁, h₂⟩ := ok_of_bind_run hr
  obtain ⟨hs₁, ha⟩ := hb s a s₁ hs h₁
  exact hf a ha s₁ c s' hs₁ h₂

theorem keeps_lift {x : Except BuildError α} {Q : α → Prop} (h : ∀ a, x = .ok a → Q a) :
    Keeps names anonymous (StateT.lift x) Q := by
  intro s a s' hs hr
  obtain ⟨b, hx, hb⟩ := ok_of_bind hr
  cases hb
  exact ⟨hs, h a hx⟩

theorem keeps_modify {f : State → State}
    (hf : ∀ s, s.frame.Quiet names anonymous → (f s).frame.Quiet names anonymous) :
    Keeps names anonymous (modify f) fun _ => True := by
  intro s a s' hs hr
  cases hr
  exact ⟨hf s hs, trivial⟩

theorem keeps_get :
    Keeps names anonymous (get : Builder State) fun s => s.frame.Quiet names anonymous := by
  intro s a s' hs hr
  cases hr
  exact ⟨hs, hs⟩

theorem keeps_onFrame {step : Step α} {Q : α → Prop} (h : step.Keeps names anonymous Q) :
    Keeps names anonymous (onFrame step) Q := by
  intro s a s' hs hr
  unfold onFrame at hr
  split at hr
  · rename_i a' f hrun
    cases hr
    exact h _ hs _ _ hrun
  · cases hr

theorem keeps_execute (game : Game) {is : List Instr} (h : Tidy names anonymous is) :
    Keeps names anonymous (execute game is) (Named names) := by
  refine (keeps_onFrame (Step.keeps_executeAll game h)).bind fun out hout => ?_
  refine Keeps.bind (keeps_modify ?_) fun _ _ => keeps_pure hout
  intro s hs; exact hs

theorem keeps_pop (address : Nat) (what : String) :
    Keeps names anonymous (pop address what) (Expr.Quiet names anonymous) := by
  intro s a s' hs h
  unfold pop at h
  obtain ⟨s₀, s₁, h₁, h₂⟩ := ok_of_bind_run h
  cases h₁
  cases hstack : s.frame.stack with
  | nil =>
    simp only [hstack] at h₂
    cases h₂
  | cons e rest =>
    simp only [hstack] at h₂
    cases h₂
    obtain ⟨he, hrest⟩ := List.forall_mem_cons.mp (hstack ▸ hs.stack)
    exact ⟨hs.withStack hrest, he⟩

theorem keeps_push {e : Expr} (h : e.Quiet names anonymous) :
    Keeps names anonymous (push e) fun _ => True := keeps_onFrame (Step.keeps_push h)

theorem keeps_height : Keeps names anonymous height fun _ => True :=
  keeps_get.bind fun _ _ => keeps_pure trivial

theorem keeps_finish (settings : Settings) :
    Keeps names anonymous (finish settings) fun _ => True := by
  intro s a s' hs h
  rw [finish_run] at h
  split at h
  · cases h
    exact ⟨hs, trivial⟩
  · split at h
    · cases h
      exact ⟨hs, trivial⟩
    · cases h

/-- The frame around is the same afterwards. -/
theorem Keeps.inFrame {b : Builder α} {Q : α → Prop} (h : Keeps names anonymous b Q) {frame : Frame}
    (hframe : frame.Quiet names anonymous) : Keeps names anonymous (inFrame frame b) Q := by
  refine keeps_get.bind fun outer houter => ?_
  refine Keeps.bind (keeps_modify ?_) fun _ _ => h.bind fun a ha => ?_
  · intro s hs; exact hframe
  · refine Keeps.bind (keeps_modify ?_) fun _ _ => keeps_pure ha
    intro s hs; exact houter

theorem Keeps.withEmptyStack {b : Builder α} {Q : α → Prop} (h : Keeps names anonymous b Q) :
    Keeps names anonymous (withEmptyStack b) Q := by
  refine keeps_get.bind fun s hs => h.bind fun a ha => ?_
  refine Keeps.bind (keeps_modify ?_) fun _ _ => keeps_pure ha
  intro s' hs'; exact hs'.withStack hs.stack

theorem keeps_caseValues (ctx : Context) (address : Nat) {values : List (List Instr)}
    (h : ∀ is ∈ values, Tidy names anonymous is) :
    Keeps names anonymous (caseValues ctx address values) fun es =>
      ∀ e ∈ es, Faithful names (e.gather functionOf) := by
  induction values with
  | nil => exact keeps_pure fun _ he => (List.not_mem_nil he).elim
  | cons is rest ih =>
    obtain ⟨his, hrest⟩ := List.forall_mem_cons.mp h
    refine Keeps.bind (keeps_modify ?_) fun _ _ => ?_
    · intro s hs; exact hs.withStack fun _ he => (List.not_mem_nil he).elim
    refine (keeps_execute ctx.game his).bind fun _ _ => (keeps_pop address _).bind fun e he => ?_
    refine (ih hrest).bind fun es hes => keeps_pure ?_
    exact List.forall_mem_cons.mpr ⟨he.faithful, hes⟩

theorem faithful_labels {values : List Expr} {ls : List CaseLabel} {es : List (Option Expr)}
    (hvalues : ∀ e ∈ values, Faithful names (e.gather functionOf))
    (h : labels values ls = .ok es) : Faithful names (Expr.gatherInLabels functionOf es) := by
  induction ls generalizing es with
  | nil =>
    cases h
    exact faithful_nil
  | cons l rest ih =>
    cases l with
    | otherwise =>
      obtain ⟨es', hes', h⟩ := ok_of_bind h
      cases h
      have hrest := ih hes'
      exact hrest
    | value index =>
      unfold labels at h
      split at h
      · rename_i e he
        obtain ⟨es', hes', h⟩ := ok_of_bind h
        cases h
        exact faithful_append.mpr ⟨hvalues e (List.mem_of_getElem? he), ih hes'⟩
      · cases h

/-- Only a constructor differs in its body from the statements of its code. -/
theorem declaration_waits (entry : String) (argumentCount : Nat) {body : List Stmt}
    (hbody : Named names body) : (declaration entry argumentCount body).Waiting names entry := by
  unfold declaration
  dsimp only
  split
  · rename_i function args d t rest
    split
    · exact ⟨rfl, rfl, (faithful_append.mp hbody).2⟩
    · exact ⟨rfl, rfl, hbody⟩
  · exact ⟨rfl, rfl, hbody⟩

section

variable {ctx : Context} {chain : Option NodeId → Builder (List Stmt)}
  (hchain : ∀ start, Keeps names anonymous (chain start) (Named names))
include hchain

theorem keeps_function (n : Node) (entry : String) (argumentCount : Nat) :
    Keeps names anonymous (function ctx chain n entry argumentCount)
      (FunctionDecl.Waiting names entry) := by
  refine Keeps.inFrame ((hchain _).bind fun body hbody => ?_) (.empty entry argumentCount)
  exact (keeps_finish _).bind fun _ _ => keeps_pure (declaration_waits entry argumentCount hbody)

theorem keeps_loop (n : Node) (info : LoopInfo) :
    Keeps names anonymous (loop chain n info) (Named names) := by
  unfold loop
  cases info.kind with
  | whileLoop =>
    dsimp only
    split
    · refine (hchain _).bind fun before hbefore => (keeps_pop _ _).bind fun c hc => ?_
      refine (hchain _).bind fun body hbody => keeps_pure ?_
      refine faithful_body_append.mpr ⟨hbefore, faithful_append.mpr ⟨?_, faithful_nil⟩⟩
      exact faithful_append.mpr ⟨hc.faithful, hbody⟩
    · exact (hchain _).bind fun body hbody => keeps_pure (faithful_append.mpr ⟨hbody, faithful_nil⟩)
  | doUntil =>
    refine (hchain _).bind fun body hbody => (keeps_pop _ _).bind fun c hc => keeps_pure ?_
    exact faithful_append.mpr ⟨faithful_append.mpr ⟨hbody, hc.faithful⟩, faithful_nil⟩
  | repeatLoop | withLoop =>
    refine (keeps_pop _ _).bind fun e he => (hchain _).bind fun body hbody => keeps_pure ?_
    exact faithful_append.mpr ⟨faithful_append.mpr ⟨he.faithful, hbody⟩, faithful_nil⟩

theorem keeps_operands (address : Nat) (ns : List NodeId) :
    Keeps names anonymous (operands chain address ns) fun r =>
      Named names r.1 ∧ ∀ e ∈ r.2, Faithful names (e.gather functionOf) := by
  induction ns with
  | nil => exact keeps_pure ⟨faithful_nil, fun _ he => (List.not_mem_nil he).elim⟩
  | cons c rest ih =>
    refine (hchain _).bind fun out hout => (keeps_pop _ _).bind fun e he => ?_
    refine ih.bind fun r hr => keeps_pure ⟨faithful_body_append.mpr ⟨hout, hr.1⟩, ?_⟩
    exact List.forall_mem_cons.mpr ⟨he.faithful, hr.2⟩

theorem keeps_cases (address : Nat) {values : List Expr}
    (hvalues : ∀ e ∈ values, Faithful names (e.gather functionOf)) (ns : List NodeId) :
    Keeps names anonymous (cases ctx chain address values ns) fun cs =>
      Faithful names (SwitchCase.gatherIn functionOf cs) := by
  induction ns with
  | nil => exact keeps_pure faithful_nil
  | cons m rest ih =>
    unfold cases
    dsimp only
    split
    · refine (keeps_lift fun es hes => faithful_labels hvalues hes).bind fun es hes => ?_
      refine (hchain _).bind fun body hbody => ih.bind fun cs hcs => keeps_pure ?_
      exact faithful_append.mpr ⟨faithful_append.mpr ⟨hes, hbody⟩, hcs⟩
    · exact keeps_throw _ _

theorem keeps_optionalBody (head : Option NodeId) :
    Keeps names anonymous (optionalBody chain head) fun b =>
      Faithful names (Stmt.gatherInOption functionOf b) := by
  cases head with
  | none => exact keeps_pure faithful_nil
  | some head => exact (hchain _).bind fun body hbody => keeps_pure hbody

theorem keeps_branch (n : Node) : Keeps names anonymous (branch chain n) (Named names) := by
  refine (hchain _).bind fun before hbefore => (keeps_pop _ _).bind fun condition hc => ?_
  refine keeps_height.bind fun depth _ => (hchain _).bind fun thenBody hthen => ?_
  refine keeps_height.bind fun depth' _ => ?_
  split
  · refine (keeps_pop _ _).bind fun onTrue htrue => (hchain _).bind fun elseBody _ => ?_
    refine keeps_height.bind fun depth'' _ => ?_
    have hternary : Keeps names anonymous (do
        let onFalse ← pop n.start "ternary value"
        push (.ofKind (.ternary condition onTrue onFalse) .var)
        return before) (Named names) := by
      refine (keeps_pop _ _).bind fun onFalse hfalse => (keeps_push ?_).bind fun _ _ =>
        keeps_pure hbefore
      refine .of_faithful ?_ (fun _ h => nomatch h) (fun _ h => nomatch h)
      exact faithful_append.mpr ⟨faithful_nil, faithful_append.mpr
        ⟨faithful_append.mpr ⟨hc.faithful, htrue.faithful⟩, hfalse.faithful⟩⟩
    split
    · exact (keeps_throw _ fun _ => True).bind fun _ _ => hternary
    · exact hternary
  · refine (keeps_optionalBody hchain _).bind fun elseBody helse => keeps_pure ?_
    refine faithful_body_append.mpr ⟨hbefore, faithful_append.mpr ⟨?_, faithful_nil⟩⟩
    refine faithful_append.mpr ⟨faithful_append.mpr ⟨hc.faithful, hthen⟩, ?_⟩
    cases elseBody with
    | none => exact faithful_nil
    | some body =>
      rw [Option.filter_some]
      split
      · exact helse
      · exact faithful_nil

/-- A function that is built waits in the frame until it is pushed. -/
theorem keeps_visit (hg : ctx.graph.Tidy names anonymous) (id : NodeId) :
    Keeps names anonymous (visit ctx chain (ctx.graph.node id)) (Named names) := by
  have hpieces := hg id
  generalize ctx.graph.node id = n at hpieces
  unfold Node.pieces at hpieces
  unfold visit
  cases hn : n.kind with
  | block is =>
    rw [hn] at hpieces
    exact keeps_execute ctx.game (hpieces is List.mem_cons_self)
  | fragment entry argumentCount blocks =>
    refine (keeps_function hchain n entry argumentCount).bind fun d hd => ?_
    refine (keeps_onFrame (Q := fun _ => True) fun f hf u f' hr => ?_).bind fun _ _ =>
      keeps_pure faithful_nil
    cases hr
    refine ⟨⟨hf.stack, fun entry' d' hd' => ?_, hf.returnValue⟩, trivial⟩
    by_cases he : entry' = entry
    · subst he
      rw [Table.get?_insert_self] at hd'
      cases hd'
      exact hd
    · rw [Table.get?_insert_of_ne _ _ he] at hd'
      exact hf.waiting entry' d' hd'
  | loop info => exact keeps_loop hchain n info
  | branch => exact keeps_branch hchain n
  | shortCircuit op =>
    refine (keeps_operands hchain n.start _).bind fun r hr => ?_
    refine (keeps_push ?_).bind fun _ _ => keeps_pure hr.1
    exact .of_faithful (faithful_gatherIn.mpr hr.2) (fun _ h => nomatch h) (fun _ h => nomatch h)
  | staticInit =>
    refine (hchain _).bind fun body hbody => keeps_pure ?_
    split
    · exact faithful_nil
    · exact faithful_append.mpr ⟨hbody, faithful_nil⟩
  | nullish =>
    refine (keeps_pop _ _).bind fun left hleft => (hchain _).bind fun out hout => ?_
    refine (keeps_pop _ _).bind fun right hright => ?_
    refine (keeps_push ?_).bind fun _ _ => keeps_pure hout
    refine .of_faithful ?_ (fun _ h => nomatch h) (fun _ h => nomatch h)
    exact faithful_append.mpr ⟨faithful_nil, faithful_append.mpr ⟨hleft.faithful, hright.faithful⟩⟩
  | tryCatch name =>
    refine (hchain _).bind fun body hbody => (keeps_optionalBody hchain _).bind fun handler hh => ?_
    refine (keeps_optionalBody hchain _).bind fun cleanup hcleanup => keeps_pure ?_
    refine faithful_append.mpr ⟨faithful_append.mpr ⟨faithful_append.mpr ⟨hbody, ?_⟩, hcleanup⟩,
      faithful_nil⟩
    cases handler with
    | none => exact faithful_nil
    | some b => exact hh
  | switch values =>
    rw [hn] at hpieces
    refine (keeps_pop _ _).bind fun value hvalue => ?_
    refine (keeps_caseValues ctx n.start hpieces).withEmptyStack.bind fun es hes => ?_
    refine (keeps_cases hchain n.start hes _).bind fun cs hcs => keeps_pure ?_
    exact faithful_append.mpr ⟨faithful_append.mpr ⟨hvalue.faithful, hcs⟩, faithful_nil⟩
  | breakJump | continueJump | switchCase _ | empty => exact keeps_pure faithful_nil

end

theorem keeps_chainFrom {g : Graph} {visit : NodeId → Builder (List Stmt)}
    (hvisit : ∀ n, Keeps names anonymous (visit n) (Named names)) (fuel : Nat) (seen : List NodeId)
    (start : Option NodeId) :
    Keeps names anonymous (chainFrom g visit fuel seen start) (Named names) := by
  induction fuel generalizing seen start with
  | zero => exact keeps_pure faithful_nil
  | succ fuel ih =>
    cases start with
    | none => exact keeps_pure faithful_nil
    | some n =>
      unfold chainFrom
      split
      · exact keeps_pure faithful_nil
      · refine (hvisit n).bind fun out hout => ?_
        refine (keeps_lift fun _ _ => trivial).bind fun following _ => ?_
        exact (ih (n :: seen) following).bind fun more hmore =>
          keeps_pure (faithful_body_append.mpr ⟨hout, hmore⟩)

theorem keeps_node {ctx : Context} (hg : ctx.graph.Tidy names anonymous) (fuel : Nat) (n : NodeId) :
    Keeps names anonymous (node ctx fuel n) (Named names) := by
  induction fuel generalizing n with
  | zero => exact keeps_throw _ _
  | succ fuel ih => exact keeps_visit (keeps_chainFrom ih _ _) hg n

/-- Every function in what is built has the name that goes with its entry. -/
theorem named_root {g : Graph} {game : Game} {settings : Settings} {body : List Stmt} {s : State}
    (hg : g.Tidy names anonymous) (h : root g game settings = .ok (body, s)) : Named names body := by
  unfold root at h
  split at h
  · cases h
  · rename_i root hroot
    dsimp only at h
    split at h
    · rename_i entry argumentCount _ _
      have hchain := keeps_chainFrom (g := g)
        (@keeps_node names anonymous ⟨g, game, settings⟩ hg (depthBound g)) (g.nodes.size + 1) []
        (child (g.node root) Slot.head)
      have hbuild := hchain.bind fun body hbody =>
        (keeps_finish settings).bind fun _ _ => keeps_pure (a := body) hbody
      exact (hbuild _ _ _ (.empty entry argumentCount) h).2
    · cases h

end Build

end GmlLift
