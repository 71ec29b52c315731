import GmlLift.Lift.Session
import GmlLift.Proofs.Build.Visits

/-! # Leftovers as errors and as warnings

Two runs of the same work are compared: one stops at the first function that leaves values on its
stack, the other notes the function and goes on. Up to that point they agree in everything, so the
first warning of the one is the error of the other. -/
namespace GmlLift

/-- The same settings, with leftovers noted. -/
def Settings.lenient (s : Settings) : Settings := { s with allowLeftover := true }

/-! ## Cleaning and layout do not look at leftovers -/

namespace Clean

def Context.lenient (ctx : Context) : Context := { ctx with settings := ctx.settings.lenient }

mutual

theorem expr_lenient (ctx : Context) (e : Expr) : expr ctx.lenient e = expr ctx e := by
  obtain ⟨k, d, t⟩ := e
  rw [expr, expr, kind_lenient ctx k]
  rfl
termination_by structural e

theorem kind_lenient (ctx : Context) (k : ExprKind) : kind ctx.lenient k = kind ctx k := by
  cases k <;>
    simp only [kind, expr_lenient ctx, exprs_lenient ctx, fields_lenient ctx, parts_lenient ctx,
      function_lenient ctx]
termination_by structural k

theorem exprs_lenient (ctx : Context) (es : List Expr) : exprs ctx.lenient es = exprs ctx es := by
  cases es with
  | nil => rfl
  | cons e rest => rw [exprs, exprs, expr_lenient ctx e, exprs_lenient ctx rest]
termination_by structural es

theorem fields_lenient (ctx : Context) (fs : List (String × Expr)) :
    fields ctx.lenient fs = fields ctx fs := by
  cases fs with
  | nil => rfl
  | cons f rest =>
    obtain ⟨n, e⟩ := f
    rw [fields, fields, expr_lenient ctx e, fields_lenient ctx rest]
termination_by structural fs

theorem holder_lenient (ctx : Context) (h : Holder) : holder ctx.lenient h = holder ctx h := by
  cases h with
  | expr e => rw [holder, holder, expr_lenient ctx e]
  | _ => rfl
termination_by structural h

theorem parts_lenient (ctx : Context) (v : Var) : parts ctx.lenient v = parts ctx v := by
  obtain ⟨n, h, indices, l⟩ := v
  rw [parts, parts, holder_lenient ctx h, exprs_lenient ctx indices]
termination_by structural v

/-- A function is cleaned in a context of its own, which takes the settings over. -/
theorem function_lenient (ctx : Context) (d : FunctionDecl) :
    function ctx.lenient d = function ctx d := by
  obtain ⟨entry, name, arguments, isConstructor, body⟩ := d
  have hbody := stmts_lenient (.enter ctx.game ctx.settings entry name) body
  rw [function, function, ← hbody]
  rfl
termination_by structural d

theorem stmt_lenient (ctx : Context) (s : Stmt) : stmt ctx.lenient s = stmt ctx s := by
  have hloops : loopsOf ctx.lenient = loopsOf ctx := rfl
  cases s with
  | assign t v k d =>
    rw [stmt, stmt, parts_lenient ctx t, expr_lenient ctx v]
    rfl
  | returns e =>
    rw [stmt, stmt, expr_lenient ctx e]
    rfl
  | switch v cs =>
    rw [stmt, stmt, expr_lenient ctx v]
    simp only [cases_lenient ctx _ cs]
    rfl
  | whileLoop c b s =>
    cases c <;> simp only [stmt, hloops, expr_lenient ctx, stmts_lenient ctx b]
  | forLoop i c s b =>
    cases i <;>
      simp only [stmt, hloops, expr_lenient ctx, stmt_lenient ctx, stmts_lenient ctx b]
  | withLoop t b =>
    simp only [stmt, hloops, expr_lenient ctx, stmts_lenient ctx b]
    rfl
  | _ =>
    simp only [stmt, hloops, expr_lenient ctx, stmts_lenient ctx, function_lenient ctx,
      optionBlock_lenient ctx, handler_lenient ctx]
termination_by structural s

theorem stmts_lenient (ctx : Context) (body : List Stmt) :
    stmts ctx.lenient body = stmts ctx body := by
  cases body with
  | nil => rfl
  | cons s rest => rw [stmts, stmts, stmt_lenient ctx s, stmts_lenient ctx rest]
termination_by structural body

theorem optionBlock_lenient (ctx : Context) (b : Option (List Stmt)) :
    optionBlock ctx.lenient b = optionBlock ctx b := by
  cases b with
  | none => rfl
  | some b =>
    rw [optionBlock, optionBlock, stmts_lenient ctx b]
    rfl
termination_by structural b

theorem handler_lenient (ctx : Context) (h : Option Handler) :
    handler ctx.lenient h = handler ctx h := by
  cases h with
  | none => rfl
  | some h =>
    obtain ⟨n, b⟩ := h
    rw [handler, handler, stmts_lenient ctx b]
    rfl
termination_by structural h

theorem cases_lenient (ctx : Context) (rule : Option Rule) (cs : List SwitchCase) :
    cases ctx.lenient rule cs = cases ctx rule cs := by
  cases cs with
  | nil => rfl
  | cons c rest =>
    obtain ⟨ls, b⟩ := c
    rw [cases, cases, labels_lenient ctx rule ls, stmts_lenient ctx b, cases_lenient ctx rule rest]
    rfl
termination_by structural cs

theorem labels_lenient (ctx : Context) (rule : Option Rule) (ls : List (Option Expr)) :
    labels ctx.lenient rule ls = labels ctx rule ls := by
  cases ls with
  | nil => rfl
  | cons l rest =>
    cases l with
    | none => rw [labels, labels, labels_lenient ctx rule rest]
    | some e =>
      rw [labels, labels, expr_lenient ctx e, labels_lenient ctx rule rest]
      rfl
termination_by structural ls

end

end Clean

theorem cleanEntry_lenient (game : Game) (s : Settings) (entry : String) (body : List Stmt) :
    cleanEntry game s.lenient entry body = cleanEntry game s entry body := by
  have hbody := Clean.stmts_lenient (.enter game s entry none) body
  have hrun : (Clean.stmts (.enter game s.lenient entry none) body).run {} =
      (Clean.stmts (.enter game s entry none) body).run {} := congrFun hbody {}
  simp only [cleanEntry, hrun]
  rfl

/-- Source text depends on what its lines are made of, which both settings have in common. -/
theorem entrySource_lenient (s : Settings) (enums : EnumTable) (body : List Stmt) :
    entrySource s.lenient enums body = entrySource s enums body := by
  have hbody : Stmt.sourceList s.lenient 0 false body = Stmt.sourceList s 0 false body := by
    -- the recursion takes the settings along unchanged
    delta Stmt.sourceList
    rfl
  have hlines : Source.enumLines s.lenient = Source.enumLines s := by
    delta Source.enumLines
    rfl
  have henums : enums.source s.lenient = enums.source s := by
    unfold EnumTable.source Source.enumDeclaration
    rw [hlines]
    rfl
  unfold entrySource
  rw [hbody, henums]
  rfl

/-! ## Building -/

namespace Build

variable {α β : Type}

/-- A strict run beside a lenient one from the same state: they agree and nothing is noted, or the
strict one stops at what the lenient one notes first. -/
inductive Eased (s : State) : (strict lenient : Except BuildError (α × State)) → Prop
  | same {r : Except BuildError (α × State)}
      (h : ∀ a s', r = .ok (a, s') → s'.warnings = s.warnings) : Eased s r r
  | noted {w : Warning} {a : α} {s' : State} {more : List Warning}
      (h : s'.warnings = s.warnings ++ w :: more) :
      Eased s (.error (.leftover w.count w.entry)) (.ok (a, s'))
  | failed {w : Warning} {e : BuildError} :
      Eased s (.error (.leftover w.count w.entry)) (.error e)

/-- Two builders whose runs from any state are a strict and a lenient one. -/
def Eases (b b' : Builder α) : Prop := ∀ s, Eased s (b s) (b' s)

theorem Eased.of_warnings {s s₁ : State} {r r' : Except BuildError (α × State)}
    (hs : s₁.warnings = s.warnings) (h : Eased s₁ r r') : Eased s r r' := by
  cases h with
  | same h => exact .same fun a s' hr => (h a s' hr).trans hs
  | noted h => exact .noted (hs ▸ h)
  | failed => exact .failed

/-- Warnings are only ever added. -/
theorem Eased.grows {s s' : State} {a : α} {r : Except BuildError (α × State)}
    (h : Eased s r (.ok (a, s'))) : ∃ more, s'.warnings = s.warnings ++ more := by
  cases h with
  | same h => exact ⟨[], (h a s' rfl).trans (List.append_nil _).symm⟩
  | noted h => exact ⟨_, h⟩

theorem Eases.bind {b b' : Builder α} {f f' : α → Builder β} (hb : Eases b b')
    (hf : ∀ a, Eases (f a) (f' a)) : Eases (b >>= f) (b' >>= f') := by
  intro s
  have hs := hb s
  show Eased s (b s >>= fun p => f p.1 p.2) (b' s >>= fun p => f' p.1 p.2)
  generalize b s = r at hs ⊢
  generalize b' s = r' at hs ⊢
  cases hs with
  | same h =>
    cases r with
    | error e => exact .same fun a s' he => nomatch he
    | ok p => exact (hf p.1 p.2).of_warnings (h p.1 p.2 rfl)
  | @noted w a s' more h =>
    -- the strict run is over; the lenient one may still fail
    show Eased s (.error (.leftover w.count w.entry)) (f' a s')
    have hrest := hf a s'
    cases hr : f' a s' with
    | error e => exact .failed
    | ok p =>
      rw [hr] at hrest
      obtain ⟨later, hlater⟩ := hrest.grows
      refine @Eased.noted _ s w p.1 p.2 (more ++ later) ?_
      rw [hlater, h, List.append_assoc, List.cons_append]
  | failed => exact .failed

theorem eases_pure (a : α) : Eases (pure a) (pure a) := by
  intro s
  refine .same fun a' s' h => ?_
  cases h
  rfl

theorem eases_throw (e : BuildError) : Eases (throw e : Builder α) (throw e) :=
  fun _ => .same fun _ _ h => nomatch h

theorem eases_get : Eases (get : Builder State) get := by
  intro s
  refine .same fun a s' h => ?_
  cases h
  rfl

theorem eases_modify {f : State → State} (hf : ∀ s, (f s).warnings = s.warnings) :
    Eases (modify f) (modify f) := by
  intro s
  refine .same fun a s' h => ?_
  cases h
  exact hf s

theorem eases_lift (x : Except BuildError α) : Eases (StateT.lift x) (StateT.lift x) := by
  intro s
  refine .same fun a s' h => ?_
  obtain ⟨b, -, h⟩ := ok_of_bind h
  cases h
  rfl

theorem eases_onFrame (step : Step α) : Eases (onFrame step) (onFrame step) := by
  intro s
  refine .same fun a s' h => ?_
  unfold onFrame at h
  split at h
  · cases h
    rfl
  · cases h

theorem eases_execute (game : Game) (is : List Instr) :
    Eases (execute game is) (execute game is) := by
  refine (eases_onFrame _).bind fun out => ?_
  refine Eases.bind (eases_modify ?_) fun _ => eases_pure out
  intro s; rfl

theorem eases_pop (address : Nat) (what : String) :
    Eases (pop address what) (pop address what) := by
  intro s
  refine .same fun a s' h => ?_
  unfold pop at h
  obtain ⟨s₀, s₁, h₁, h₂⟩ := ok_of_bind_run h
  cases h₁
  cases hstack : s.frame.stack with
  | nil =>
    simp only [hstack] at h₂
    cases h₂
  | cons e rest =>
    simp only [hstack] at h₂
    cases h₂
    rfl

theorem eases_push (e : Expr) : Eases (push e) (push e) := eases_onFrame _

theorem eases_height : Eases height height := eases_get.bind fun _ => eases_pure _

theorem finish_run (settings : Settings) (s : State) :
    finish settings s =
      if s.frame.stack.length = 0 then .ok ((), s)
      else if settings.allowLeftover then
        .ok ((), { s with warnings := s.warnings ++ [⟨s.frame.stack.length, s.frame.entry⟩] })
      else .error (.leftover s.frame.stack.length s.frame.entry) := by
  show (if s.frame.stack.length = 0 then _ else if settings.allowLeftover then _ else _ :
    Builder Unit) s = _
  split
  · rfl
  · split
    · rfl
    · rfl

/-- The end of a function is where the two part. -/
theorem eases_finish {settings : Settings} (hstrict : settings.allowLeftover = false) :
    Eases (finish settings) (finish settings.lenient) := by
  intro s
  rw [finish_run, finish_run, hstrict]
  split
  · refine .same fun a s' h => ?_
    cases h
    rfl
  · exact @Eased.noted _ s ⟨s.frame.stack.length, s.frame.entry⟩ () _ [] rfl

theorem Eases.inFrame {b b' : Builder α} (h : Eases b b') (frame : Frame) :
    Eases (inFrame frame b) (inFrame frame b') := by
  refine eases_get.bind fun outer => Eases.bind (eases_modify ?_) fun _ => h.bind fun a => ?_
  · intro s; rfl
  · refine Eases.bind (eases_modify ?_) fun _ => eases_pure a
    intro s; rfl

theorem Eases.withEmptyStack {b b' : Builder α} (h : Eases b b') :
    Eases (withEmptyStack b) (withEmptyStack b') := by
  refine eases_get.bind fun s => h.bind fun a => ?_
  refine Eases.bind (eases_modify ?_) fun _ => eases_pure a
  intro s; rfl

def Context.lenient (ctx : Context) : Context := { ctx with settings := ctx.settings.lenient }

theorem eases_caseValues (ctx : Context) (address : Nat) (values : List (List Instr)) :
    Eases (caseValues ctx address values) (caseValues ctx.lenient address values) := by
  induction values with
  | nil => exact eases_pure _
  | cons is rest ih =>
    refine Eases.bind (eases_modify ?_) fun _ => ?_
    · intro s; rfl
    refine (eases_execute ctx.game is).bind fun _ => (eases_pop address _).bind fun _ => ?_
    exact ih.bind fun _ => eases_pure _

section

variable {ctx : Context} {chain chain' : Option NodeId → Builder (List Stmt)}
  (hchain : ∀ start, Eases (chain start) (chain' start))
include hchain

theorem eases_function (hstrict : ctx.settings.allowLeftover = false) (n : Node) (entry : String)
    (argumentCount : Nat) : Eases (function ctx chain n entry argumentCount)
      (function ctx.lenient chain' n entry argumentCount) := by
  refine Eases.inFrame ((hchain _).bind fun _ => ?_) _
  exact (eases_finish hstrict).bind fun _ => eases_pure _

theorem eases_loop (n : Node) (info : LoopInfo) :
    Eases (loop chain n info) (loop chain' n info) := by
  unfold loop
  cases info.kind with
  | whileLoop =>
    dsimp only
    split
    · refine (hchain _).bind fun _ => (eases_pop _ _).bind fun _ => ?_
      exact (hchain _).bind fun _ => eases_pure _
    · exact (hchain _).bind fun _ => eases_pure _
  | doUntil => exact (hchain _).bind fun _ => (eases_pop _ _).bind fun _ => eases_pure _
  | repeatLoop | withLoop =>
    exact (eases_pop _ _).bind fun _ => (hchain _).bind fun _ => eases_pure _

theorem eases_operands (address : Nat) (ns : List NodeId) :
    Eases (operands chain address ns) (operands chain' address ns) := by
  induction ns with
  | nil => exact eases_pure _
  | cons c rest ih =>
    refine (hchain _).bind fun _ => (eases_pop _ _).bind fun _ => ?_
    exact ih.bind fun _ => eases_pure _

theorem eases_cases (address : Nat) (values : List Expr) (ns : List NodeId) :
    Eases (cases ctx chain address values ns) (cases ctx.lenient chain' address values ns) := by
  induction ns with
  | nil => exact eases_pure _
  | cons m rest ih =>
    have hnode : ctx.lenient.graph.node m = ctx.graph.node m := rfl
    unfold cases
    rw [hnode]
    dsimp only
    split
    · refine (eases_lift _).bind fun _ => (hchain _).bind fun _ => ?_
      exact ih.bind fun _ => eases_pure _
    · exact eases_throw _

theorem eases_optionalBody (head : Option NodeId) :
    Eases (optionalBody chain head) (optionalBody chain' head) := by
  cases head with
  | none => exact eases_pure _
  | some head => exact (hchain _).bind fun _ => eases_pure _

theorem eases_branch (n : Node) : Eases (branch chain n) (branch chain' n) := by
  refine (hchain _).bind fun before => (eases_pop _ _).bind fun condition => ?_
  refine eases_height.bind fun depth => (hchain _).bind fun thenBody => ?_
  refine eases_height.bind fun depth' => ?_
  split
  · refine (eases_pop _ _).bind fun onTrue => (hchain _).bind fun elseBody => ?_
    refine eases_height.bind fun depth'' => ?_
    have hternary := (eases_pop n.start "ternary value").bind fun onFalse =>
      (eases_push (.ofKind (.ternary condition onTrue onFalse) .var)).bind fun _ =>
        eases_pure before
    split
    · exact (eases_throw _).bind fun _ => hternary
    · exact hternary
  · exact (eases_optionalBody hchain _).bind fun _ => eases_pure _

/-- The settings matter to a visit only at the end of a function inside the node. -/
theorem eases_visit (hstrict : ctx.settings.allowLeftover = false) (n : Node) :
    Eases (visit ctx chain n) (visit ctx.lenient chain' n) := by
  unfold visit
  cases n.kind with
  | block is => exact eases_execute ctx.game is
  | fragment entry argumentCount blocks =>
    refine (eases_function hchain hstrict n entry argumentCount).bind fun _ => ?_
    exact (eases_onFrame _).bind fun _ => eases_pure _
  | loop info => exact eases_loop hchain n info
  | branch => exact eases_branch hchain n
  | shortCircuit op =>
    refine (eases_operands hchain n.start _).bind fun _ => ?_
    exact (eases_push _).bind fun _ => eases_pure _
  | staticInit => exact (hchain _).bind fun _ => eases_pure _
  | nullish =>
    refine (eases_pop _ _).bind fun _ => (hchain _).bind fun _ => ?_
    refine (eases_pop _ _).bind fun _ => ?_
    exact (eases_push _).bind fun _ => eases_pure _
  | tryCatch name =>
    refine (hchain _).bind fun _ => (eases_optionalBody hchain _).bind fun _ => ?_
    exact (eases_optionalBody hchain _).bind fun _ => eases_pure _
  | switch values =>
    refine (eases_pop _ _).bind fun _ => ?_
    refine (eases_caseValues ctx n.start values).withEmptyStack.bind fun _ => ?_
    exact (eases_cases hchain n.start _ _).bind fun _ => eases_pure _
  | breakJump | continueJump | switchCase _ | empty => exact eases_pure _

end

theorem eases_chainFrom {g : Graph} {visit visit' : NodeId → Builder (List Stmt)}
    (hvisit : ∀ n, Eases (visit n) (visit' n)) (fuel : Nat) (seen : List NodeId)
    (start : Option NodeId) :
    Eases (chainFrom g visit fuel seen start) (chainFrom g visit' fuel seen start) := by
  induction fuel generalizing seen start with
  | zero => exact eases_pure _
  | succ fuel ih =>
    cases start with
    | none => exact eases_pure _
    | some n =>
      unfold chainFrom
      split
      · exact eases_pure _
      · refine (hvisit n).bind fun out => (eases_lift _).bind fun following => ?_
        exact (ih (n :: seen) following).bind fun _ => eases_pure _

theorem eases_node {ctx : Context} (hstrict : ctx.settings.allowLeftover = false) (fuel : Nat)
    (n : NodeId) : Eases (node ctx fuel n) (node ctx.lenient fuel n) := by
  induction fuel generalizing n with
  | zero => exact eases_throw _
  | succ fuel ih => exact eases_visit (eases_chainFrom ih _ _) hstrict (ctx.graph.node n)

/-- The whole build starts from a state without warnings. -/
theorem eased_root {g : Graph} {game : Game} {settings : Settings}
    (hstrict : settings.allowLeftover = false) :
    ∃ s, s.warnings = [] ∧ Eased s (root g game settings) (root g game settings.lenient) := by
  unfold root
  split
  · exact ⟨{ frame := { entry := "" } }, rfl, .same fun _ _ h => nomatch h⟩
  · rename_i root hroot
    dsimp only
    split
    · rename_i entry argumentCount _ _
      have hchain := eases_chainFrom (g := g)
        (@eases_node ⟨g, game, settings⟩ hstrict (depthBound g)) (g.nodes.size + 1) []
        (child (g.node root) Slot.head)
      have hbuild := hchain.bind fun body => (eases_finish hstrict).bind fun _ => eases_pure body
      exact ⟨{ frame := { entry, argumentCount } }, rfl, hbuild _⟩
    · exact ⟨{ frame := { entry := "" } }, rfl, .same fun _ _ h => nomatch h⟩

end Build

/-! ## Lifting -/

namespace Session

/-- The source text of a body that was built with some warnings, and the session after it. -/
def written (s : Session) (game : Game) (settings : Settings) (code : CodeEntry)
    (body : List Stmt) (warnings : List Warning) : String × Session :=
  let (body, enums) :=
    if settings.clean then cleanEntry game settings code.name body else (body, {})
  let s := s.add ⟨body, warnings, enums⟩
  (entrySource settings s.enums body, s)

theorem written_warnings (s : Session) (game : Game) (settings : Settings) (code : CodeEntry)
    (body : List Stmt) (warnings : List Warning) :
    (s.written game settings code body warnings).2.warnings = s.warnings ++ warnings := rfl

theorem written_lenient (s : Session) (game : Game) (settings : Settings) (code : CodeEntry)
    (body : List Stmt) (warnings : List Warning) :
    s.written game settings.lenient code body warnings =
      s.written game settings code body warnings := by
  unfold written
  rw [cleanEntry_lenient]
  simp only [entrySource_lenient]
  rfl

/-- A lift analyzes, builds and writes; only the first two can fail. -/
theorem source_eq (s : Session) (game : Game) (settings : Settings) (code : CodeEntry) :
    s.source game settings code = match analyze code game.handlerLayout with
      | .error e => .error ⟨code.name, .flow e⟩
      | .ok g => match Build.root g game settings with
        | .error e => .error ⟨code.name, .build e⟩
        | .ok (body, built) => .ok (s.written game settings code body built.warnings) := by
  unfold source statements lift buildStatements
  cases analyze code game.handlerLayout with
  | error e => rfl
  | ok g =>
    simp only [Except.mapError, bind, Except.bind, pure, Except.pure]
    cases Build.root g game settings with
    | error e => rfl
    | ok p =>
      unfold written
      cases settings.clean with
      | false => rfl
      | true => rfl

/-- Noting leftovers changes nothing where there are none. Where a strict lift stops at leftovers, a
lenient one that succeeds gives them as its first warning. -/
theorem source_lenient (s : Session) (game : Game) (settings : Settings) (code : CodeEntry)
    (hstrict : settings.allowLeftover = false) :
    (∀ text s', s.source game settings code = .ok (text, s') →
      s.source game settings.lenient code = .ok (text, s') ∧ s'.warnings = s.warnings) ∧
    (∀ text s' w more, s.source game settings.lenient code = .ok (text, s') →
      s'.warnings = s.warnings ++ w :: more →
        s.source game settings code = .error ⟨code.name, .build (.leftover w.count w.entry)⟩) ∧
    (∀ e, s.source game settings.lenient code = .error e →
      ∃ e', s.source game settings code = .error e') := by
  rw [source_eq, source_eq]
  cases analyze code game.handlerLayout with
  | error e => simp
  | ok g =>
    obtain ⟨s₀, hs₀, heased⟩ := @Build.eased_root g game settings hstrict
    dsimp only
    generalize Build.root g game settings = strict at heased ⊢
    generalize Build.root g game settings.lenient = lenient at heased ⊢
    cases heased with
    | same h =>
      cases strict with
      | error e => simp
      | ok p =>
        have hquiet : p.2.warnings = [] := (h p.1 p.2 rfl).trans hs₀
        have hnone := written_warnings s game settings code p.1 p.2.warnings
        rw [hquiet, List.append_nil] at hnone
        simp only [written_lenient, hquiet]
        refine ⟨fun text s' he => ⟨he, ?_⟩, fun text s' w more he hnoted => ?_,
          fun e he => (nomatch he)⟩
        · rwa [Except.ok.inj he] at hnone
        · rw [Except.ok.inj he, hnoted] at hnone
          simpa using congrArg List.length hnone
    | @noted w a built more h =>
      rw [hs₀, List.nil_append] at h
      refine ⟨fun text s' he => (nomatch he), fun text s' w' more' he hnoted => ?_,
        fun e he => (nomatch he)⟩
      have hwarnings := written_warnings s game settings.lenient code a built.warnings
      rw [Except.ok.inj he, hnoted, h] at hwarnings
      obtain ⟨rfl, -⟩ := List.cons.inj (List.append_cancel_left hwarnings)
      rfl
    | failed =>
      exact ⟨fun _ _ he => (nomatch he), fun _ _ _ _ he => (nomatch he), fun _ _ => ⟨_, rfl⟩⟩

/-- A function inside an entry and the entry itself, each with a value left over. -/
def twoLeftovers : CodeEntry :=
  { CodeEntry.ofInstrs "outer"
      [⟨0, .b, none, .int32, .int32, .branch 12⟩, ⟨4, .pushI, none, .int16, .int16, .int16 7⟩,
        ⟨8, .exit, none, .int32, .int32, .none⟩, ⟨12, .pushI, none, .int16, .int16, .int16 3⟩,
        ⟨16, .exit, none, .int32, .int32, .none⟩] with
    children := [{ name := "inner", start := 4 }] }

theorem source_lenient_twoLeftovers : (({} : Settings).allowLeftover = false) ∧ ∃ text s',
    ({} : Session).source {} (Settings.lenient {}) twoLeftovers = .ok (text, s') ∧
      s'.warnings = [⟨1, "inner"⟩, ⟨1, "outer"⟩] ∧
      ({} : Session).source {} {} twoLeftovers =
        .error ⟨"outer", .build (.leftover 1 "inner")⟩ := by
  have hrun : ((({} : Session).source {} (Settings.lenient {}) twoLeftovers).toOption.any fun r =>
      decide (r.2.warnings = [⟨1, "inner"⟩, ⟨1, "outer"⟩])) = true := by decide +kernel
  obtain ⟨⟨text, s'⟩, hlenient, hnoted⟩ := ok_of_any hrun
  have hwarnings := of_decide_eq_true hnoted
  obtain ⟨-, hfirst, -⟩ := source_lenient {} {} {} twoLeftovers rfl
  exact ⟨rfl, text, s', hlenient, hwarnings, hfirst _ _ _ _ hlenient hwarnings⟩

end Session

end GmlLift
