import GmlLift.Frame.Execute
import GmlLift.Proofs.Table
import GmlLift.Proofs.Tree.Functions

/-! # The names that straight-line code gives to functions

Only a store to a variable names a function, and only when a copy of the function is stored to a
name that goes with its entry. Code whose other variables bind no function keeps the functions on
the stack as they are. The declaration of a function, as the compiler lays it out, leaves it as a
statement with its name. -/
namespace GmlLift

/-! ## Frames that hold no function to be named -/

/-- A store to the variable binds none of the functions that should stay without a name. -/
def Harmless (anonymous : List String) (variable' : String) : Prop :=
  ∀ f ∈ anonymous, bindsFunction variable' f = false

/-- A value on the stack. A function there is one without a name. -/
structure Expr.Quiet (names : String → Option String) (anonymous : List String) (e : Expr) :
    Prop where
  faithful : Faithful names (e.gather functionOf)
  nameless : ∀ d, e.kind = .function d → d.entry ∈ anonymous ∧ names d.entry = none
  harmless : ∀ v, e.kind = .var v → Harmless anonymous v.name

/-- A function that is built and not pushed yet. -/
structure FunctionDecl.Waiting (names : String → Option String) (entry : String)
    (d : FunctionDecl) : Prop where
  ofEntry : d.entry = entry
  unnamed : d.name = none
  faithful : Faithful names (d.gather functionOf)

structure Frame.Quiet (names : String → Option String) (anonymous : List String) (f : Frame) :
    Prop where
  stack : ∀ e ∈ f.stack, e.Quiet names anonymous
  waiting : ∀ entry d, f.functions.get? entry = some d → d.Waiting names entry
  returnValue : ∀ e, f.returnValue = some e → e.Quiet names anonymous

/-- If the step returns from this frame, it is quiet afterwards and the result as it should be. -/
def Step.KeepsFrom (names : String → Option String) (anonymous : List String) (f : Frame) {α : Type}
    (step : Step α) (Q : α → Prop) : Prop :=
  ∀ a f', step f = .ok a f' → f'.Quiet names anonymous ∧ Q a

/-- A step that keeps every frame quiet. -/
def Step.Keeps (names : String → Option String) (anonymous : List String) {α : Type} (step : Step α)
    (Q : α → Prop) : Prop :=
  ∀ f, f.Quiet names anonymous → step.KeepsFrom names anonymous f Q

variable {names : String → Option String} {anonymous : List String} {α β : Type}

/-- Neither a function nor a variable. -/
theorem Expr.Quiet.of_faithful {e : Expr} (h : Faithful names (e.gather functionOf))
    (hd : ∀ d, e.kind ≠ .function d) (hv : ∀ v, e.kind ≠ .var v) : e.Quiet names anonymous :=
  ⟨h, fun d hk => absurd hk (hd d), fun v hk => absurd hk (hv v)⟩

/-- The stack facts of a value do not matter. -/
theorem Expr.Quiet.of_kind {e e' : Expr} (h : e.Quiet names anonymous) (hk : e'.kind = e.kind) :
    e'.Quiet names anonymous := by
  refine ⟨?_, fun d hd => h.nameless d (hk ▸ hd), fun v hv => h.harmless v (hk ▸ hv)⟩
  rw [Expr.gather_eq, hk, ← Expr.gather_eq]
  exact h.faithful

namespace Frame.Quiet

variable {f : Frame}

theorem empty (entry : String) (argumentCount : Nat) :
    Frame.Quiet names anonymous { entry, argumentCount } :=
  ⟨fun _ he => (List.not_mem_nil he).elim, fun _ _ h => (nomatch h), fun _ h => (nomatch h)⟩

theorem withStack (h : f.Quiet names anonymous) {stack : List Expr}
    (hs : ∀ e ∈ stack, e.Quiet names anonymous) : Frame.Quiet names anonymous { f with stack } :=
  ⟨hs, h.waiting, h.returnValue⟩

end Frame.Quiet

namespace Step

theorem keeps_pure {a : α} {Q : α → Prop} (h : Q a) : Keeps names anonymous (pure a) Q := by
  intro f hf a' f' hr
  cases hr
  exact ⟨hf, h⟩

theorem keeps_throw (e : BuildError) (Q : α → Prop) :
    Keeps names anonymous (throw e : Step α) Q := by
  intro f hf a f' hr
  cases hr

theorem ok_of_bind_step {x : Step α} {y : α → Step β} {f f' : Frame} {b : β}
    (h : (x >>= y) f = .ok b f') : ∃ a f₁, x f = .ok a f₁ ∧ y a f₁ = .ok b f' := by
  simp only [bind, EStateM.bind] at h
  cases hx : x f with
  | ok a f₁ =>
    rw [hx] at h
    exact ⟨a, f₁, rfl, h⟩
  | error e f₁ =>
    rw [hx] at h
    cases h

theorem Keeps.bind {x : Step α} {y : α → Step β} {Q : α → Prop} {R : β → Prop}
    (hx : Keeps names anonymous x Q) (hy : ∀ a, Q a → Keeps names anonymous (y a) R) :
    Keeps names anonymous (x >>= y) R := by
  intro f hf b f' hr
  obtain ⟨a, f₁, h₁, h₂⟩ := ok_of_bind_step hr
  obtain ⟨hf₁, ha⟩ := hx f hf a f₁ h₁
  exact hy a ha f₁ hf₁ b f' h₂

theorem Keeps.map {x : Step α} {g : α → β} {Q : α → Prop} {R : β → Prop}
    (hx : Keeps names anonymous x Q) (hg : ∀ a, Q a → R (g a)) :
    Keeps names anonymous (g <$> x) R := by
  intro f hf b f' hr
  simp only [Functor.map, EStateM.map] at hr
  cases hxf : x f with
  | ok a f₁ =>
    rw [hxf] at hr
    cases hr
    obtain ⟨hf₁, ha⟩ := hx f hf a f' hxf
    exact ⟨hf₁, hg a ha⟩
  | error e f₁ =>
    rw [hxf] at hr
    cases hr

/-- Look at the frame and go on. -/
theorem keeps_get_bind {y : Frame → Step β} {R : β → Prop}
    (hy : ∀ f, f.Quiet names anonymous → (y f).KeepsFrom names anonymous f R) :
    Keeps names anonymous (get >>= y) R := by
  intro f hf b f' hr
  obtain ⟨a, f₁, h₁, h₂⟩ := ok_of_bind_step hr
  cases h₁
  exact hy f hf b f' h₂

theorem get_run (f : Frame) : (get : Step Frame) f = .ok f f := rfl

theorem pop_run (i : Instr) (f : Frame) : pop i f = match f.stack with
    | [] => .error (.underflow i.address i.text) f
    | e :: rest => .ok e { f with stack := rest } := by
  obtain ⟨entry, argumentCount, stack, functions, returnValue⟩ := f
  cases stack <;> rfl

theorem keeps_pop (i : Instr) : Keeps names anonymous (pop i) (Expr.Quiet names anonymous) := by
  intro f hf e f' h
  rw [pop_run] at h
  split at h
  · cases h
  · rename_i e' rest hstack
    cases h
    have hall := hstack ▸ hf.stack
    exact ⟨hf.withStack fun e he => hall e (List.mem_cons_of_mem _ he), hall _ List.mem_cons_self⟩

theorem keeps_popMany (i : Instr) (n : Nat) : Keeps names anonymous (popMany i n)
    fun es => ∀ e ∈ es, e.Quiet names anonymous := by
  induction n with
  | zero => exact keeps_pure fun _ he => (List.not_mem_nil he).elim
  | succ n ih =>
    refine (keeps_pop i).bind fun e he => ih.bind fun es hes => keeps_pure ?_
    exact List.forall_mem_cons.mpr ⟨he, hes⟩

theorem keeps_push {e : Expr} (h : e.Quiet names anonymous) :
    Keeps names anonymous (push e) fun _ => True := by
  intro f hf u f' hr
  cases hr
  exact ⟨hf.withStack (List.forall_mem_cons.mpr ⟨h, hf.stack⟩), trivial⟩

/-! ## Variables -/

theorem faithful_ofExpr {e : Expr} (h : Faithful names (e.gather functionOf)) :
    Faithful names ((Holder.ofExpr e).gather functionOf) := by
  unfold Holder.ofExpr
  split
  · exact faithful_nil
  · split
    · split
      · exact faithful_nil
      · split
        · split
          · exact faithful_nil
          · exact h
        · exact h
    · exact h

theorem faithful_splitLegacyIndex? {index first second : Expr}
    (h : Faithful names (index.gather functionOf))
    (hs : splitLegacyIndex? index = some (first, second)) :
    Faithful names (first.gather functionOf) ∧ Faithful names (second.gather functionOf) := by
  unfold splitLegacyIndex? at hs
  split at hs
  · rename_i left second' hk
    rw [Expr.gather_eq, hk] at h
    obtain ⟨hleft, hsecond⟩ := faithful_append.mp (faithful_append.mp h).2
    split at hs
    · rename_i first' stride hk'
      rw [Expr.gather_eq, hk'] at hleft
      obtain ⟨hfirst, -⟩ := faithful_append.mp (faithful_append.mp hleft).2
      split at hs
      · cases hs
        exact ⟨hfirst, hsecond⟩
      · cases hs
    · cases hs
  · cases hs

/-- A variable has the name of its operand and its parts from the stack. -/
theorem keeps_access (game : Game) (i : Instr) (v : VariableOperand) :
    Keeps names anonymous (access game i v) fun t =>
      t.name = v.name ∧ Faithful names (t.gather functionOf) := by
  unfold access
  split
  · refine (keeps_pop i).bind fun index hindex => (keeps_pop i).bind fun holder hholder => ?_
    have hholder := faithful_ofExpr hholder.faithful
    split
    · rename_i first second hsplit
      split at hsplit
      · cases hsplit
      · obtain ⟨hfirst, hsecond⟩ := faithful_splitLegacyIndex? hindex.faithful hsplit
        refine keeps_pure ⟨rfl, faithful_append.mpr ⟨hholder, faithful_gatherIn.mpr ?_⟩⟩
        exact List.forall_mem_cons.mpr ⟨hfirst, List.forall_mem_singleton.mpr hsecond⟩
    · refine keeps_pure ⟨rfl, faithful_append.mpr ⟨hholder, faithful_gatherIn.mpr ?_⟩⟩
      exact List.forall_mem_singleton.mpr hindex.faithful
  · split
    · refine (keeps_pop i).bind fun holder hholder => keeps_pure ⟨rfl, ?_⟩
      exact faithful_append.mpr ⟨faithful_ofExpr hholder.faithful, faithful_nil⟩
    · refine keeps_pure ⟨rfl, faithful_append.mpr ⟨?_, faithful_nil⟩⟩
      unfold Holder.ofCode
      split <;> exact faithful_nil

/-! ## Stores -/

end Step

/-! ## Stores -/

theorem Expr.kind_withKind (e : Expr) {k : ExprKind} : (e.withKind k).kind = k := by
  cases e
  rfl

namespace Assign

/-- What a store leaves on the stack is quiet, and the functions of its statement have their
names. -/
def Outcome.Quiet (names : String → Option String) (anonymous : List String) : Outcome → Prop
  | .top e => e.Quiet names anonymous
  | .statement s => Faithful names (s.gather functionOf)

variable {target : Var} {value : Expr} (top : Option Expr)

theorem binding?_eq_none (hh : Harmless anonymous target.name)
    (hvalue : value.Quiet names anonymous) : binding? target value top = none := by
  unfold binding?
  split
  · rename_i decl d dup t hk
    have hm := (hvalue.nameless decl hk).1
    rw [hh _ hm, Bool.and_false]
    rfl
  · rfl

theorem quiet_update {op : BinaryOp} {left right : Expr} {o : Outcome}
    (ht : Faithful names (target.gather functionOf))
    (hr : Faithful names (right.gather functionOf))
    (h : update target value op left right top = some o) : o.Quiet names anonymous := by
  have hstep {e : Expr} {side : Side} {increment : Bool}
      (hk : e.kind = .step target side increment) : e.Quiet names anonymous := by
    refine .of_faithful ?_ (fun d hd => ?_) fun v hv => ?_
    · rw [Expr.gather_eq, hk]
      exact faithful_append.mpr ⟨faithful_nil, ht⟩
    · rw [hk] at hd
      cases hd
    · rw [hk] at hv
      cases hv
  unfold update at h
  dsimp only at h
  split at h
  · cases h
    exact hstep rfl
  · rename_i t _ _
    cases h
    exact hstep t.kind_withKind
  · split at h
    · cases h
      exact faithful_append.mpr ⟨ht, hr⟩
    · cases h

theorem quiet_outcome (hh : Harmless anonymous target.name)
    (ht : Faithful names (target.gather functionOf)) (hvalue : value.Quiet names anonymous) :
    (outcome target value top).Quiet names anonymous := by
  unfold outcome
  rw [binding?_eq_none top hh hvalue]
  dsimp only
  split
  · rename_i o ho
    unfold update? at ho
    split at ho
    · rename_i op left right hk
      have hparts := hvalue.faithful
      rw [Expr.gather_eq, hk] at hparts
      obtain ⟨-, hr⟩ := faithful_append.mp (faithful_append.mp hparts).2
      split at ho
      · exact quiet_update top ht hr ho
      · cases ho
    · cases ho
  · exact faithful_append.mpr ⟨ht, hvalue.faithful⟩

end Assign

namespace Step

theorem assign_run (target : Var) (value : Expr) (f : Frame) :
    assign target value f = .ok (f.assign target value).2 (f.assign target value).1 := rfl

theorem keeps_assign {target : Var} {value : Expr} (hh : Harmless anonymous target.name)
    (ht : Faithful names (target.gather functionOf)) (hvalue : value.Quiet names anonymous) :
    Keeps names anonymous (assign target value) fun out =>
      Faithful names (Stmt.gatherIn functionOf out) := by
  intro f hf out f' h
  have hq := Assign.quiet_outcome f.stack.head? hh ht hvalue
  rw [assign_run] at h
  unfold Frame.assign at h
  split at h
  · rename_i e he
    rw [he] at hq
    cases h
    refine ⟨hf.withStack (List.forall_mem_cons.mpr ⟨hq, fun x hx => ?_⟩), faithful_nil⟩
    exact hf.stack x (List.mem_of_mem_drop hx)
  · rename_i s hs
    rw [hs] at hq
    cases h
    exact ⟨hf, faithful_append.mpr ⟨hq, faithful_nil⟩⟩

end Step

/-! ## Instructions -/

/-- A function that the instruction pushes has no name, and its variable binds none of those. -/
structure Instr.Plain (names : String → Option String) (anonymous : List String) (i : Instr) :
    Prop where
  nameless : ∀ f, i.operand = .function f → f ∈ anonymous ∧ names f = none
  harmless : ∀ v, i.operand = .var v → Harmless anonymous v.name

theorem FunctionDecl.Waiting.quiet {entry : String} {d : FunctionDecl}
    (h : d.Waiting names entry) (hentry : entry ∈ anonymous ∧ names entry = none) (t : DataType) :
    (Expr.ofKind (.function d) t).Quiet names anonymous := by
  have hname : d.name = names d.entry := by rw [h.unnamed, h.ofEntry, hentry.2]
  refine ⟨faithful_cons.mpr ⟨hname, h.faithful⟩, fun d' hd' => ?_, fun v hv => (nomatch hv)⟩
  cases hd'
  exact h.ofEntry ▸ hentry

theorem quiet_ofVar {v : Var} (hn : Harmless anonymous v.name)
    (h : Faithful names (v.gather functionOf)) : (Expr.ofVar v).Quiet names anonymous := by
  refine ⟨faithful_append.mpr ⟨faithful_nil, h⟩, fun d hd => (nomatch hd), fun w hw => ?_⟩
  cases hw
  exact hn

namespace Step

theorem keeps_pushed (game : Game) {i : Instr} (hi : i.Plain names anonymous) :
    Keeps names anonymous (pushed game i) (Expr.Quiet names anonymous) := by
  have hliteral {k : ExprKind} {t : DataType} (hg : k.gatherAll functionOf = [])
      (hd : ∀ d, k ≠ .function d) (hv : ∀ v, k ≠ .var v) :
      Keeps names anonymous (pure (.ofKind k t)) (Expr.Quiet names anonymous) := by
    refine keeps_pure (.of_faithful ?_ hd hv)
    rw [Expr.gather_eq]
    exact hg ▸ faithful_nil
  unfold pushed
  split
  · exact hliteral rfl nofun nofun
  · exact hliteral rfl nofun nofun
  · exact hliteral rfl nofun nofun
  · exact hliteral rfl nofun nofun
  · exact hliteral rfl nofun nofun
  · exact hliteral rfl nofun nofun
  · rename_i name ho
    refine keeps_get_bind fun f hf => ?_
    split
    · rename_i decl hdecl
      intro e f' h
      cases h
      have hwaiting := hf.waiting name decl hdecl
      exact ⟨⟨hf.stack, fun entry d hd => hf.waiting entry d (Table.get?_of_erase hd),
        hf.returnValue⟩, hwaiting.quiet (hi.nameless name ho) _⟩
    · exact keeps_pure (.of_faithful faithful_nil nofun nofun) f hf
  · rename_i v ho
    refine keeps_get_bind fun f hf => ?_
    split
    · rename_i value hvalue
      intro e f' h
      cases h
      refine ⟨⟨hf.stack, hf.waiting, fun _ he => by cases he⟩, ?_⟩
      split at hvalue
      · exact hf.returnValue _ hvalue
      · cases hvalue
    · refine (keeps_access game i v).bind (fun t ht => ?_) f hf
      exact keeps_pure (quiet_ofVar (ht.1 ▸ hi.harmless v ho) ht.2)
  · exact keeps_throw _ _

theorem keeps_duplicate (i : Instr) (size unit : Nat) :
    Keeps names anonymous (duplicate i size unit) fun _ => True := by
  refine keeps_get_bind fun f hf => ?_
  dsimp only
  split
  · exact keeps_throw _ _ f hf
  · intro u f' h
    cases h
    refine ⟨hf.withStack fun e he => ?_, trivial⟩
    rcases List.mem_append.mp he with he | he
    · obtain ⟨e', he', rfl⟩ := List.mem_map.mp he
      refine (hf.stack e' (List.mem_of_mem_take he')).of_kind ?_
      cases e'
      rfl
    · exact hf.stack e he

theorem keeps_swap (i : Instr) (topBytes belowBytes : Nat) :
    Keeps names anonymous (swap i topBytes belowBytes) fun _ => True := by
  refine keeps_get_bind fun f hf => ?_
  split
  · exact keeps_throw _ _ f hf
  · dsimp only
    split
    · exact keeps_throw _ _ f hf
    · intro u f' h
      cases h
      refine ⟨hf.withStack fun e he => ?_, trivial⟩
      simp only [List.mem_append] at he
      rcases he with (he | he) | he
      · exact hf.stack e (List.mem_of_mem_drop (List.mem_of_mem_take he))
      · exact hf.stack e (List.mem_of_mem_take he)
      · exact hf.stack e (List.mem_of_mem_drop (List.mem_of_mem_drop he))

theorem keeps_sink (i : Instr) (size : Nat) :
    Keeps names anonymous (sink i size) fun _ => True := by
  refine (keeps_pop i).bind fun top htop => keeps_get_bind fun f hf => ?_
  dsimp only
  split
  · intro u f' h
    cases h
    refine ⟨hf.withStack fun e he => ?_, trivial⟩
    rcases List.mem_append.mp he with he | he
    · exact hf.stack e (List.mem_of_mem_take he)
    · rcases List.mem_cons.mp he with rfl | he
      · exact htop
      · exact hf.stack e (List.mem_of_mem_drop he)
  · exact keeps_throw _ _ f hf

theorem keeps_store (game : Game) {i : Instr} {v : VariableOperand} (ho : i.operand = .var v)
    (hi : i.Plain names anonymous) : Keeps names anonymous (store game i v) fun out =>
      Faithful names (Stmt.gatherIn functionOf out) := by
  have hend {target : Var} {value : Expr}
      (ht : target.name = v.name ∧ Faithful names (target.gather functionOf))
      (hvalue : value.Quiet names anonymous) : Keeps names anonymous
        (if v.name = returnTemp then do
          modify fun f => { f with returnValue := some value }
          return []
        else assign target value) fun out => Faithful names (Stmt.gatherIn functionOf out) := by
    split
    · intro f hf out f' h
      cases h
      refine ⟨⟨hf.stack, hf.waiting, fun e he => ?_⟩, faithful_nil⟩
      cases he
      exact hvalue
    · exact keeps_assign (ht.1 ▸ hi.harmless v ho) ht.2 hvalue
  unfold store
  dsimp only
  split
  · have hfirst : Keeps names anonymous (some <$> pop i) fun first =>
        ∃ e, first = some e ∧ e.Quiet names anonymous :=
      (keeps_pop i).map fun e he => ⟨e, rfl, he⟩
    refine hfirst.bind fun first hfirst => (keeps_access game i v).bind fun target ht => ?_
    obtain ⟨e, rfl, he⟩ := hfirst
    exact hend ht he
  · refine (keeps_access game i v).bind fun target ht => ?_
    exact (keeps_pop i).bind fun value hvalue => hend ht hvalue

theorem faithful_dropped {e : Expr} (h : e.Quiet names anonymous) :
    Faithful names ((dropped e).gather functionOf) := by
  have he := h.faithful
  unfold dropped
  split
  · rename_i decl hk
    split
    · rw [Expr.gather_eq, hk] at he
      exact he
    · exact he
  · rename_i value hk
    rw [Expr.gather_eq, hk] at he
    exact (faithful_append.mp he).2
  · exact he

theorem quiet_converted (game : Game) (type : DataType) {e : Expr} (h : e.Quiet names anonymous) :
    (converted game type e).Quiet names anonymous := by
  have htype {e : Expr} (h : e.Quiet names anonymous) :
      (e.withStackType type).Quiet names anonymous := by
    refine h.of_kind ?_
    cases e
    rfl
  unfold converted
  dsimp only
  split
  · split
    · refine htype (.of_faithful ?_ (fun d hd => ?_) fun v hv => ?_)
      · rw [Expr.gather_eq, Expr.kind_withKind]
        exact faithful_nil
      · rw [Expr.kind_withKind] at hd
        cases hd
      · rw [Expr.kind_withKind] at hv
        cases hv
    · exact htype h
  · exact htype h

/-- Push a value and complete no statement. -/
theorem keeps_pushOnly {e : Expr} (h : e.Quiet names anonymous) :
    Keeps names anonymous (do push e; return ([] : List Stmt)) fun out =>
      Faithful names (Stmt.gatherIn functionOf out) :=
  (keeps_push h).bind fun _ _ => keeps_pure faithful_nil

theorem faithful_pushIndex {v : Var} {e : Expr} (hv : Faithful names (v.gather functionOf))
    (he : Faithful names (e.gather functionOf)) :
    Faithful names ((v.pushIndex e).gather functionOf) := by
  obtain ⟨n, holder, indices, l⟩ := v
  obtain ⟨hholder, hindices⟩ := faithful_append.mp hv
  refine faithful_append.mpr ⟨hholder, faithful_gatherIn.mpr fun x hx => ?_⟩
  rcases List.mem_append.mp hx with hx | hx
  · exact faithful_gatherIn.mp hindices x hx
  · rw [List.mem_singleton.mp hx]
    exact he

theorem name_pushIndex (v : Var) (e : Expr) : (v.pushIndex e).name = v.name := by
  cases v
  rfl

/-- What a quiet variable on the stack is. -/
theorem Expr.Quiet.var {e : Expr} {v : Var} (h : e.Quiet names anonymous) (hk : e.kind = .var v) :
    Harmless anonymous v.name ∧ Faithful names (v.gather functionOf) := by
  have he := h.faithful
  rw [Expr.gather_eq, hk] at he
  exact ⟨h.harmless v hk, (faithful_append.mp he).2⟩

/-- One more index leaves a quiet variable quiet. -/
theorem Expr.Quiet.indexed {v : Var} {d : Bool} {t : DataType} {index : Expr}
    (h : Expr.Quiet names anonymous ⟨.var v, d, t⟩) (hindex : index.Quiet names anonymous) :
    Expr.Quiet names anonymous ⟨.var (v.pushIndex index), d, t⟩ := by
  obtain ⟨hn, hv⟩ := Expr.Quiet.var h rfl
  refine (quiet_ofVar ?_ (faithful_pushIndex hv hindex.faithful)).of_kind rfl
  rwa [name_pushIndex]

theorem keeps_extended (game : Game) {i : Instr} : Keeps names anonymous (extended game i)
    fun out => Faithful names (Stmt.gatherIn functionOf out) := by
  unfold extended
  split
  · exact keeps_pure faithful_nil
  · exact keeps_pure faithful_nil
  · exact keeps_pure faithful_nil
  · exact keeps_pure faithful_nil
  · exact (keeps_pop i).bind fun _ _ => keeps_pure faithful_nil
  · refine (keeps_pop i).bind fun index hindex => (keeps_pop i).bind fun c hc => ?_
    split
    · exact keeps_pushOnly (Expr.Quiet.indexed hc hindex)
    · exact keeps_throw _ _
  · refine (keeps_pop i).bind fun index hindex => (keeps_pop i).bind fun c hc => ?_
    split
    · exact keeps_pushOnly (Expr.Quiet.indexed hc hindex)
    · exact keeps_throw _ _
  · refine (keeps_pop i).bind fun index hindex => (keeps_pop i).bind fun c hc => ?_
    refine (keeps_pop i).bind fun value hvalue => ?_
    split
    · rename_i v hk
      obtain ⟨hn, hv⟩ := Expr.Quiet.var hc hk
      refine keeps_assign ?_ (faithful_pushIndex hv hindex.faithful) hvalue
      rwa [name_pushIndex]
    · exact keeps_throw _ _
  · split
    · dsimp only
      refine keeps_pushOnly ?_
      split
      · split <;> exact .of_faithful faithful_nil nofun nofun
      · exact .of_faithful faithful_nil nofun nofun
      · exact .of_faithful faithful_nil nofun nofun
    · exact keeps_throw _ _
  all_goals exact keeps_throw _ _

theorem construct_eq (maker : Expr) (args : List Expr) :
    (∃ fields, Call.construct maker args = .struct fields) ∨
      Call.construct maker args = .new maker args := by
  unfold Call.construct
  dsimp only
  split
  · exact .inl ⟨_, rfl⟩
  · exact .inr rfl

/-- A call that stands for a function gives the function that it was passed. -/
theorem quiet_callExpr {function : String} {args : List Expr}
    (h : ∀ e ∈ args, e.Quiet names anonymous) : (Call.expr function args).Quiet names anonymous := by
  have hargs : ∀ e ∈ args, Faithful names (e.gather functionOf) := fun e he => (h e he).faithful
  have hplain : (Expr.ofKind (.call function args) .var).Quiet names anonymous :=
    .of_faithful (faithful_gatherIn.mpr hargs) (fun _ h => by cases h) (fun _ h => by cases h)
  unfold Call.expr
  dsimp only
  split
  · exact .of_faithful (faithful_gatherIn.mpr hargs) (fun _ h => by cases h) (fun _ h => by cases h)
  split
  · split
    · rename_i maker rest
      obtain ⟨hmaker, hrest⟩ := List.forall_mem_cons.mp hargs
      have hfaithful := faithful_construct hmaker hrest
      rcases construct_eq maker rest with ⟨fields, hk⟩ | hk
      · rw [hk] at hfaithful ⊢
        exact .of_faithful hfaithful (fun _ h => by cases h) (fun _ h => by cases h)
      · rw [hk] at hfaithful ⊢
        exact .of_faithful hfaithful (fun _ h => by cases h) (fun _ h => by cases h)
    · exact hplain
  split
  · split
    · rename_i value
      have hvalue := (List.forall_mem_cons.mp hargs).1
      exact .of_faithful (faithful_append.mpr ⟨faithful_nil, hvalue⟩)
        (fun _ h => by cases h) (fun _ h => by cases h)
    · exact hplain
  split
  · split
    · exact h _ (List.mem_cons_of_mem _ List.mem_cons_self)
    · exact hplain
  split
  · exact .of_faithful faithful_nil (fun _ h => by cases h) (fun _ h => by cases h)
  split
  · exact .of_faithful faithful_nil (fun _ h => by cases h) (fun _ h => by cases h)
  split
  · exact .of_faithful faithful_nil (fun _ h => by cases h) (fun _ h => by cases h)
  · exact hplain

/-- A plain instruction leaves no function on the stack that has a name. -/
theorem keeps_execute (game : Game) {i : Instr} (hi : i.Plain names anonymous) :
    Keeps names anonymous (execute game i) fun out =>
      Faithful names (Stmt.gatherIn functionOf out) := by
  have hpush : Keeps names anonymous (do push (← pushed game i); return ([] : List Stmt))
      fun out => Faithful names (Stmt.gatherIn functionOf out) :=
    (keeps_pushed game hi).bind fun e he => keeps_pushOnly he
  have hpair {left right : Expr} (hl : left.Quiet names anonymous) (hr : right.Quiet names anonymous) :
      Faithful names ([] ++ (left.gather functionOf ++ right.gather functionOf)) :=
    faithful_append.mpr ⟨faithful_nil, faithful_append.mpr ⟨hl.faithful, hr.faithful⟩⟩
  unfold execute
  cases ho : i.opcode with
  | push | pushLoc | pushGlb | pushBltn | pushI => exact hpush
  | mul | div | rem | mod | add | sub | and | or | xor | shl | shr | cmp =>
    refine (keeps_pop i).bind fun right hright => (keeps_pop i).bind fun left hleft => ?_
    split
    · exact keeps_pushOnly (.of_faithful (hpair hleft hright) nofun nofun)
    · exact keeps_throw _ _
  | neg | not =>
    refine (keeps_pop i).bind fun e he => ?_
    exact keeps_pushOnly (.of_faithful he.faithful nofun nofun)
  | conv => exact (keeps_pop i).bind fun e he => keeps_pushOnly (quiet_converted game _ he)
  | dup =>
    cases i.operand with
    | dup size swapped =>
      dsimp only
      split
      · exact (keeps_duplicate i _ _).bind fun _ _ => keeps_pure faithful_nil
      · exact (keeps_swap i _ _).bind fun _ _ => keeps_pure faithful_nil
    | _ => exact keeps_throw _ _
  | popz =>
    refine (keeps_pop i).bind fun e he => keeps_pure ?_
    exact faithful_append.mpr ⟨faithful_dropped he, faithful_nil⟩
  | pop =>
    cases hv : i.operand with
    | popSwap size => exact (keeps_sink i _).bind fun _ _ => keeps_pure faithful_nil
    | var v => exact keeps_store game hv hi
    | _ => exact keeps_throw _ _
  | call =>
    cases i.operand with
    | call function argc =>
      exact (keeps_popMany i _).bind fun args hargs => keeps_pushOnly (quiet_callExpr hargs)
    | _ => exact keeps_throw _ _
  | callV =>
    cases i.argc? with
    | some argc =>
      refine (keeps_pop i).bind fun function hfunction => (keeps_pop i).bind fun holder hholder => ?_
      refine (keeps_popMany i _).bind fun args hargs => keeps_pushOnly ?_
      have hall := faithful_gatherIn.mpr fun e he => (hargs e he).faithful
      exact .of_faithful (faithful_append.mpr ⟨faithful_nil, faithful_append.mpr
        ⟨hpair hfunction hholder, hall⟩⟩) nofun nofun
    | none => exact keeps_throw _ _
  | ret =>
    refine (keeps_pop i).bind fun e he => keeps_pure ?_
    exact faithful_append.mpr ⟨he.faithful, faithful_nil⟩
  | exit => exact keeps_pure faithful_nil
  | popEnv =>
    dsimp only
    split
    · exact keeps_pure faithful_nil
    · exact keeps_throw _ _
  | extended => exact keeps_extended game
  | b | bt | bf | pushEnv => exact keeps_throw _ _

end Step

end GmlLift
