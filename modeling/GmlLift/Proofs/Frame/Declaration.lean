import GmlLift.Proofs.Frame.Naming

/-! # The declaration of a function

The compiler declares an embedded function by one sequence of instructions. It pushes the function,
makes it a method and stores a copy of it under its name; what is left on the stack is the function
with that name, which the last instruction completes as a statement. -/
namespace GmlLift

/-- What an instruction does and what it carries. -/
def Instr.shape (i : Instr) : Opcode × Operand := (i.opcode, i.operand)

/-- The null object, which constructors are bound to. -/
def nullObject : String := "@@NullObject@@"

/-- What puts the instance on the stack that a declared function is bound to: a number, or the null
object. -/
inductive BindsTo : List (Opcode × Operand) → Prop
  | number (v : Int16) : BindsTo [(.pushI, .int16 v), (.conv, .none)]
  | null : BindsTo [(.call, .call nullObject 0)]

/-- Code that declares the function of an entry under a name. -/
structure Declaration (entry name : String) (is : List Instr) : Prop where
  shape : ∃ bound target id, BindsTo bound ∧ is.map Instr.shape =
    (.push, .function entry) :: (.conv, .none) :: bound ++
      [(.call, .call Call.method 2), (.dup, .dup 0 0), (.pushI, .int16 target),
        (.pop, .var ⟨name, id, .stackTop⟩), (.popz, .none)]
  valueFirst : ∀ i ∈ is, i.opcode = .pop → i.type1 ≠ .int32
  binds : bindsFunction name entry = true
  kept : name ≠ returnTemp

namespace Step

variable {game : Game} {i : Instr} {f : Frame} {e : Expr} {rest : List Expr}

theorem execute_conv (hi : i.shape = (.conv, .none)) (hf : f.stack = e :: rest) :
    execute game i f = .ok [] { f with stack := converted game i.type2 e :: rest } := by
  obtain ⟨entry, argumentCount, stack, functions, returnValue⟩ := f
  obtain ⟨ho, -⟩ := Prod.mk.inj hi
  subst hf
  unfold execute
  rw [ho]
  rfl

theorem execute_number {v : Int16} (hi : i.shape = (.pushI, .int16 v)) :
    execute game i f = .ok [] { f with stack := .ofKind (.int16 v false) .int16 :: f.stack } := by
  obtain ⟨ho, hv⟩ := Prod.mk.inj hi
  unfold execute pushed
  rw [ho, hv]
  rfl

theorem execute_pushWaiting {entry : String} {d : FunctionDecl}
    (hi : i.shape = (.push, .function entry)) (hd : f.functions.get? entry = some d) :
    execute game i f = .ok [] { f with
      stack := .ofKind (.function d) .int32 :: f.stack
      functions := f.functions.erase entry } := by
  obtain ⟨ho, hv⟩ := Prod.mk.inj hi
  unfold execute pushed
  rw [ho, hv]
  simp only [bind, EStateM.bind, get_run, hd]
  rfl

theorem execute_pushReference {entry : String} (hi : i.shape = (.push, .function entry))
    (hd : f.functions.get? entry = none) :
    execute game i f =
      .ok [] { f with stack := .ofKind (.functionRef entry) .int32 :: f.stack } := by
  obtain ⟨ho, hv⟩ := Prod.mk.inj hi
  unfold execute pushed
  rw [ho, hv]
  simp only [bind, EStateM.bind, get_run, hd]
  rfl

theorem execute_null (hi : i.shape = (.call, .call nullObject 0)) :
    execute game i f = .ok [] { f with stack := Call.expr nullObject [] :: f.stack } := by
  obtain ⟨ho, hv⟩ := Prod.mk.inj hi
  unfold execute
  rw [ho, hv]
  rfl

theorem execute_method {bound : Expr} (hi : i.shape = (.call, .call Call.method 2))
    (hf : f.stack = bound :: e :: rest) :
    execute game i f = .ok [] { f with stack := Call.expr Call.method [bound, e] :: rest } := by
  obtain ⟨entry, argumentCount, stack, functions, returnValue⟩ := f
  obtain ⟨ho, hv⟩ := Prod.mk.inj hi
  subst hf
  unfold execute
  rw [ho, hv]
  rfl

theorem execute_dup (hi : i.shape = (.dup, .dup 0 0)) (hf : f.stack = e :: rest) :
    execute game i f = .ok [] { f with stack := e.withDuplicated true :: e :: rest } := by
  obtain ⟨entry, argumentCount, stack, functions, returnValue⟩ := f
  obtain ⟨ho, hv⟩ := Prod.mk.inj hi
  subst hf
  unfold execute
  rw [ho, hv]
  rfl

theorem execute_pop {name : String} {id : Int16} {place value : Expr} {out : List Stmt} {f' : Frame}
    (hi : i.shape = (.pop, .var ⟨name, id, .stackTop⟩)) (ht : i.type1 ≠ .int32)
    (hn : name ≠ returnTemp) (hf : f.stack = place :: value :: rest)
    (hstored : Frame.assign { f with stack := rest } ⟨name, .ofExpr place, [], false⟩ value =
      (f', out)) : execute game i f = .ok out f' := by
  obtain ⟨entry, argumentCount, stack, functions, returnValue⟩ := f
  obtain ⟨ho, hv⟩ := Prod.mk.inj hi
  subst hf
  unfold execute store
  rw [ho, hv]
  simp only [if_neg ht, if_neg hn]
  have hrun : Step.assign ⟨name, .ofExpr place, [], false⟩ value
      { entry, argumentCount, stack := rest, functions, returnValue } = .ok out f' := by
    rw [assign_run, hstored]
  exact hrun

theorem execute_popz (hi : i.shape = (.popz, .none)) (hf : f.stack = e :: rest) :
    execute game i f = .ok [dropped e] { f with stack := rest } := by
  obtain ⟨entry, argumentCount, stack, functions, returnValue⟩ := f
  obtain ⟨ho, -⟩ := Prod.mk.inj hi
  subst hf
  unfold execute
  rw [ho]
  rfl

/-! ## The whole sequence -/

variable {is js : List Instr} {out out' : List Stmt} {f' f'' : Frame}

theorem executeAll_cons_ok (h : execute game i f = .ok out f')
    (hs : executeAll game is f' = .ok out' f'') :
    executeAll game (i :: is) f = .ok (out ++ out') f'' := by
  simp only [executeAll, bind, EStateM.bind, h, hs]
  rfl

theorem executeAll_append (game : Game) (is js : List Instr) :
    executeAll game (is ++ js) = do
      let out ← executeAll game is
      return out ++ (← executeAll game js) := by
  induction is with
  | nil => simp [executeAll]
  | cons i is ih => simp [executeAll, ih, -List.append_assoc, ← List.append_assoc]

theorem executeAll_append_ok (h : executeAll game is f = .ok out f')
    (hs : executeAll game js f' = .ok out' f'') :
    executeAll game (is ++ js) f = .ok (out ++ out') f'' := by
  simp only [executeAll_append, bind, EStateM.bind, h, hs]
  rfl

variable {names : String → Option String} {anonymous : List String}

/-- What the function is bound to is one value. -/
theorem executeAll_bound (names : String → Option String) (anonymous : List String) (game : Game)
    (f : Frame) (h : BindsTo (is.map Instr.shape)) :
    ∃ b, b.Quiet names anonymous ∧
      executeAll game is f = .ok [] { f with stack := b :: f.stack } := by
  generalize hs : is.map Instr.shape = shapes at h
  cases h with
  | number v =>
    obtain ⟨i, is, rfl, hi, hs⟩ := List.map_eq_cons_iff.mp hs
    obtain ⟨j, is, rfl, hj, hs⟩ := List.map_eq_cons_iff.mp hs
    obtain rfl := List.map_eq_nil_iff.mp hs
    have hv : (Expr.ofKind (.int16 v false) .int16).Quiet names anonymous :=
      .of_faithful faithful_nil (fun _ h => nomatch h) (fun _ h => nomatch h)
    refine ⟨_, quiet_converted game j.type2 hv, ?_⟩
    exact executeAll_cons_ok (execute_number hi) (executeAll_cons_ok (execute_conv hj rfl) rfl)
  | null =>
    obtain ⟨i, is, rfl, hi, hs⟩ := List.map_eq_cons_iff.mp hs
    obtain rfl := List.map_eq_nil_iff.mp hs
    have hargs : ∀ e ∈ ([] : List Expr), e.Quiet names anonymous := fun _ he =>
      (List.not_mem_nil he).elim
    exact ⟨_, quiet_callExpr hargs, executeAll_cons_ok (execute_null hi) rfl⟩

/-- From the pushed function to the store of its copy. -/
theorem executeAll_copied (names : String → Option String) (anonymous : List String) (game : Game)
    (f : Frame) {bound : List Instr} {iconv icall idup ipush ipop : Instr} {name : String}
    {target id : Int16} (hconv : iconv.shape = (.conv, .none))
    (hbound : BindsTo (bound.map Instr.shape)) (hcall : icall.shape = (.call, .call Call.method 2))
    (hdup : idup.shape = (.dup, .dup 0 0)) (hpush : ipush.shape = (.pushI, .int16 target))
    (hpop : ipop.shape = (.pop, .var ⟨name, id, .stackTop⟩)) (ht : ipop.type1 ≠ .int32)
    (hn : name ≠ returnTemp) (hf : f.stack = e :: rest) :
    ∃ b, b.Quiet names anonymous ∧ ∃ holder, Faithful names (Holder.gather functionOf holder) ∧
      ∀ copy, Call.expr Call.method [b, converted game iconv.type2 e] = copy → ∀ f' out,
        Frame.assign { f with stack := copy :: rest } ⟨name, holder, [], false⟩
          (copy.withDuplicated true) = (f', out) →
        executeAll game (iconv :: bound ++ [icall, idup, ipush, ipop]) f = .ok out f' := by
  obtain ⟨b, hb, hrun⟩ := executeAll_bound names anonymous game
    { f with stack := converted game iconv.type2 e :: rest } hbound
  refine ⟨b, hb, .ofExpr (.ofKind (.int16 target false) .int16), faithful_ofExpr faithful_nil, ?_⟩
  rintro copy rfl f' out hstored
  have hnil : executeAll game [] f' = .ok [] f' := rfl
  have hlast := executeAll_cons_ok (execute_pop (f := { f with
    stack := .ofKind (.int16 target false) .int16 :: _ }) hpop ht hn rfl hstored) hnil
  rw [List.append_nil] at hlast
  have htail := executeAll_cons_ok (execute_method (f := { f with
    stack := b :: converted game iconv.type2 e :: rest }) hcall rfl) (executeAll_cons_ok
      (execute_dup hdup rfl) (executeAll_cons_ok (execute_number hpush) hlast))
  exact executeAll_cons_ok (execute_conv hconv hf) (executeAll_append_ok hrun htail)

theorem call_method_function (b : Expr) (d : FunctionDecl) (dup : Bool) (t : DataType) :
    Call.expr Call.method [b, ⟨.function d, dup, t⟩] = ⟨.function d, dup, t⟩ := rfl

theorem call_method_functionRef (b : Expr) (entry : String) (dup : Bool) (t : DataType) :
    Call.expr Call.method [b, ⟨.functionRef entry, dup, t⟩] =
      .ofKind (.call Call.method [b, ⟨.functionRef entry, dup, t⟩]) .var := rfl

/-- A store that binds the name of the copied function. -/
theorem assign_binds (target : Var) {d : FunctionDecl} {dup : Bool} {t : DataType}
    (hf : f.stack = ⟨.function d, dup, t⟩ :: rest) (hb : bindsFunction target.name d.entry = true) :
    Frame.assign f target ((Expr.mk (.function d) dup t).withDuplicated true) =
      ({ f with stack := ⟨.function (d.withName target.name), dup, t⟩ :: rest }, []) := by
  have ho : Assign.outcome target ((Expr.mk (.function d) dup t).withDuplicated true)
      f.stack.head? = .top ⟨.function (d.withName target.name), dup, t⟩ := by
    rw [hf]
    unfold Assign.outcome Assign.binding?
    simp only [Expr.withDuplicated, Expr.kind, Expr.duplicated, List.head?_cons, hb, Bool.and_self,
      if_true]
  unfold Frame.assign
  rw [ho, hf]
  rfl

/-- A store of a call binds nothing. -/
theorem assign_call {function : String} {args : List Expr} {target : Var} {value : Expr}
    (hk : value.kind = .call function args) :
    Frame.assign f target value = (f, [.assign target value .normal false]) := by
  have ho : Assign.outcome target value f.stack.head? =
      .statement (.assign target value .normal false) := by
    unfold Assign.outcome Assign.binding? Assign.update?
    rw [hk]
  unfold Frame.assign
  rw [ho]

/-- A declaration leaves nothing on the stack. If the function is built, it becomes a statement with
its name; else there is no function. -/
theorem keeps_declaration (game : Game) {entry name : String} (h : Declaration entry name is)
    (hn : names entry = some name) : Keeps names anonymous (executeAll game is) fun out =>
      Faithful names (Stmt.gatherIn functionOf out) := by
  intro f hf out f' hr
  obtain ⟨shapes, target, id, hbound, hs⟩ := h.shape
  obtain ⟨ipush, is', rfl, hpush, hs₁⟩ := List.map_eq_cons_iff.mp hs
  obtain ⟨iconv, is, rfl, hconv, hs₂⟩ := List.map_eq_cons_iff.mp hs₁
  obtain ⟨bound, is', rfl, rfl, hs₃⟩ := List.map_eq_append_iff.mp hs₂
  obtain ⟨icall, is, rfl, hcall, hs₄⟩ := List.map_eq_cons_iff.mp hs₃
  obtain ⟨idup, is', rfl, hdup, hs₅⟩ := List.map_eq_cons_iff.mp hs₄
  obtain ⟨inumber, is, rfl, hnumber, hs₆⟩ := List.map_eq_cons_iff.mp hs₅
  obtain ⟨ipop, is', rfl, hpop, hs₇⟩ := List.map_eq_cons_iff.mp hs₆
  obtain ⟨ipopz, is, rfl, hpopz, hs₈⟩ := List.map_eq_cons_iff.mp hs₇
  obtain rfl := List.map_eq_nil_iff.mp hs₈
  have ht : ipop.type1 ≠ .int32 := h.valueFirst ipop (by simp) (Prod.mk.inj hpop).1
  -- the store and the drop that ends the statement
  have hend {f₁ f₂ : Frame} {e : Expr} {rest : List Expr} {out' : List Stmt}
      (h₁ : execute game ipush f = .ok [] f₁)
      (h₂ : executeAll game (iconv :: bound ++ [icall, idup, inumber, ipop]) f₁ = .ok out' f₂)
      (h₃ : f₂.stack = e :: rest) : executeAll game
        (ipush :: iconv :: (bound ++ [icall, idup, inumber, ipop, ipopz])) f =
          .ok (out' ++ [dropped e]) { f₂ with stack := rest } := by
    have hlast : executeAll game [ipopz] f₂ = .ok [dropped e] { f₂ with stack := rest } :=
      executeAll_cons_ok (execute_popz hpopz h₃) rfl
    have hwhole := executeAll_cons_ok h₁ (executeAll_append_ok h₂ hlast)
    simpa using hwhole
  cases hd : f.functions.get? entry with
  | some d =>
    have hwaiting := hf.waiting entry d hd
    have hbinds : bindsFunction name d.entry = true := hwaiting.ofEntry ▸ h.binds
    obtain ⟨b, hb, holder, hholder, h₂⟩ := executeAll_copied names anonymous game { f with
      stack := .ofKind (.function d) .int32 :: f.stack
      functions := f.functions.erase entry } hconv hbound hcall hdup hnumber hpop ht h.kept rfl
    have h₂ := h₂ _ (call_method_function b d false iconv.type2) _ _
      (assign_binds (.mk name holder [] false) rfl hbinds)
    rw [hend (execute_pushWaiting hpush hd) h₂ rfl] at hr
    cases hr
    refine ⟨⟨hf.stack, fun entry d hd => hf.waiting entry d (Table.get?_of_erase hd),
      hf.returnValue⟩, ?_⟩
    obtain ⟨e, n, arguments, isConstructor, body⟩ := d
    obtain rfl : e = entry := hwaiting.ofEntry
    exact faithful_append.mpr ⟨faithful_cons.mpr ⟨hn.symm, hwaiting.faithful⟩, faithful_nil⟩
  | none =>
    obtain ⟨b, hb, holder, hholder, h₂⟩ := executeAll_copied names anonymous game { f with
      stack := .ofKind (.functionRef entry) .int32 :: f.stack } hconv hbound hcall hdup hnumber hpop
      ht h.kept rfl
    have h₂ := h₂ _ (call_method_functionRef b entry false iconv.type2) _ _ (assign_call rfl)
    rw [hend (execute_pushReference hpush hd) h₂ rfl] at hr
    cases hr
    have hcall : Faithful names (Expr.gatherIn functionOf
        [b, ⟨.functionRef entry, false, iconv.type2⟩]) :=
      faithful_append.mpr ⟨hb.faithful, faithful_nil⟩
    have hassign := faithful_append.mpr ⟨faithful_append.mpr ⟨hholder, faithful_nil⟩, hcall⟩
    exact ⟨hf, faithful_append.mpr ⟨hassign, faithful_append.mpr ⟨hcall, faithful_nil⟩⟩⟩

end Step

/-! ## Straight-line code -/

/-- Straight-line code whose functions are named by declarations alone. -/
inductive Tidy (names : String → Option String) (anonymous : List String) : List Instr → Prop
  | nil : Tidy names anonymous []
  | plain {i : Instr} {rest : List Instr} (hi : i.Plain names anonymous)
      (h : Tidy names anonymous rest) : Tidy names anonymous (i :: rest)
  | declares {entry name : String} {is rest : List Instr} (hi : Declaration entry name is)
      (hn : names entry = some name) (h : Tidy names anonymous rest) :
      Tidy names anonymous (is ++ rest)

theorem Step.keeps_executeAll (game : Game) {names : String → Option String}
    {anonymous : List String} {is : List Instr} (h : Tidy names anonymous is) :
    Keeps names anonymous (executeAll game is) fun out =>
      Faithful names (Stmt.gatherIn functionOf out) := by
  induction h with
  | nil => exact keeps_pure faithful_nil
  | plain hi h ih =>
    refine (keeps_execute game hi).bind fun out ho => ih.bind fun out' ho' => keeps_pure ?_
    exact faithful_body_append.mpr ⟨ho, ho'⟩
  | declares hi hn h ih =>
    rw [executeAll_append]
    refine (keeps_declaration game hi hn).bind fun out ho => ih.bind fun out' ho' => keeps_pure ?_
    exact faithful_body_append.mpr ⟨ho, ho'⟩

end GmlLift
