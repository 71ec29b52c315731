import GmlLift.Proofs.Frame.Naming
import GmlLift.Proofs.Table

/-! # What straight code changes

A frame holds more than its stack: embedded functions that wait for their push, and a value stored to
be returned. Where there is neither, and no instruction names the return temporary, code changes the
stack and nothing else. -/
namespace GmlLift

/-- Neither a function nor a value to return waits. -/
def Frame.Bare (f : Frame) : Prop := f.functions = ∅ ∧ f.returnValue = none

/-- The instruction does not name the return temporary. -/
def Instr.SparesReturn (i : Instr) : Prop := ∀ v, i.operand = .var v → v.name ≠ returnTemp

namespace Step

variable {α β : Type} {i : Instr} {f f' : Frame}

/-- If the step returns from this frame, it changed the stack alone. -/
def StackOnlyFrom (f : Frame) (step : Step α) : Prop :=
  ∀ a f', step f = .ok a f' → f' = { f with stack := f'.stack }

/-- On bare frames the step changes the stack alone. -/
def StackOnly (step : Step α) : Prop := ∀ f : Frame, f.Bare → step.StackOnlyFrom f

theorem stackOnly_pure (a : α) : StackOnly (pure a) := by
  intro f _ a' f' h
  cases h
  rfl

theorem stackOnly_throw (e : BuildError) : StackOnly (throw e : Step α) := by
  intro f _ a f' h
  cases h

theorem StackOnly.bind {x : Step α} {y : α → Step β} (hx : StackOnly x)
    (hy : ∀ a, StackOnly (y a)) : StackOnly (x >>= y) := by
  intro f hf b f' h
  obtain ⟨a, f₁, h₁, h₂⟩ := ok_of_bind_step h
  have hfirst := hx f hf a f₁ h₁
  have hbare : f₁.Bare := by
    rw [hfirst]
    exact hf
  have hsecond := hy a f₁ hbare b f' h₂
  rw [hsecond, hfirst]

theorem StackOnly.map {x : Step α} (g : α → β) (hx : StackOnly x) : StackOnly (g <$> x) :=
  hx.bind fun a => stackOnly_pure (g a)

theorem stackOnly_get_bind {y : Frame → Step β} (hy : ∀ f : Frame, f.Bare → (y f).StackOnlyFrom f) :
    StackOnly (get >>= y) := by
  intro f hf b f' h
  obtain ⟨a, f₁, h₁, h₂⟩ := ok_of_bind_step h
  cases h₁
  exact hy f hf b f' h₂

theorem stackOnly_set (f : Frame) (stack : List Expr) :
    (set { f with stack } : Step Unit).StackOnlyFrom f := by
  intro u f' h
  cases h
  rfl

/-! ## The parts of an instruction -/

theorem stackOnly_pop (i : Instr) : StackOnly (pop i) := by
  intro f _ a f' h
  rw [pop_run] at h
  split at h
  · cases h
  · cases h
    rfl

theorem stackOnly_popMany (i : Instr) (n : Nat) : StackOnly (popMany i n) := by
  induction n with
  | zero => exact stackOnly_pure []
  | succ n ih => exact (stackOnly_pop i).bind fun e => ih.bind fun es => stackOnly_pure (e :: es)

theorem stackOnly_push (e : Expr) : StackOnly (push e) := by
  intro f _ u f' h
  cases h
  rfl

theorem stackOnly_pushOnly (e : Expr) : StackOnly (do push e; return ([] : List Stmt)) :=
  (stackOnly_push e).bind fun _ => stackOnly_pure []

theorem stackOnly_access (game : Game) (i : Instr) (v : VariableOperand) :
    StackOnly (access game i v) := by
  unfold access
  split
  · refine (stackOnly_pop i).bind fun index => (stackOnly_pop i).bind fun holder => ?_
    split <;> exact stackOnly_pure _
  · split
    · exact (stackOnly_pop i).bind fun holder => stackOnly_pure _
    · exact stackOnly_pure _

theorem stackOnly_assign (target : Var) (value : Expr) : StackOnly (assign target value) := by
  intro f _ out f' h
  rw [assign_run] at h
  cases h
  unfold Frame.assign
  split <;> rfl

theorem stackOnly_store (game : Game) (i : Instr) {v : VariableOperand} (hv : v.name ≠ returnTemp) :
    StackOnly (store game i v) := by
  unfold store
  simp only [if_neg hv]
  split
  on_goal 1 => refine ((stackOnly_pop i).map some).bind fun first => ?_
  on_goal 2 => refine (stackOnly_pure none).bind fun first => ?_
  -- the value was taken first or is taken last
  all_goals
    refine (stackOnly_access game i v).bind fun target => ?_
    cases first with
    | some e => exact (stackOnly_pure e).bind fun value => stackOnly_assign target value
    | none => exact (stackOnly_pop i).bind fun value => stackOnly_assign target value

theorem stackOnly_sink (i : Instr) (size : Nat) : StackOnly (sink i size) := by
  refine (stackOnly_pop i).bind fun top => stackOnly_get_bind fun f hf => ?_
  dsimp only
  split
  · exact stackOnly_set f _
  · exact stackOnly_throw _ f hf

theorem stackOnly_swap (i : Instr) (topBytes belowBytes : Nat) :
    StackOnly (swap i topBytes belowBytes) := by
  refine stackOnly_get_bind fun f hf => ?_
  split
  · exact stackOnly_throw _ f hf
  · dsimp only
    split
    · exact stackOnly_throw _ f hf
    · exact stackOnly_set f _

theorem stackOnly_duplicate (i : Instr) (size unit : Nat) : StackOnly (duplicate i size unit) := by
  refine stackOnly_get_bind fun f hf => ?_
  dsimp only
  split
  · exact stackOnly_throw _ f hf
  · exact stackOnly_set f _

/-- No function waits that a push could take. -/
theorem stackOnly_pushed (game : Game) (h : i.SparesReturn) : StackOnly (pushed game i) := by
  unfold pushed
  cases hop : i.operand with
  | int16 v => exact stackOnly_pure _
  | int32 v => exact stackOnly_pure _
  | int64 v => exact stackOnly_pure _
  | double v => exact stackOnly_pure _
  | bool b => exact stackOnly_pure _
  | string s => exact stackOnly_pure _
  | function name =>
    refine stackOnly_get_bind fun f hf => ?_
    have hnone : f.functions.get? name = none := by rw [hf.1, Table.get?_empty]
    rw [hnone]
    exact stackOnly_pure _ f hf
  | var v =>
    refine stackOnly_get_bind fun f hf => ?_
    simp only [if_neg (h v hop)]
    exact (stackOnly_access game i v).map Expr.ofVar f hf
  | _ => exact stackOnly_throw _

theorem stackOnly_pop_two {step : Expr → Expr → Step (List Stmt)} (h : ∀ a b, StackOnly (step a b)) :
    StackOnly (do let a ← pop i; let b ← pop i; step a b) :=
  (stackOnly_pop i).bind fun a => (stackOnly_pop i).bind fun b => h a b

theorem stackOnly_extended (game : Game) (i : Instr) : StackOnly (extended game i) := by
  unfold extended
  cases i.extended with
  | none => exact stackOnly_throw _
  | some op => cases op with
    | setOwner => exact (stackOnly_pop i).bind fun _ => stackOnly_pure _
    | pushFinal | pushContainer =>
      refine stackOnly_pop_two fun index container => ?_
      split
      · exact stackOnly_pushOnly _
      · exact stackOnly_throw _
    | popFinal =>
      refine stackOnly_pop_two fun index container => (stackOnly_pop i).bind fun value => ?_
      split
      · exact stackOnly_assign _ _
      · exact stackOnly_throw _
    | pushRef =>
      dsimp only
      split
      · exact stackOnly_pushOnly _
      · exact stackOnly_throw _
    | hasStatic | isNullish => exact stackOnly_throw _
    | _ => exact stackOnly_pure _

/-! ## Instructions -/

theorem stackOnly_execute (game : Game) (h : i.SparesReturn) : StackOnly (execute game i) := by
  unfold execute
  cases ho : i.opcode with
  | push | pushLoc | pushGlb | pushBltn | pushI =>
    exact (stackOnly_pushed game h).bind stackOnly_pushOnly
  | mul | div | rem | mod | add | sub | and | or | xor | shl | shr | cmp =>
    refine stackOnly_pop_two fun right left => ?_
    split
    · exact stackOnly_pushOnly _
    · exact stackOnly_throw _
  | neg | not | conv => exact (stackOnly_pop i).bind fun e => stackOnly_pushOnly _
  | dup =>
    cases i.operand with
    | dup size swapped =>
      dsimp only
      split
      · exact (stackOnly_duplicate i _ _).bind fun _ => stackOnly_pure _
      · exact (stackOnly_swap i _ _).bind fun _ => stackOnly_pure _
    | _ => exact stackOnly_throw _
  | popz | ret => exact (stackOnly_pop i).bind fun e => stackOnly_pure _
  | pop =>
    cases hv : i.operand with
    | popSwap size => exact (stackOnly_sink i _).bind fun _ => stackOnly_pure _
    | var v => exact stackOnly_store game i (h v hv)
    | _ => exact stackOnly_throw _
  | call =>
    cases i.operand with
    | call function argc =>
      exact (stackOnly_popMany i _).bind fun args => stackOnly_pushOnly _
    | _ => exact stackOnly_throw _
  | callV =>
    cases i.argc? with
    | some argc =>
      exact stackOnly_pop_two fun function holder =>
        (stackOnly_popMany i _).bind fun args => stackOnly_pushOnly _
    | none => exact stackOnly_throw _
  | exit => exact stackOnly_pure _
  | popEnv =>
    dsimp only
    split
    · exact stackOnly_pure _
    · exact stackOnly_throw _
  | extended => exact stackOnly_extended game i
  | b | bt | bf | pushEnv => exact stackOnly_throw _

theorem stackOnly_executeAll (game : Game) {is : List Instr} (h : ∀ i ∈ is, i.SparesReturn) :
    StackOnly (executeAll game is) := by
  induction is with
  | nil => exact stackOnly_pure []
  | cons i is ih =>
    exact (stackOnly_execute game (h i (by simp))).bind fun out =>
      (ih fun j hj => h j (by simp [hj])).bind fun out' => stackOnly_pure (out ++ out')

/-- Code that leaves the stack of a bare frame as it was leaves the frame as it was. -/
theorem executeAll_frame {game : Game} {is : List Instr} (h : ∀ i ∈ is, i.SparesReturn)
    (hf : f.Bare) {out : List Stmt} (hrun : executeAll game is f = .ok out f') {stack : List Expr}
    (hstack : f'.stack = stack) : executeAll game is f = .ok out { f with stack } := by
  rw [hrun, stackOnly_executeAll game h f hf out f' hrun, hstack]

/-! ## What executed code holds -/

section

variable {game : Game} {is : List Instr} {out : List Stmt}

/-- Each instruction of code that is executed is executed, and adds its statements. -/
theorem exists_execute (h : executeAll game is f = .ok out f') (hi : i ∈ is) :
    ∃ f₁ here f₂, execute game i f₁ = .ok here f₂ ∧ ∀ stmt ∈ here, stmt ∈ out := by
  induction is generalizing f out with
  | nil => cases hi
  | cons j is ih =>
    obtain ⟨here, f₁, hfirst, h⟩ := ok_of_bind_step h
    obtain ⟨later, f₂, hrest, h⟩ := ok_of_bind_step h
    cases h
    rcases List.mem_cons.mp hi with rfl | hi
    · exact ⟨f, here, f₁, hfirst, fun stmt hs => List.mem_append_left later hs⟩
    · obtain ⟨f₃, now, f₄, hrun, hout⟩ := ih hrest hi
      exact ⟨f₃, now, f₄, hrun, fun stmt hs => List.mem_append_right here (hout stmt hs)⟩

/-- Tests for statics and for a missing value are never executed. -/
theorem isExtended_of_execute (h : execute game i f = .ok out f') :
    i.isExtended .hasStatic = false ∧ i.isExtended .isNullish = false := by
  by_cases hop : i.opcode = .extended
  · rw [execute, hop] at h
    have hthrows : ∀ op, i.extended = some op → op = .hasStatic ∨ op = .isNullish → False := by
      rintro op hop (rfl | rfl) <;>
      · unfold extended at h
        rw [hop] at h
        cases h
    refine ⟨?_, ?_⟩ <;>
    · refine Bool.eq_false_iff.mpr fun he => ?_
      simp only [Instr.isExtended, Bool.and_eq_true, beq_iff_eq] at he
      exact hthrows _ he.2 (by simp)
  · simp [Instr.isExtended, hop]

/-- A value that is dropped is a statement. -/
theorem opcode_ne_popz_of_execute (h : execute game i f = .ok [] f') : i.opcode ≠ .popz := by
  intro hop
  rw [execute, hop] at h
  obtain ⟨e, f₁, -, h⟩ := ok_of_bind_step h
  cases h

end

end Step

end GmlLift
