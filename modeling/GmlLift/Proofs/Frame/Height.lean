import GmlLift.Proofs.Frame.Naming

/-! # The height of the stack

The end of a `switch` is found by counting values: every instruction takes as many from the stack
and leaves as many there as a table says. Executing an instruction changes the height of the stack
by what the table says, except for a copy of several values. Such a copy is measured in bytes, and
the values that these bytes make up need not be as many as its size counts. -/
namespace GmlLift

/-- How many values from the stack an access to the variable takes. -/
def VariableOperand.taken (v : VariableOperand) : Nat :=
  if v.access.isArray then 2 else if v.isStackTop then 1 else 0

/-- How many values the variable of an operand takes. -/
def Operand.taken : Operand → Nat
  | .var v => v.taken
  | _ => 0

/-- Where the instruction copies several values, the bytes that it copies are those of as many
values as its size counts. -/
def Instr.CopiesWhole (i : Instr) (f : Frame) : Prop :=
  ∀ size, i.opcode = .dup → i.operand = .dup size 0 → size ≠ 0 →
    Frame.spanning ((size.toNat + 1) * i.type1.stackSize) f.stack = some (size.toNat + 1)

namespace Step

variable {α β : Type} {d e : Int} {f f' : Frame} {i : Instr}

/-- If the step returns from this frame, the stack is higher by so much. -/
def RaisesFrom (f : Frame) (d : Int) (step : Step α) : Prop :=
  ∀ a f', step f = .ok a f' → (f'.stack.length : Int) = f.stack.length + d

/-- A step that raises the stack of every frame by so much. -/
def Raises (d : Int) (step : Step α) : Prop := ∀ f, step.RaisesFrom f d

theorem RaisesFrom.cast {step : Step α} (h : step.RaisesFrom f d) (hd : d = e) :
    step.RaisesFrom f e := hd ▸ h

theorem raises_pure (a : α) : Raises 0 (pure a) := by
  intro f a' f' h
  cases h
  omega

theorem raises_throw (e : BuildError) (d : Int) : Raises d (throw e : Step α) := by
  intro f a f' h
  cases h

theorem RaisesFrom.bind {x : Step α} {y : α → Step β} (hx : x.RaisesFrom f d)
    (hy : ∀ a, (y a).Raises e) : (x >>= y).RaisesFrom f (d + e) := by
  intro b f' h
  obtain ⟨a, f₁, h₁, h₂⟩ := ok_of_bind_step h
  have hx := hx a f₁ h₁
  have hy := hy a f₁ b f' h₂
  omega

theorem Raises.bind {x : Step α} {y : α → Step β} (hx : x.Raises d) (hy : ∀ a, (y a).Raises e) :
    (x >>= y).Raises (d + e) := fun f => (hx f).bind hy

theorem Raises.map {x : Step α} (g : α → β) (hx : x.Raises d) : (g <$> x).Raises d := by
  have h := hx.bind fun a => raises_pure (g a)
  rwa [Int.add_zero] at h

theorem raises_get_bind {y : Frame → Step β} (hy : ∀ f, (y f).RaisesFrom f d) :
    (get >>= y).Raises d := by
  intro f b f' h
  obtain ⟨a, f₁, h₁, h₂⟩ := ok_of_bind_step h
  cases h₁
  exact hy f b f' h₂

theorem raises_set {stack : List Expr} (h : (stack.length : Int) = f.stack.length + d) :
    (set { f with stack } : Step Unit).RaisesFrom f d := by
  intro u f' hf
  cases hf
  exact h

/-! ## What the parts of an instruction do -/

theorem raises_pop (i : Instr) : (pop i).Raises (-1) := by
  intro f a f' h
  rw [pop_run] at h
  split at h
  · cases h
  · rename_i e rest hf
    cases h
    simp only [hf, List.length_cons]
    omega

theorem raises_popMany (i : Instr) (n : Nat) : (popMany i n).Raises (-n) := by
  induction n with
  | zero => exact raises_pure []
  | succ n ih =>
    have h := (raises_pop i).bind fun e => ih.bind fun es => raises_pure (e :: es)
    have hn : (-1 : Int) + (-n + 0) = -(n + 1 : Nat) := by omega
    rwa [hn] at h

theorem raises_push (e : Expr) : (push e).Raises 1 := by
  intro f u f' h
  cases h
  simp

/-- Push a value and complete no statement. -/
theorem raises_pushOnly (e : Expr) : (do push e; return ([] : List Stmt)).Raises 1 :=
  (raises_push e).bind fun _ => raises_pure []

theorem raises_access (game : Game) (i : Instr) (v : VariableOperand) :
    (access game i v).Raises (-v.taken) := by
  unfold access VariableOperand.taken
  split
  · refine ((raises_pop i).bind fun index => (raises_pop i).bind (e := 0) fun holder => ?_)
    split <;> exact raises_pure _
  · split
    · exact (raises_pop i).bind fun holder => raises_pure _
    · exact raises_pure _

theorem outcome_top {target : Var} {value e : Expr} {top : Option Expr}
    (h : Assign.outcome target value top = .top e) : top.isSome := by
  unfold Assign.outcome at h
  split at h
  · rename_i e' he
    unfold Assign.binding? at he
    split at he
    · rfl
    · cases he
  · split at h
    · rename_i o ho
      subst h
      unfold Assign.update? at ho
      split at ho
      · split at ho
        · unfold Assign.update at ho
          cases top with
          | some t => rfl
          | none =>
            simp only [Option.filter_none] at ho
            split at ho <;> cases ho
        · cases ho
      · cases ho
    · cases h

/-- A store changes the value on top of the stack or completes a statement. -/
theorem raises_assign (target : Var) (value : Expr) : (assign target value).Raises 0 := by
  intro f out f' h
  rw [assign_run] at h
  cases h
  unfold Frame.assign
  split
  · rename_i e he
    have htop := outcome_top he
    cases hs : f.stack with
    | nil =>
      rw [hs] at htop
      cases htop
    | cons t rest => simp
  · simp

theorem raises_store (game : Game) (i : Instr) (v : VariableOperand) :
    (store game i v).Raises (-(v.taken + 1)) := by
  have hend (target : Var) (value : Expr) :
      (if v.name = returnTemp then do
        modify fun f => { f with returnValue := some value }
        return ([] : List Stmt)
      else assign target value).Raises 0 := by
    split
    · intro f out f' h
      cases h
      simp
    · exact raises_assign target value
  unfold store
  dsimp only
  split
  · -- the value comes first, and the other branch of the last step is out of reach
    intro f out f' h
    obtain ⟨first, f₁, h₁, h⟩ := ok_of_bind_step h
    obtain ⟨target, f₂, h₂, h⟩ := ok_of_bind_step h
    have hfirst := (raises_pop i).map some f first f₁ h₁
    have haccess := raises_access game i v f₁ target f₂ h₂
    obtain ⟨value, rfl⟩ : ∃ value, first = some value := by
      simp only [Functor.map, EStateM.map] at h₁
      split at h₁
      · cases h₁
        exact ⟨_, rfl⟩
      · cases h₁
    have hstore := hend target value f₂ out f' h
    omega
  · have h := (raises_pure (none : Option Expr)).bind fun first =>
      (raises_access game i v).bind fun target =>
        (raises_pop i).bind fun value => hend target value
    have hd : (0 : Int) + (-v.taken + (-1 + 0)) = -(v.taken + 1) := by omega
    rw [hd] at h
    exact h

theorem raises_sink (i : Instr) (size : Nat) : (sink i size).Raises 0 := by
  refine ((raises_pop i).bind (e := 1) fun top => raises_get_bind fun f => ?_)
  dsimp only
  split
  · refine raises_set ?_
    simp only [List.length_append, List.length_cons, List.length_take, List.length_drop]
    omega
  · exact raises_throw _ _ f

theorem raises_swap (i : Instr) (topBytes belowBytes : Nat) :
    (swap i topBytes belowBytes).Raises 0 := by
  refine raises_get_bind fun f => ?_
  split
  · exact raises_throw _ _ f
  · dsimp only
    split
    · exact raises_throw _ _ f
    · refine raises_set ?_
      simp only [List.length_append, List.length_take, List.length_drop]
      omega

/-- How many values a copy copies. -/
def copied (size unit : Nat) (stack : List Expr) : Option Nat :=
  if size = 0 then some 1 else Frame.spanning ((size + 1) * unit) stack

/-- A copy that succeeds adds as many values as its bytes make up. -/
theorem duplicate_ok {size unit : Nat} {u : Unit} (h : duplicate i size unit f = .ok u f') :
    ∃ n, copied size unit f.stack = some n ∧ f'.stack.length = f.stack.length + n := by
  unfold duplicate at h
  obtain ⟨f₀, f₁, h₁, h⟩ := ok_of_bind_step h
  cases h₁
  dsimp only at h
  cases hc : (copied size unit f.stack).filter (· ≤ f.stack.length) with
  | none =>
    rw [copied] at hc
    rw [hc] at h
    cases h
  | some n =>
    obtain ⟨hn, hle⟩ := Option.filter_eq_some_iff.mp hc
    rw [copied] at hc
    rw [hc] at h
    cases h
    have hle : n ≤ f.stack.length := of_decide_eq_true hle
    refine ⟨n, hn, ?_⟩
    simp only [List.length_append, List.length_map, List.length_take]
    omega

/-! ## Instructions -/

/-- A push takes what the access to its variable takes. The return temporary is not on the stack. -/
theorem raises_pushed (game : Game) (i : Instr) (hf : f.returnValue = none) :
    (pushed game i).RaisesFrom f (-i.operand.taken) := by
  unfold pushed
  cases i.operand with
  | int16 v => exact raises_pure _ f
  | int32 v => exact raises_pure _ f
  | int64 v => exact raises_pure _ f
  | double v => exact raises_pure _ f
  | bool b => exact raises_pure _ f
  | string s => exact raises_pure _ f
  | function name =>
    refine raises_get_bind (fun f => ?_) f
    split
    · intro e f' h
      cases h
      simp [Operand.taken]
    · exact raises_pure _ f
  | var v =>
    intro e f' h
    obtain ⟨f₀, f₁, h₁, h⟩ := ok_of_bind_step h
    cases h₁
    simp only [hf, ite_self] at h
    have haccess := (raises_access game i v).bind (fun t => raises_pure (Expr.ofVar t)) f e f' h
    rwa [Int.add_zero] at haccess
  | _ => exact raises_throw _ _ f

theorem raises_pop_two {step : Expr → Expr → Step (List Stmt)}
    (h : ∀ first second, (step first second).Raises d) :
    (do let first ← pop i; let second ← pop i; step first second).Raises (-1 + (-1 + d)) :=
  (raises_pop i).bind fun first => (raises_pop i).bind fun second => h first second

theorem raises_extended (game : Game) (ho : i.opcode = .extended) :
    (extended game i).Raises i.stackEffect.net := by
  unfold extended Instr.stackEffect
  rw [ho]
  dsimp only
  cases i.extended with
  | none => exact raises_throw _ _
  | some op => cases op with
    | setOwner => exact (raises_pop i).bind fun _ => raises_pure _
    | pushFinal | pushContainer =>
      refine raises_pop_two (d := 1) fun index container => ?_
      split
      · exact raises_pushOnly _
      · exact raises_throw _ _
    | popFinal =>
      refine raises_pop_two (d := -1) fun index container => ?_
      refine (raises_pop i).bind (e := 0) fun value => ?_
      split
      · exact raises_assign _ _
      · exact raises_throw _ _
    | pushRef =>
      dsimp only
      split
      · exact raises_pushOnly _
      · exact raises_throw _ _
    | hasStatic | isNullish => exact raises_throw _ _
    | _ => exact raises_pure _

theorem net_push (ho : i.opcode ∈ [Opcode.push, .pushLoc, .pushGlb, .pushBltn, .pushI]) :
    i.stackEffect.net = -i.operand.taken + 1 := by
  simp only [List.mem_cons, List.not_mem_nil, or_false] at ho
  cases hv : i.operand with
  | var v =>
    have h : i.stackEffect = if v.access.isArray then ⟨2, 1⟩ else if v.isStackTop then ⟨1, 1⟩
        else ⟨0, 1⟩ := by
      rcases ho with ho | ho | ho | ho | ho <;> simp only [Instr.stackEffect, ho, hv]
    rw [h]
    simp only [Operand.taken, VariableOperand.taken]
    split
    · rfl
    · split <;> rfl
  | _ =>
    have h : i.stackEffect = ⟨0, 1⟩ := by
      rcases ho with ho | ho | ho | ho | ho <;> simp only [Instr.stackEffect, ho, hv]
    rw [h]
    rfl

theorem net_store {v : VariableOperand} (ho : i.opcode = .pop) (hv : i.operand = .var v) :
    i.stackEffect.net = -(v.taken + 1) := by
  simp only [Instr.stackEffect, ho, hv, VariableOperand.taken]
  split
  · rfl
  · split <;> rfl

/-- A copy changes the height by what its effect says if it copies whole values. -/
theorem raises_copy_iff (game : Game) {size : UInt8} {out : List Stmt} (ho : i.opcode = .dup)
    (hd : i.operand = .dup size 0) (h : execute game i f = .ok out f') :
    (f'.stack.length : Int) = f.stack.length + i.stackEffect.net ↔ i.CopiesWhole f := by
  simp only [execute, ho, hd, if_true] at h
  obtain ⟨u, f₁, h, hout⟩ := ok_of_bind_step h
  cases hout
  obtain ⟨n, hn, hlen⟩ := duplicate_ok h
  have hnet : i.stackEffect.net = size.toNat + 1 := by
    simp only [Instr.stackEffect, ho, hd, if_true, StackEffect.net]
    omega
  rw [hnet, hlen]
  unfold copied at hn
  constructor
  · intro hsum s _ hs hs0
    cases hd.symm.trans hs
    have hs0 : size.toNat ≠ 0 := fun h => hs0 (UInt8.toNat_inj.mp h)
    rw [if_neg hs0] at hn
    rw [hn]
    congr 1
    omega
  · intro hwhole
    by_cases hs0 : size.toNat = 0
    · rw [if_pos hs0] at hn
      cases hn
      omega
    · have hw := hwhole size ho hd fun h => hs0 (by rw [h]; rfl)
      rw [if_neg hs0, hw] at hn
      cases hn
      omega

/-- Every other instruction changes the height by what its effect says. -/
theorem raises_execute (game : Game) (i : Instr)
    (hi : i.opcode = .dup → ∀ size, i.operand ≠ .dup size 0) (hf : f.returnValue = none) :
    (execute game i).RaisesFrom f i.stackEffect.net := by
  cases ho : i.opcode with
  | push | pushLoc | pushGlb | pushBltn | pushI =>
    rw [net_push (by simp [ho])]
    unfold execute
    rw [ho]
    exact (raises_pushed game i hf).bind raises_pushOnly
  | mul | div | rem | mod | add | sub | and | or | xor | shl | shr | cmp =>
    simp only [execute, Instr.stackEffect, ho]
    refine raises_pop_two (d := 1) (fun right left => ?_) f
    split
    · exact raises_pushOnly _
    · exact raises_throw _ _
  | neg | not | conv =>
    unfold execute Instr.stackEffect
    rw [ho]
    exact ((raises_pop i).bind fun e => raises_pushOnly _) f
  | dup =>
    unfold execute Instr.stackEffect
    rw [ho]
    cases hd : i.operand with
    | dup size swapped =>
      have hs : swapped ≠ 0 := fun h => hi ho size (h ▸ hd)
      simp only [if_neg hs]
      exact ((raises_swap i _ _).bind fun _ => raises_pure _) f
    | _ => exact raises_throw _ _ f
  | popz | ret =>
    unfold execute Instr.stackEffect
    rw [ho]
    exact ((raises_pop i).bind fun e => raises_pure _) f
  | pop =>
    cases hv : i.operand with
    | popSwap size =>
      simp only [execute, Instr.stackEffect, ho, hv]
      exact ((raises_sink i _).bind fun _ => raises_pure _) f
    | var v =>
      rw [net_store ho hv]
      unfold execute
      rw [ho, hv]
      exact raises_store game i v f
    | _ =>
      unfold execute
      rw [ho, hv]
      exact raises_throw _ _ f
  | call =>
    unfold execute Instr.stackEffect Instr.argc?
    rw [ho]
    cases i.operand with
    | call function argc =>
      refine RaisesFrom.cast (((raises_popMany i argc.toNat).bind fun args => raises_pushOnly _) f) ?_
      simp only [StackEffect.net, Option.getD_some]
      omega
    | _ => exact raises_throw _ _ f
  | callV =>
    simp only [execute, Instr.stackEffect, ho]
    cases i.argc? with
    | some argc =>
      refine RaisesFrom.cast (raises_pop_two (fun function holder =>
        (raises_popMany i argc.toNat).bind fun args => raises_pushOnly _) f) ?_
      simp only [StackEffect.net, Option.getD_some]
      omega
    | none => exact raises_throw _ _ f
  | exit =>
    unfold execute Instr.stackEffect
    rw [ho]
    exact raises_pure _ f
  | popEnv =>
    unfold execute Instr.stackEffect
    rw [ho]
    dsimp only
    split
    · exact raises_pure _ f
    · exact raises_throw _ _ f
  | extended =>
    have h := raises_extended game ho f
    unfold execute
    rwa [ho]
  | b | bt | bf | pushEnv =>
    unfold execute
    rw [ho]
    exact raises_throw _ _ f

/-- The stack ends up as high as the instruction's effect says unless the instruction copies several
values whose bytes make up another number of them. -/
theorem height_execute_iff (game : Game) {out : List Stmt} (hf : f.returnValue = none)
    (h : execute game i f = .ok out f') :
    (f'.stack.length : Int) = f.stack.length - i.stackEffect.pops + i.stackEffect.pushes ↔
      i.CopiesWhole f := by
  have hnet : (f.stack.length : Int) - i.stackEffect.pops + i.stackEffect.pushes =
      f.stack.length + i.stackEffect.net := by
    simp only [StackEffect.net]
    omega
  rw [hnet]
  by_cases hi : i.opcode = .dup ∧ ∃ size, i.operand = .dup size 0
  · obtain ⟨ho, size, hd⟩ := hi
    exact raises_copy_iff game ho hd h
  · have hother : i.opcode = .dup → ∀ size, i.operand ≠ .dup size 0 :=
      fun ho size hd => hi ⟨ho, size, hd⟩
    exact ⟨fun _ size ho hd _ => absurd hd (hother ho size),
      fun _ => raises_execute game i hother hf out f' h⟩

/-- A copy of two numbers of four bytes each. -/
def copyPair : Instr := ⟨8, .dup, none, .int32, .double, .dup 1 0⟩

/-- What is on the stack before `a[0] += 1` copies the instance and the index. -/
def twoNumbers : Frame :=
  { entry := "", stack := [.ofKind (.int16 0 false) .int16, .ofKind (.int16 (-1) false) .int16] }

theorem height_execute_iff_copyPair : ∃ out f', execute {} copyPair twoNumbers = .ok out f' ∧
    ((f'.stack.length : Int) = twoNumbers.stack.length - copyPair.stackEffect.pops +
      copyPair.stackEffect.pushes ↔ copyPair.CopiesWhole twoNumbers) ∧ f'.stack.length = 4 :=
  ⟨_, _, rfl, height_execute_iff {} rfl rfl, rfl⟩

/-- The same copy where the instance is a variable's value, of sixteen bytes. Its size counts five
numbers of four bytes. -/
def copyElement : Instr := ⟨12, .dup, none, .int32, .double, .dup 4 0⟩

def instanceAndIndex : Frame :=
  { entry := "", stack := [.ofKind (.int16 0 false) .int16, .ofVar ⟨"o", .scope .own, [], false⟩] }

/-- Copying an instance and an index counts as five values. -/
theorem not_height_execute_copyElement : ∃ out f',
    instanceAndIndex.returnValue = none ∧
    execute {} copyElement instanceAndIndex = .ok out f' ∧ f'.stack.length = 4 ∧
    ¬ (f'.stack.length : Int) = instanceAndIndex.stack.length - copyElement.stackEffect.pops +
      copyElement.stackEffect.pushes :=
  ⟨_, _, rfl, rfl, rfl, by decide⟩

end Step

end GmlLift
