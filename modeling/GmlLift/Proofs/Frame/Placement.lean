import GmlLift.Proofs.Frame.StackOnly

/-! # Code means the same wherever it stands

Only an error tells at which address an instruction stands. Code that is executed at one place is
executed at any other, to the same statements and the same frame. -/
namespace GmlLift

/-- The second instruction is the first one, at any address. -/
def Instr.Moved (i j : Instr) : Prop := ∃ a, j = { i with address := a }

instance (i j : Instr) : Decidable (i.Moved j) :=
  decidable_of_iff (j = { i with address := j.address })
    ⟨fun h => ⟨j.address, h⟩, fun ⟨_, h⟩ => by subst h; rfl⟩

/-- What does not depend on the address holds of moved code. -/
theorem Instr.forall_moved {P : Instr → Prop} {is js : List Instr}
    (hP : ∀ i a, P i → P { i with address := a }) (h : List.Forall₂ Instr.Moved is js)
    (his : ∀ i ∈ is, P i) : ∀ j ∈ js, P j := by
  induction h with
  | nil => exact his
  | cons hfirst _ ih =>
    obtain ⟨a, rfl⟩ := hfirst
    intro k hk
    rcases List.mem_cons.mp hk with rfl | hk
    · exact hP _ a (his _ (by simp))
    · exact ih (fun i hi => his i (by simp [hi])) k hk

namespace Step

variable {α β : Type} {i j : Instr}

/-- Wherever the first step returns, the second one returns the same. -/
def Follows (x y : Step α) : Prop := ∀ f a f', x f = .ok a f' → y f = .ok a f'

theorem follows_refl (x : Step α) : Follows x x := fun _ _ _ h => h

theorem follows_throw (e : BuildError) (y : Step α) : Follows (throw e) y := by
  intro f a f' h
  cases h

theorem Follows.bind {x x' : Step α} {y y' : α → Step β} (hx : Follows x x')
    (hy : ∀ a, Follows (y a) (y' a)) : Follows (x >>= y) (x' >>= y') := by
  intro f b f' h
  obtain ⟨a, f₁, h₁, h₂⟩ := ok_of_bind_step h
  have hfirst := hx f a f₁ h₁
  have hsecond := hy a f₁ b f' h₂
  change EStateM.bind x' y' f = _
  rw [EStateM.bind, hfirst]
  exact hsecond

theorem Follows.map {x x' : Step α} (g : α → β) (hx : Follows x x') : Follows (g <$> x) (g <$> x') :=
  hx.bind fun a => follows_refl (pure (g a))

/-! ## The parts of an instruction -/

theorem follows_pop (i j : Instr) : Follows (pop i) (pop j) := by
  intro f a f' h
  rw [pop_run] at h ⊢
  cases hstack : f.stack with
  | nil =>
    rw [hstack] at h
    cases h
  | cons e rest =>
    rw [hstack] at h
    exact h

theorem follows_popMany (i j : Instr) (n : Nat) : Follows (popMany i n) (popMany j n) := by
  induction n with
  | zero => exact follows_refl _
  | succ n ih => exact (follows_pop i j).bind fun e => ih.bind fun es => follows_refl _

theorem follows_pop_two {step step' : Expr → Expr → Step β}
    (h : ∀ a b, Follows (step a b) (step' a b)) :
    Follows (do let a ← pop i; let b ← pop i; step a b)
      (do let a ← pop j; let b ← pop j; step' a b) :=
  (follows_pop i j).bind fun a => (follows_pop i j).bind fun b => h a b

theorem follows_access (game : Game) (i j : Instr) (v : VariableOperand) :
    Follows (access game i v) (access game j v) := by
  unfold access
  split
  · exact follows_pop_two fun index holder => follows_refl _
  · split
    · exact (follows_pop i j).bind fun holder => follows_refl _
    · exact follows_refl _

theorem follows_sink (i j : Instr) (size : Nat) : Follows (sink i size) (sink j size) := by
  refine (follows_pop i j).bind fun top => (follows_refl get).bind fun f => ?_
  dsimp only
  split
  · exact follows_refl _
  · exact follows_throw _ _

theorem follows_swap (i j : Instr) (topBytes belowBytes : Nat) :
    Follows (swap i topBytes belowBytes) (swap j topBytes belowBytes) := by
  refine (follows_refl get).bind fun f => ?_
  split
  · exact follows_throw _ _
  · dsimp only
    split
    · exact follows_throw _ _
    · exact follows_refl _

theorem follows_duplicate (i j : Instr) (size unit : Nat) :
    Follows (duplicate i size unit) (duplicate j size unit) := by
  refine (follows_refl get).bind fun f => ?_
  dsimp only
  split
  · exact follows_throw _ _
  · exact follows_refl _

/-! ## Instructions -/

section

variable (game : Game)

theorem follows_store (h : i.Moved j) (v : VariableOperand) :
    Follows (store game i v) (store game j v) := by
  obtain ⟨a, rfl⟩ := h
  unfold store
  dsimp only
  split
  on_goal 1 => refine ((follows_pop _ _).map some).bind fun first => ?_
  on_goal 2 => refine (follows_refl (pure none)).bind fun first => ?_
  -- the value was taken first or is taken last
  all_goals
    refine (follows_access game _ _ v).bind fun target => ?_
    cases first with
    | some e => exact follows_refl _
    | none => exact (follows_pop _ _).bind fun value => follows_refl _

theorem follows_pushed (h : i.Moved j) : Follows (pushed game i) (pushed game j) := by
  obtain ⟨a, rfl⟩ := h
  unfold pushed
  dsimp only
  cases i.operand with
  | int16 v | int32 v | int64 v | double v | bool v | string v | function v => exact follows_refl _
  | var v =>
    refine (follows_refl get).bind fun f => ?_
    split
    · exact follows_refl _
    · exact (follows_access game _ _ v).map Expr.ofVar
  | _ => exact follows_throw _ _

theorem follows_extended (h : i.Moved j) : Follows (extended game i) (extended game j) := by
  obtain ⟨a, rfl⟩ := h
  unfold extended
  dsimp only
  cases i.extended with
  | none => exact follows_throw _ _
  | some op => cases op with
    | setOwner => exact (follows_pop _ _).bind fun _ => follows_refl _
    | pushFinal | pushContainer =>
      refine follows_pop_two fun index container => ?_
      split
      · exact follows_refl _
      · exact follows_throw _ _
    | popFinal =>
      refine follows_pop_two fun index container => (follows_pop _ _).bind fun value => ?_
      split
      · exact follows_refl _
      · exact follows_throw _ _
    | pushRef =>
      dsimp only
      split
      · exact follows_refl _
      · exact follows_throw _ _
    | hasStatic | isNullish => exact follows_throw _ _
    | _ => exact follows_refl _

/-- An instruction that is executed is executed at any other address. -/
theorem follows_execute (h : i.Moved j) : Follows (execute game i) (execute game j) := by
  have hpushed := follows_pushed game h
  have hstore := follows_store game h
  have hextended := follows_extended game h
  obtain ⟨a, rfl⟩ := h
  obtain ⟨address, opcode, op, type1, type2, operand⟩ := i
  unfold execute
  cases opcode with
  | push | pushLoc | pushGlb | pushBltn | pushI => exact hpushed.bind fun e => follows_refl _
  | mul | div | rem | mod | add | sub | and | or | xor | shl | shr =>
    exact follows_pop_two fun right left => follows_refl _
  | cmp =>
    refine follows_pop_two fun right left => ?_
    cases operand with
    | comparison kind => exact follows_refl _
    | _ => exact follows_throw _ _
  | neg | not | conv => exact (follows_pop _ _).bind fun e => follows_refl _
  | dup =>
    cases operand with
    | dup size swapped =>
      dsimp only
      split
      · exact (follows_duplicate _ _ _ _).bind fun _ => follows_refl _
      · exact (follows_swap _ _ _ _).bind fun _ => follows_refl _
    | _ => exact follows_throw _ _
  | popz | ret => exact (follows_pop _ _).bind fun e => follows_refl _
  | pop =>
    cases operand with
    | popSwap size => exact (follows_sink _ _ _).bind fun _ => follows_refl _
    | var v => exact hstore v
    | _ => exact follows_throw _ _
  | call =>
    cases operand with
    | call function argc => exact (follows_popMany _ _ _).bind fun args => follows_refl _
    | _ => exact follows_throw _ _
  | callV =>
    cases operand with
    | call _ argc | callVariable argc =>
      exact follows_pop_two fun function holder =>
        (follows_popMany _ _ _).bind fun args => follows_refl _
    | _ => exact follows_throw _ _
  | exit => exact follows_refl _
  | popEnv =>
    dsimp only
    split
    · exact follows_refl _
    · exact follows_throw _ _
  | extended => exact hextended
  | b | bt | bf | pushEnv => exact follows_throw _ _

/-- Code that is executed is executed at any other place. -/
theorem follows_executeAll {is js : List Instr} (h : List.Forall₂ Instr.Moved is js) :
    Follows (executeAll game is) (executeAll game js) := by
  induction h with
  | nil => exact follows_refl _
  | cons hfirst _ ih =>
    exact (follows_execute game hfirst).bind fun out => ih.bind fun out' => follows_refl _

/-- How handlers are laid out does not matter to what code is executed to. -/
theorem executeAll_older (older : Bool) (is : List Instr) :
    executeAll { game with olderExceptionHandling := older } is = executeAll game is := by
  have hone : execute { game with olderExceptionHandling := older } = execute game := rfl
  induction is with
  | nil => rfl
  | cons i is ih => rw [executeAll, executeAll, ih, hone]

end

end Step

end GmlLift
