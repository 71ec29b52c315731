import GmlLift.Proofs.Build.Branches
import GmlLift.Proofs.Frame.PostOrder

/-! # Nested conditionals are recovered

Calls, assignments and conditionals, in each other and after one another to any depth, are laid out
as the compiler lays them out:

```text
push.v self.c; conv.v.b; bf [else]     ; without an else, [else] and [end] are one
<then>
b [end]                                ; only with an else
:[else]
<else>
:[end]
```

Analyzed and built, the code gives back the statements. -/
namespace GmlLift

open GmlLift.Graph Step

namespace Branch

/-- Statements one after another, each a call, an assignment or a conditional. -/
inductive Script where
  | done
  | call (function : String) (rest : Script)
  | assign (name : String) (value : Int16) (rest : Script)
  /-- There is no `else` where the second branch is empty. -/
  | cond (tested : String) (onTrue onFalse rest : Script)

namespace Script

def isDone : Script → Bool
  | done => true
  | _ => false

/-- A variable of the instance that runs the code. -/
def own (name : String) : Var := ⟨name, .scope .own, [], false⟩

/-- The statements in the form that source text has. -/
def statements : Script → List Stmt
  | done => []
  | call function rest => .expr (.ofKind (.call function []) .var) :: rest.statements
  | assign name value rest =>
    .assign (own name) (.ofKind (.int16 value false) .int16) .normal false :: rest.statements
  | cond tested onTrue onFalse rest =>
    .cond ((Expr.ofVar (own tested)).withStackType .bool) onTrue.statements
      (if onFalse.isDone then none else some onFalse.statements) :: rest.statements

/-- A function whose calls without arguments are plain calls. The others have names that source text
cannot have: they stand for syntax, or mark exception handlers. -/
def IsPlain (function : String) : Prop :=
  function ∉ [Call.newArray, "@@This@@", "@@Other@@", "@@Global@@", Hook.try_, Hook.finishFinally]

instance (function : String) : Decidable (IsPlain function) :=
  inferInstanceAs (Decidable (function ∉ _))

/-- Each call is a plain one, and nothing is assigned to the name that the compiler keeps to itself. -/
def Plain : Script → Prop
  | done => True
  | call function rest => IsPlain function ∧ rest.Plain
  | assign name _ rest => name ≠ returnTemp ∧ rest.Plain
  | cond _ onTrue onFalse rest => onTrue.Plain ∧ onFalse.Plain ∧ rest.Plain

/-! ## The layout -/

/-- `call.i f 0; popz.v`. -/
def callCode (a : Nat) (function : String) : List Instr :=
  [⟨a, .call, none, .int32, .int32, .call function 0⟩, ⟨a + 8, .popz, none, .var, .var, .none⟩]

/-- `pushi.e n; pop.v.i self.x`. -/
def assignCode (a : Nat) (name : String) (value : Int16) : List Instr :=
  [⟨a, .pushI, none, .int16, .int16, .int16 value⟩,
    ⟨a + 4, .pop, none, .var, .int32, .var ⟨name, -1, .normal⟩⟩]

/-- `push.v self.c; conv.v.b`. -/
def loadCode (a : Nat) (tested : String) : List Instr :=
  [⟨a, .push, none, .var, .var, .var ⟨tested, -1, .normal⟩⟩, ⟨a + 8, .conv, none, .var, .bool, .none⟩]

/-- A jump at an address to another one. -/
def jump (op : Opcode) (a target : Nat) : Instr :=
  ⟨a, op, none, .int32, .int32, .branch ((target : Int) - a)⟩

/-- The jump over a second branch, where there is one. -/
def leap (onFalse : Script) (a target : Nat) : Option Instr :=
  if onFalse.isDone then none else some (jump .b a target)

def leapSize (onFalse : Script) : Nat := if onFalse.isDone then 0 else 4

/-- How many bytes the code takes. -/
def size : Script → Nat
  | done => 0
  | call _ rest => 12 + rest.size
  | assign _ _ rest => 12 + rest.size
  | cond _ onTrue onFalse rest => 16 + onTrue.size + onFalse.leapSize + onFalse.size + rest.size

/-- The code, from an address on. -/
def code : Script → (a : Nat) → List Instr
  | done, _ => []
  | call function rest, a => callCode a function ++ rest.code (a + 12)
  | assign name value rest, a => assignCode a name value ++ rest.code (a + 12)
  | cond tested onTrue onFalse rest, a =>
    let leave := a + 16 + onTrue.size
    let other := leave + onFalse.leapSize
    let after := other + onFalse.size
    loadCode a tested ++ [jump .bf (a + 12) other] ++ onTrue.code (a + 16) ++
      (onFalse.leap leave after).toList ++ onFalse.code other ++ rest.code after

/-- The tree of the blocks of the code that follows on straight code, and of what closes it. -/
def nest : Script → (lead : List Instr) → (a : Nat) → (closing : Option Instr) → Nest
  | done, lead, _, closing => if lead = [] ∧ closing = none then .done else .last lead closing
  | call function rest, lead, a, closing => rest.nest (lead ++ callCode a function) (a + 12) closing
  | assign name value rest, lead, a, closing =>
    rest.nest (lead ++ assignCode a name value) (a + 12) closing
  | cond tested onTrue onFalse rest, lead, a, closing =>
    let leave := a + 16 + onTrue.size
    let other := leave + onFalse.leapSize
    let after := other + onFalse.size
    .cond (lead ++ loadCode a tested) (jump .bf (a + 12) other)
      (onTrue.nest [] (a + 16) (onFalse.leap leave after)) (onFalse.nest [] other none)
      (rest.nest [] after closing)

section

variable {s : Script} {a start : Nat} {lead : List Instr} {closing : Option Instr}

theorem jump_target (op : Opcode) (a target : Nat) : (jump op a target).target? = some target := by
  have hoffset : ((a : Int) + (target - a)).toNat = target := by omega
  exact congrArg some hoffset

theorem isDone_iff : s.isDone = true ↔ s = .done := by
  cases s <;> simp [isDone]

/-- Code takes up the bytes from an address to another one. -/
def Stands (a : Nat) (is : List Instr) (b : Nat) : Prop := Contiguous a is ∧ endFrom a is = b

theorem Stands.append {a b c : Nat} {is js : List Instr} (h : Stands a is b) (h' : Stands b js c) :
    Stands a (is ++ js) c := by
  obtain ⟨hc, rfl⟩ := h
  exact ⟨Contiguous.append.mpr ⟨hc, h'.1⟩, (endFrom_append ..).trans h'.2⟩

theorem stands_leap (onFalse : Script) (a target : Nat) :
    Stands a (onFalse.leap a target).toList (a + onFalse.leapSize) := by
  unfold leap leapSize
  split
  · exact ⟨trivial, rfl⟩
  · exact ⟨⟨rfl, trivial⟩, rfl⟩

theorem stands_test (a : Nat) (tested : String) (other : Nat) :
    Stands a (loadCode a tested ++ [jump .bf (a + 12) other]) (a + 16) :=
  ⟨⟨rfl, rfl, rfl, trivial⟩, rfl⟩

theorem stands_code (s : Script) (a : Nat) : Stands a (s.code a) (a + s.size) := by
  induction s generalizing a with
  | done => exact ⟨trivial, rfl⟩
  | call function rest ih =>
    have hcall : Stands a (callCode a function) (a + 12) := ⟨⟨rfl, rfl, trivial⟩, rfl⟩
    rw [size, ← Nat.add_assoc]
    exact hcall.append (ih (a + 12))
  | assign name value rest ih =>
    have hassign : Stands a (assignCode a name value) (a + 12) := ⟨⟨rfl, rfl, trivial⟩, rfl⟩
    rw [size, ← Nat.add_assoc]
    exact hassign.append (ih (a + 12))
  | cond tested onTrue onFalse rest ihTrue ihFalse ihRest =>
    rw [size]
    simp only [← Nat.add_assoc]
    exact (((stands_test ..).append (ihTrue _)).append (stands_leap ..)).append (ihFalse _)
      |>.append (ihRest _)

theorem code_nest (s : Script) (lead : List Instr) (a : Nat) (closing : Option Instr) :
    (s.nest lead a closing).code = lead ++ s.code a ++ closing.toList := by
  induction s generalizing lead a closing with
  | done =>
    unfold nest
    split
    · rename_i h
      rw [h.1, h.2]
      rfl
    · simp [Nest.code, code]
  | call function rest ih | assign name value rest ih =>
    rw [nest, ih, code]
    simp only [List.append_assoc]
  | cond tested onTrue onFalse rest ihTrue ihFalse ihRest =>
    simp [nest, code, Nest.code, ihTrue, ihFalse, ihRest]

theorem nest_eq_done (h : s.nest lead a closing = .done) : s = .done ∧ lead = [] ∧ closing = none := by
  induction s generalizing lead a with
  | done =>
    rw [nest] at h
    split at h
    · rename_i hempty
      exact ⟨rfl, hempty⟩
    · cases h
  | call function rest ih | assign name value rest ih =>
    have hlead := (ih h).2.1
    cases (List.append_eq_nil_iff.mp hlead).2
  | cond => cases h

theorem final_nest (s : Script) (lead : List Instr) (a : Nat) (i : Instr) :
    (s.nest lead a (some i)).final = some (some i) := by
  induction s generalizing lead a with
  | done =>
    rw [nest, if_neg (by simp)]
    rfl
  | call function rest ih | assign name value rest ih => exact ih _ _
  | cond tested onTrue onFalse rest ihTrue ihFalse ihRest => exact ihRest _ _

theorem open_nest (s : Script) (lead : List Instr) (a : Nat) : (s.nest lead a none).Open := by
  induction s generalizing lead a with
  | done =>
    intro i hi
    rw [nest] at hi
    split at hi <;> cases hi
  | call function rest ih | assign name value rest ih => exact ih _ _
  | cond tested onTrue onFalse rest ihTrue ihFalse ihRest => exact ihRest _ _

/-- A first branch jumps over a second one that there is. -/
theorem joins_nest (onTrue onFalse : Script) (a other leave after : Nat) :
    Nest.Joins (onTrue.nest [] a (onFalse.leap leave after)) (onFalse.nest [] other none) after := by
  unfold leap
  split
  · rename_i hdone
    rw [isDone_iff.mp hdone]
    exact .inl ⟨rfl, open_nest onTrue [] a⟩
  · rename_i hdone
    refine .inr ⟨fun h => hdone (isDone_iff.mpr (nest_eq_done h).1), jump .b leave after,
      final_nest .., rfl, jump_target ..⟩

theorem unmarked_loadCode (a : Nat) (tested : String) : ∀ i ∈ loadCode a tested, i.Unmarked := by
  intro i hi
  rcases List.mem_pair.mp hi with rfl | rfl <;>
    exact ⟨Instr.ordinary_of_opcode rfl (by simp) (by simp), by simp⟩

theorem unmarked_assignCode (a : Nat) (name : String) (value : Int16) :
    ∀ i ∈ assignCode a name value, i.Unmarked := by
  intro i hi
  rcases List.mem_pair.mp hi with rfl | rfl <;>
    exact ⟨Instr.ordinary_of_opcode rfl (by simp) (by simp), by simp⟩

theorem unmarked_callCode {function : String} (h : IsPlain function) (a : Nat) :
    ∀ i ∈ callCode a function, i.Unmarked := by
  have hcall : ∀ name, function ≠ name → (some function == some name) = false := fun name hne => by
    simpa using hne
  simp only [IsPlain, List.mem_cons, List.not_mem_nil, or_false, not_or] at h
  intro i hi
  rcases List.mem_pair.mp hi with rfl | rfl
  · exact ⟨⟨⟨rfl, hcall _ h.2.2.2.2.1, hcall _ h.2.2.2.2.2⟩, rfl, rfl⟩, by simp⟩
  · exact ⟨Instr.ordinary_of_opcode rfl (by simp) (by simp), by simp⟩

/-- The jumps lead where the tree says, from code that stands before the script. -/
theorem laid_nest (hs : s.Plain) (hlead : ∀ i ∈ lead, i.Unmarked) (hend : endFrom start lead = a) :
    (s.nest lead a closing).Laid start := by
  induction s generalizing lead a start closing with
  | done =>
    rw [nest]
    split
    · trivial
    · rename_i hne
      refine ⟨hlead, fun h => hne ?_⟩
      obtain ⟨hnil, hclosing⟩ := List.append_eq_nil_iff.mp h
      exact ⟨hnil, Option.toList_eq_nil_iff.mp hclosing⟩
  | call function rest ih =>
    refine ih hs.2 (List.forall_mem_append.mpr ⟨hlead, unmarked_callCode hs.1 a⟩) ?_
    rw [endFrom_append, hend]
    rfl
  | assign name value rest ih =>
    refine ih hs.2 (List.forall_mem_append.mpr ⟨hlead, unmarked_assignCode a name value⟩) ?_
    rw [endFrom_append, hend]
    rfl
  | cond tested onTrue onFalse rest ihTrue ihFalse ihRest =>
    obtain ⟨hTrue, hFalse, hRest⟩ := hs
    let leave := a + 16 + onTrue.size
    let other := leave + onFalse.leapSize
    let after := other + onFalse.size
    have hinner : endFrom start (lead ++ loadCode a tested ++ [jump .bf (a + 12) other]) = a + 16 := by
      rw [List.append_assoc, endFrom_append, hend]
      exact (stands_test a tested other).2
    have hother : endFrom (a + 16) (onTrue.nest [] (a + 16) (onFalse.leap leave after)).code = other := by
      rw [code_nest]
      exact ((stands_code onTrue _).append (stands_leap onFalse leave after)).2
    have hafter : endFrom other (onFalse.nest [] other none).code = after := by
      rw [code_nest, Option.toList_none, List.append_nil]
      exact (stands_code onFalse other).2
    have hnil : ∀ i ∈ ([] : List Instr), i.Unmarked := List.forall_mem_nil _
    have hbare : ∀ b, endFrom b [] = b := fun _ => rfl
    have hstraight := List.forall_mem_append.mpr ⟨hlead, unmarked_loadCode a tested⟩
    rw [nest, Nest.Laid, hinner, hother, hafter]
    exact ⟨hstraight, rfl, jump_target .., joins_nest .., open_nest onFalse [] other,
      ihTrue hTrue hnil (hbare _), ihFalse hFalse hnil (hbare _), ihRest hRest hnil (hbare _)⟩

/-! ## What the code executes to -/

variable {game : Game} {f : Frame} {before ends : List Stmt}

theorem callExpr_of_isPlain {function : String} (h : IsPlain function) :
    Call.expr function [] = .ofKind (.call function []) .var := by
  simp only [IsPlain, List.mem_cons, List.not_mem_nil, or_false, not_or] at h
  obtain ⟨harray, hthis, hother, hglobal, -⟩ := h
  unfold Call.expr
  simp only [if_neg harray, if_neg hthis, if_neg hother, if_neg hglobal, ite_self]

theorem executeAll_callCode {function : String} (h : IsPlain function) (a : Nat) (game : Game)
    (f : Frame) :
    executeAll game (callCode a function) f = .ok [.expr (.ofKind (.call function []) .var)] f := by
  have hrun : executeAll game (callCode a function) f = .ok [dropped (Call.expr function [])] f := rfl
  rw [hrun, callExpr_of_isPlain h]
  rfl

theorem executeAll_assignCode {name : String} (h : name ≠ returnTemp) (a : Nat) (value : Int16)
    (game : Game) (f : Frame) : executeAll game (assignCode a name value) f =
      .ok [.assign (own name) (.ofKind (.int16 value false) .int16) .normal false] f := by
  obtain ⟨entry, argumentCount, stack, functions, returnValue⟩ := f
  unfold assignCode executeAll execute
  simp only [executeAll, execute, store, if_neg h]
  rfl

theorem executeAll_loadCode (a : Nat) (tested : String) (game : Game) (hf : f.returnValue = none) :
    executeAll game (loadCode a tested) f =
      .ok [] { f with stack := (Expr.ofVar (own tested)).withStackType .bool :: f.stack } := by
  obtain ⟨entry, argumentCount, stack, functions, returnValue⟩ := f
  obtain rfl : returnValue = none := hf
  have hplace : access game ⟨a, .push, none, .var, .var, .var ⟨tested, -1, .normal⟩⟩
      ⟨tested, -1, .normal⟩ { entry, argumentCount, stack, functions } =
      .ok (own tested) { entry, argumentCount, stack, functions } := rfl
  have hpush : execute game ⟨a, .push, none, .var, .var, .var ⟨tested, -1, .normal⟩⟩
      { entry, argumentCount, stack, functions } =
      .ok [] { entry, argumentCount, stack := .ofVar (own tested) :: stack, functions } := by
    simp only [execute, pushed, bind, EStateM.bind, get_run, ite_self, hplace]
    rfl
  exact executeAll_cons_ok hpush rfl

theorem isEmpty_statements (s : Script) : s.statements.isEmpty = s.isDone := by
  cases s <;> rfl

/-- An `else` branch without statements is none. -/
theorem filter_statements (s : Script) : ((some s.statements).filter fun b => !b.isEmpty) =
    if s.isDone then none else some s.statements := by
  rw [Option.filter_some, isEmpty_statements]
  cases s.isDone <;> rfl

/-- The blocks of the tree complete what stands before the script, its statements and what closes
it. -/
theorem executes_nest (hs : s.Plain) (hf : f.returnValue = none)
    (hlead : executeAll game lead f = .ok before f)
    (hclosing : executeAll game (closing.filter (·.opcode != .b)).toList f = .ok ends f) :
    (s.nest lead a closing).Executes game f (before ++ s.statements ++ ends) := by
  induction s generalizing lead a closing before ends with
  | done =>
    rw [nest]
    split
    · rename_i hempty
      obtain ⟨rfl, rfl⟩ := hempty
      cases hlead
      cases hclosing
      exact .done
    · rw [statements, List.append_nil]
      exact .last (executeAll_append_ok hlead hclosing)
  | call function rest ih =>
    have hrest := ih (a := a + 12) hs.2
      (executeAll_append_ok hlead (executeAll_callCode hs.1 a game f)) hclosing
    rw [List.append_assoc before] at hrest
    exact hrest
  | assign name value rest ih =>
    have hrest := ih (a := a + 12) hs.2
      (executeAll_append_ok hlead (executeAll_assignCode hs.1 a value game f)) hclosing
    rw [List.append_assoc before] at hrest
    exact hrest
  | cond tested onTrue onFalse rest ihTrue ihFalse ihRest =>
    obtain ⟨hTrue, hFalse, hRest⟩ := hs
    have htest := executeAll_append_ok hlead (executeAll_loadCode a tested game hf)
    rw [List.append_nil] at htest
    have hnil : executeAll game [] f = .ok [] f := rfl
    have hover : ∀ leave after, executeAll game
        ((onFalse.leap leave after).filter (·.opcode != .b)).toList f = .ok [] f := by
      intro leave after
      unfold leap
      split <;> rfl
    let leave := a + 16 + onTrue.size
    let other := leave + onFalse.leapSize
    let after := other + onFalse.size
    have hfirst : (onTrue.nest [] (a + 16) (onFalse.leap leave after)).Executes game f
        ([] ++ onTrue.statements ++ []) := ihTrue hTrue hnil (hover leave after)
    have hsecond : (onFalse.nest [] other none).Executes game f ([] ++ onFalse.statements ++ []) :=
      ihFalse hFalse hnil hnil
    have hafter : (rest.nest [] after closing).Executes game f ([] ++ rest.statements ++ ends) :=
      ihRest hRest hnil hclosing
    rw [List.nil_append, List.append_nil] at hfirst hsecond
    rw [nest, statements, ← filter_statements, List.append_assoc]
    exact .cond htest hfirst hsecond hafter

end

/-- The code of a script that an `exit` ends. -/
def program (s : Script) : List Instr := s.code 0 ++ [⟨s.size, .exit, none, .int32, .int32, .none⟩]

theorem nestCode {s : Script} (hs : s.Plain) {code : CodeEntry} (hinstrs : code.instrs = s.program)
    (hlength : CodeEntry.endOf code.instrs = code.length) (halone : code.descendants = []) :
    NestCode (s.nest [] 0 (some ⟨s.size, .exit, none, .int32, .int32, .none⟩)) code where
  single := by
    obtain ⟨hcontiguous, hend⟩ := s.stands_code 0
    refine ⟨?_, hlength, halone⟩
    rw [hinstrs, program, Contiguous.append, hend, Nat.zero_add]
    exact ⟨hcontiguous, rfl, trivial⟩
  instrs := by
    rw [hinstrs, code_nest]
    rfl
  laid := laid_nest hs (List.forall_mem_nil _) rfl
  exits := ⟨_, final_nest .., rfl⟩

end Script

/-- Calls, assignments and conditionals, in each other and after one another to any depth, are laid
out as the compiler lays them out, with an `exit` behind. The code is analyzed and built without an
error or a warning to these statements and the exit. -/
theorem buildStatements_conditionals {s : Script} (hs : s.Plain) {code : CodeEntry}
    (hinstrs : code.instrs = s.program) (hlength : CodeEntry.endOf code.instrs = code.length)
    (halone : code.descendants = []) (layout : TryCatch.Layout) (game : Game)
    (settings : Settings) : ∃ g, analyze code layout = .ok g ∧
      buildStatements g game settings = .ok (s.statements ++ [.exit], []) := by
  have hnest := Script.nestCode hs hinstrs hlength halone
  have hexecutes : Nest.Executes game { entry := code.name, argumentCount := code.argumentCount }
      (s.nest [] 0 (some ⟨s.size, .exit, none, .int32, .int32, .none⟩))
      ([] ++ s.statements ++ [.exit]) := Script.executes_nest hs rfl rfl rfl
  obtain ⟨g, hanalyze, hbuild⟩ := hnest.exists_built settings hexecutes
  exact ⟨g, hanalyze layout, hbuild⟩

/-- `if (c) { if (d) {} else { x = 1; } } else { f(); }`. -/
def nestedExample : CodeEntry := .ofInstrs "gml_Script_example" [
  ⟨0, .push, none, .var, .var, .var ⟨"c", -1, .normal⟩⟩,
  ⟨8, .conv, none, .var, .bool, .none⟩,
  ⟨12, .bf, none, .int32, .int32, .branch 40⟩,
  ⟨16, .push, none, .var, .var, .var ⟨"d", -1, .normal⟩⟩,
  ⟨24, .conv, none, .var, .bool, .none⟩,
  ⟨28, .bf, none, .int32, .int32, .branch 8⟩,
  ⟨32, .b, none, .int32, .int32, .branch 16⟩,
  ⟨36, .pushI, none, .int16, .int16, .int16 1⟩,
  ⟨40, .pop, none, .var, .int32, .var ⟨"x", -1, .normal⟩⟩,
  ⟨48, .b, none, .int32, .int32, .branch 16⟩,
  ⟨52, .call, none, .int32, .int32, .call "f" 0⟩,
  ⟨60, .popz, none, .var, .var, .none⟩,
  ⟨64, .exit, none, .int32, .int32, .none⟩]

theorem buildStatements_conditionals_nestedExample : ∃ g, analyze nestedExample .catchFirst = .ok g ∧
    buildStatements g {} {} = .ok ([
      .cond ((Expr.ofVar ⟨"c", .scope .own, [], false⟩).withStackType .bool)
        [.cond ((Expr.ofVar ⟨"d", .scope .own, [], false⟩).withStackType .bool) []
          (some [.assign ⟨"x", .scope .own, [], false⟩ (.ofKind (.int16 1 false) .int16) .normal
            false])]
        (some [.expr (.ofKind (.call "f" []) .var)]),
      .exit], []) := by
  have hplain : Script.Plain (.cond "c" (.cond "d" .done (.assign "x" 1 .done) .done)
      (.call "f" .done) .done) :=
    ⟨⟨trivial, ⟨by decide, trivial⟩, trivial⟩, ⟨by decide, trivial⟩, trivial⟩
  exact buildStatements_conditionals hplain rfl rfl rfl .catchFirst {} {}

end Branch

end GmlLift
