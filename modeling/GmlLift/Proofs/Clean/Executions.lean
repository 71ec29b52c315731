import GmlLift.Clean.ForLoop

/-! # What code does

A big-step semantics of statements over any meaning of expressions and of statements without parts.
A run of code ends normally, in a `break` or `continue` of the code around it, or by leaving the
function. Main result: `runs_toForLoops`, a block runs the same after its loops are written as `for`
loops. -/
namespace GmlLift

/-- How a run of code ends. -/
inductive Outcome where
  | normal
  | breaks
  | continues
  /-- The function is left, by a return, an exit or an exception. -/
  | leaves
deriving DecidableEq

/-- The meaning of all that is not control flow, as relations between the states before and after.
A flag tells whether the function is left on the way; a value that is missing, that it is. -/
structure Meaning (σ : Type) where
  /-- Statements without parts. -/
  atom : Stmt → σ → (leaves : Bool) → σ → Prop
  test : Expr → σ → Option Bool → σ → Prop
  /-- The head of a `repeat` or a `with`, before its first round. -/
  enter : Expr → σ → (leaves : Bool) → σ → Prop
  /-- Whether the head has a further round. -/
  more : Expr → σ → Option Bool → σ → Prop
  /-- What the end of the loop undoes, however it ends. -/
  done : Expr → σ → σ → Prop
  /-- The case of a switch that the value leads to, if there is one. -/
  choose : Expr → List (List (Option Expr)) → σ → Option (Option Nat) → σ → Prop
  /-- A handler, with its variable, that takes up what left the code it guards. -/
  caught : Option String → σ → σ → Prop
  uncaught : Option (Option String) → σ → Prop
  /-- Whether statics are still to be set up. -/
  fresh : List Stmt → σ → Bool → σ → Prop

/-- Statements that have no statements as parts and are no jumps. -/
def Stmt.isAtom : Stmt → Bool
  | .assign .. | .expr _ | .function _ | .returns _ | .exit | .throws _ => true
  | _ => false

/-- What decides whether a loop has a further round. -/
inductive Gate where
  | whileTrue (condition : Option Expr)
  | untilTrue (condition : Expr)
  | head (e : Expr)

/-- A loop with what runs before its gate comes up again. -/
structure Loop where
  gate : Gate
  body : List Stmt
  /-- After a round that ended normally. -/
  afterRound : Option Stmt
  /-- After a `continue`. -/
  afterContinue : Option Stmt

namespace Loop

/-- A `continue` tests the condition again, or runs the last statement of the body first. -/
def ofWhile (condition : Option Expr) (body : List Stmt) (continuesToStep : Bool) : Loop :=
  ⟨.whileTrue condition, body, none, if continuesToStep then body.getLast? else none⟩

/-- A `continue` runs the step. -/
def ofFor (condition : Expr) (step : Stmt) (body : List Stmt) : Loop :=
  ⟨.whileTrue (some condition), body, some step, some step⟩

def ofUntil (body : List Stmt) (condition : Expr) : Loop := ⟨.untilTrue condition, body, none, none⟩

def ofHead (head : Expr) (body : List Stmt) : Loop := ⟨.head head, body, none, none⟩

theorem afterContinue_ofWhile (condition : Option Expr) (rest : List Stmt) (step : Stmt) :
    (ofWhile condition (rest ++ [step]) true).afterContinue = some step := by
  rw [ofWhile, if_pos rfl, List.getLast?_concat]

end Loop

/-- Pieces of code that runs go through. -/
inductive Code where
  | stmt (s : Stmt)
  | block (body : List Stmt)
  /-- A loop whose gate comes up. -/
  | gate (l : Loop)
  /-- A loop at the start of a round. -/
  | round (l : Loop)
  /-- A loop after a round, with what runs before the gate comes up again. -/
  | next (l : Loop) (first : Option Stmt)
  /-- A block with the handler that guards it. -/
  | guarded (body : List Stmt) (handler : Option Handler)

variable {σ : Type}

/-- Whether a gate opens. -/
def Meaning.opens (M : Meaning σ) : Gate → σ → Option Bool → σ → Prop
  | .whileTrue none, s, result, s' => result = some true ∧ s' = s
  | .whileTrue (some c), s, result, s' => M.test c s result s'
  | .untilTrue c, s, result, s' => M.test c s (result.map not) s'
  | .head e, s, result, s' => M.more e s result s'

inductive Runs (M : Meaning σ) : Code → σ → Outcome → σ → Prop
  -- blocks
  | nil {s} : Runs M (.block []) s .normal s
  | cons {x rest s s₁ o s'} (hx : Runs M (.stmt x) s .normal s₁)
      (hrest : Runs M (.block rest) s₁ o s') : Runs M (.block (x :: rest)) s o s'
  | consJump {x rest s o s'} (hx : Runs M (.stmt x) s o s') (ho : o ≠ .normal) :
      Runs M (.block (x :: rest)) s o s'
  -- rounds of loops
  | stop {l s s'} (h : M.opens l.gate s (some false) s') : Runs M (.gate l) s .normal s'
  | gateLeaves {l s s'} (h : M.opens l.gate s none s') : Runs M (.gate l) s .leaves s'
  | go {l s s₁ o s'} (h : M.opens l.gate s (some true) s₁) (hround : Runs M (.round l) s₁ o s') :
      Runs M (.gate l) s o s'
  | roundNormal {l s s₁ o s'} (hbody : Runs M (.block l.body) s .normal s₁)
      (hnext : Runs M (.next l l.afterRound) s₁ o s') : Runs M (.round l) s o s'
  | roundContinues {l s s₁ o s'} (hbody : Runs M (.block l.body) s .continues s₁)
      (hnext : Runs M (.next l l.afterContinue) s₁ o s') : Runs M (.round l) s o s'
  | roundBreaks {l s s'} (hbody : Runs M (.block l.body) s .breaks s') :
      Runs M (.round l) s .normal s'
  | roundLeaves {l s s'} (hbody : Runs M (.block l.body) s .leaves s') :
      Runs M (.round l) s .leaves s'
  | nextGate {l s o s'} (hgate : Runs M (.gate l) s o s') : Runs M (.next l none) s o s'
  | nextNormal {l x s s₁ o s'} (hx : Runs M (.stmt x) s .normal s₁)
      (hgate : Runs M (.gate l) s₁ o s') : Runs M (.next l (some x)) s o s'
  | nextContinues {l x s s₁ o s'} (hx : Runs M (.stmt x) s .continues s₁)
      (hnext : Runs M (.next l (some x)) s₁ o s') : Runs M (.next l (some x)) s o s'
  | nextBreaks {l x s s'} (hx : Runs M (.stmt x) s .breaks s') :
      Runs M (.next l (some x)) s .normal s'
  | nextLeaves {l x s s'} (hx : Runs M (.stmt x) s .leaves s') :
      Runs M (.next l (some x)) s .leaves s'
  -- loops
  | whileLoop {c b f s o s'} (h : Runs M (.gate (.ofWhile c b f)) s o s') :
      Runs M (.stmt (.whileLoop c b f)) s o s'
  | forLoop {c x b s o s'} (h : Runs M (.gate (.ofFor c x b)) s o s') :
      Runs M (.stmt (.forLoop none c x b)) s o s'
  | forNormal {i c x b s s₁ o s'} (hi : Runs M (.stmt i) s .normal s₁)
      (h : Runs M (.gate (.ofFor c x b)) s₁ o s') : Runs M (.stmt (.forLoop (some i) c x b)) s o s'
  | forContinues {i c x b s s₁ o s'} (hi : Runs M (.stmt i) s .continues s₁)
      (h : Runs M (.next (.ofFor c x b) (some x)) s₁ o s') :
      Runs M (.stmt (.forLoop (some i) c x b)) s o s'
  | forBreaks {i c x b s s'} (hi : Runs M (.stmt i) s .breaks s') :
      Runs M (.stmt (.forLoop (some i) c x b)) s .normal s'
  | forLeaves {i c x b s s'} (hi : Runs M (.stmt i) s .leaves s') :
      Runs M (.stmt (.forLoop (some i) c x b)) s .leaves s'
  | doUntil {b c s o s'} (h : Runs M (.round (.ofUntil b c)) s o s') :
      Runs M (.stmt (.doUntil b c)) s o s'
  | repeatLoop {c b s s₁ o s₂ s'} (hc : M.enter c s false s₁)
      (h : Runs M (.gate (.ofHead c b)) s₁ o s₂) (hdone : M.done c s₂ s') :
      Runs M (.stmt (.repeatLoop c b)) s o s'
  | repeatLeaves {c b s s'} (hc : M.enter c s true s') : Runs M (.stmt (.repeatLoop c b)) s .leaves s'
  | withLoop {t b s s₁ o s₂ s'} (ht : M.enter t s false s₁)
      (h : Runs M (.gate (.ofHead t b)) s₁ o s₂) (hdone : M.done t s₂ s') :
      Runs M (.stmt (.withLoop t b)) s o s'
  | withLeaves {t b s s'} (ht : M.enter t s true s') : Runs M (.stmt (.withLoop t b)) s .leaves s'
  -- branches
  | condTrue {c t e s s₁ o s'} (hc : M.test c s (some true) s₁) (h : Runs M (.block t) s₁ o s') :
      Runs M (.stmt (.cond c t e)) s o s'
  | condFalse {c t e s s₁ o s'} (hc : M.test c s (some false) s₁)
      (h : Runs M (.block (e.getD [])) s₁ o s') : Runs M (.stmt (.cond c t e)) s o s'
  | condLeaves {c t e s s'} (hc : M.test c s none s') : Runs M (.stmt (.cond c t e)) s .leaves s'
  | case {v cs k s s₁ o s'} (hv : M.choose v (cs.map SwitchCase.labels) s (some (some k)) s₁)
      (h : Runs M (.block ((cs.drop k).flatMap SwitchCase.body)) s₁ o s') (ho : o ≠ .breaks) :
      Runs M (.stmt (.switch v cs)) s o s'
  | caseBreaks {v cs k s s₁ s'} (hv : M.choose v (cs.map SwitchCase.labels) s (some (some k)) s₁)
      (h : Runs M (.block ((cs.drop k).flatMap SwitchCase.body)) s₁ .breaks s') :
      Runs M (.stmt (.switch v cs)) s .normal s'
  | noCase {v cs s s'} (hv : M.choose v (cs.map SwitchCase.labels) s (some none) s') :
      Runs M (.stmt (.switch v cs)) s .normal s'
  | switchLeaves {v cs s s'} (hv : M.choose v (cs.map SwitchCase.labels) s none s') :
      Runs M (.stmt (.switch v cs)) s .leaves s'
  -- handlers
  | unguarded {b h s o s'} (hb : Runs M (.block b) s o s') (ho : o ≠ .leaves) :
      Runs M (.guarded b h) s o s'
  | uncaught {b h s s'} (hb : Runs M (.block b) s .leaves s')
      (hh : M.uncaught (h.map Handler.name) s') : Runs M (.guarded b h) s .leaves s'
  | caught {b n c s s₁ s₂ o s'} (hb : Runs M (.block b) s .leaves s₁) (hn : M.caught n s₁ s₂)
      (hc : Runs M (.block c) s₂ o s') : Runs M (.guarded b (some ⟨n, c⟩)) s o s'
  | tryCatch {b h s o s'} (hb : Runs M (.guarded b h) s o s') :
      Runs M (.stmt (.tryCatch b h none)) s o s'
  | tryFinally {b h f s o s₁ s'} (hb : Runs M (.guarded b h) s o s₁)
      (hf : Runs M (.block f) s₁ .normal s') : Runs M (.stmt (.tryCatch b h (some f))) s o s'
  | finallyJump {b h f s o s₁ o' s'} (hb : Runs M (.guarded b h) s o s₁)
      (hf : Runs M (.block f) s₁ o' s') (ho : o' ≠ .normal) :
      Runs M (.stmt (.tryCatch b h (some f))) s o' s'
  | staticInit {b s s₁ o s'} (hb : M.fresh b s true s₁) (h : Runs M (.block b) s₁ o s') :
      Runs M (.stmt (.staticInit b)) s o s'
  | staticDone {b s s'} (hb : M.fresh b s false s') : Runs M (.stmt (.staticInit b)) s .normal s'
  -- jumps, and statements without parts
  | breakJump {s} : Runs M (.stmt .breakJump) s .breaks s
  | continueJump {s} : Runs M (.stmt .continueJump) s .continues s
  | atom {x s s'} (ha : x.isAtom = true) (h : M.atom x s false s') : Runs M (.stmt x) s .normal s'
  | atomLeaves {x s s'} (ha : x.isAtom = true) (h : M.atom x s true s') :
      Runs M (.stmt x) s .leaves s'

namespace Runs

variable {M : Meaning σ}

/-! ## Which code continues the loop around it -/

theorem anyOwnContinue_append (a b : List Stmt) :
    Stmt.anyOwnContinue (a ++ b) = (Stmt.anyOwnContinue a || Stmt.anyOwnContinue b) := by
  induction a with
  | nil => simp [Stmt.anyOwnContinue]
  | cons x rest ih => simp [Stmt.anyOwnContinue, ih, Bool.or_assoc]

theorem anyOwnContinue_of_drop {cs : List SwitchCase} {k : Nat}
    (h : Stmt.anyOwnContinue ((cs.drop k).flatMap SwitchCase.body) = true) :
    SwitchCase.anyOwnContinue cs = true := by
  induction cs generalizing k with
  | nil => simp [Stmt.anyOwnContinue] at h
  | cons c rest ih =>
    obtain ⟨labels, body⟩ := c
    rw [SwitchCase.anyOwnContinue, Bool.or_eq_true]
    cases k with
    | zero =>
      rw [List.drop_zero, List.flatMap_cons, anyOwnContinue_append, Bool.or_eq_true] at h
      exact h.imp_right (ih (k := 0))
    | succ k => exact .inr (ih h)

end Runs

/-- Whether a run may end in a `continue` of the loop around the code. -/
def Code.mayContinue : Code → Bool
  | .stmt s => s.hasOwnContinue
  | .block b => Stmt.anyOwnContinue b
  | .guarded b h => Stmt.anyOwnContinue b || Handler.hasOwnContinue h
  | .gate _ | .round _ | .next .. => false

namespace Runs

variable {M : Meaning σ}

/-- Only code with a `continue` of its own ends in one. -/
theorem mayContinue {c : Code} {s s' : σ} (h : Runs M c s .continues s') : c.mayContinue = true := by
  generalize ho : Outcome.continues = o at h
  induction h with
  | cons _ _ _ ih => exact Bool.or_eq_true_iff.mpr (.inr (ih ho))
  | consJump _ _ ih => exact Bool.or_eq_true_iff.mpr (.inl (ih ho))
  | go _ _ ih | nextGate _ ih | whileLoop _ ih | forLoop _ ih | doUntil _ ih =>
    exact absurd (ih ho) Bool.false_ne_true
  | roundNormal _ _ _ ih | roundContinues _ _ _ ih | nextNormal _ _ _ ih | nextContinues _ _ _ ih
  | forNormal _ _ _ ih | forContinues _ _ _ ih =>
    exact absurd (ih ho) Bool.false_ne_true
  | repeatLoop _ _ _ ih | withLoop _ _ _ ih => exact absurd (ih ho) Bool.false_ne_true
  | @condTrue c t e _ _ _ _ _ _ ih =>
    cases e with
    | none => exact ih ho
    | some e => exact Bool.or_eq_true_iff.mpr (.inl (ih ho))
  | @condFalse c t e _ _ _ _ _ _ ih =>
    cases e with
    | none => exact absurd (ih ho) Bool.false_ne_true
    | some e => exact Bool.or_eq_true_iff.mpr (.inr (ih ho))
  | case _ _ _ ih => exact anyOwnContinue_of_drop (ih ho)
  | unguarded _ _ ih => exact Bool.or_eq_true_iff.mpr (.inl (ih ho))
  | caught _ _ _ _ ih => exact Bool.or_eq_true_iff.mpr (.inr (ih ho))
  | tryCatch _ ih => exact Bool.or_eq_true_iff.mpr (.inl (ih ho))
  | tryFinally _ _ ih => exact Bool.or_eq_true_iff.mpr (.inl (ih ho))
  | finallyJump _ _ _ _ ih => exact Bool.or_eq_true_iff.mpr (.inr (ih ho))
  | staticInit _ _ ih => exact ih ho
  | continueJump => rfl
  | nil | stop | gateLeaves | roundBreaks | roundLeaves | nextBreaks | nextLeaves | forBreaks
  | forLeaves | repeatLeaves | withLeaves | condLeaves | caseBreaks | noCase | switchLeaves
  | uncaught | staticDone | breakJump | atom | atomLeaves => cases ho

/-! ## Blocks -/

variable {s s' : σ} {o : Outcome} {a b : List Stmt} {x : Stmt}

theorem nil_iff : Runs M (.block []) s o s' ↔ o = .normal ∧ s' = s := by
  constructor
  · intro h
    cases h
    exact ⟨rfl, rfl⟩
  · rintro ⟨rfl, rfl⟩
    exact .nil

theorem cons_iff : Runs M (.block (x :: b)) s o s' ↔
    (∃ s₁, Runs M (.stmt x) s .normal s₁ ∧ Runs M (.block b) s₁ o s') ∨
      Runs M (.stmt x) s o s' ∧ o ≠ .normal := by
  constructor
  · intro h
    cases h with
    | cons hx hrest => exact .inl ⟨_, hx, hrest⟩
    | consJump hx ho => exact .inr ⟨hx, ho⟩
  · rintro (⟨s₁, hx, hrest⟩ | ⟨hx, ho⟩)
    · exact .cons hx hrest
    · exact .consJump hx ho

/-- A block that is one statement runs as the statement does. -/
theorem singleton_iff : Runs M (.block [x]) s o s' ↔ Runs M (.stmt x) s o s' := by
  rw [cons_iff]
  constructor
  · rintro (⟨s₁, hx, hnil⟩ | ⟨hx, -⟩)
    · obtain ⟨rfl, rfl⟩ := nil_iff.mp hnil
      exact hx
    · exact hx
  · intro hx
    by_cases ho : o = .normal
    · subst ho
      exact .inl ⟨s', hx, .nil⟩
    · exact .inr ⟨hx, ho⟩

theorem append_iff : Runs M (.block (a ++ b)) s o s' ↔
    (∃ s₁, Runs M (.block a) s .normal s₁ ∧ Runs M (.block b) s₁ o s') ∨
      Runs M (.block a) s o s' ∧ o ≠ .normal := by
  induction a generalizing s with
  | nil =>
    simp only [List.nil_append, nil_iff]
    grind
  | cons x a ih =>
    simp only [List.cons_append, cons_iff, ih]
    grind

/-! ## Loops with a step -/

theorem outcome_of_isAtom (hx : x.isAtom = true) (h : Runs M (.stmt x) s o s') :
    o = .normal ∨ o = .leaves := by
  cases h with
  | atom => exact .inl rfl
  | atomLeaves => exact .inr rfl
  | _ => cases hx

theorem concat_iff : Runs M (.block (b ++ [x])) s o s' ↔
    (∃ s₁, Runs M (.block b) s .normal s₁ ∧ Runs M (.stmt x) s₁ o s') ∨
      Runs M (.block b) s o s' ∧ o ≠ .normal := by
  simp only [append_iff, singleton_iff]

section

variable {c : Expr} {step : Stmt} {rest : List Stmt} {flag : Bool} {code code' : Code}

/-- Where a `while` loop stands and where the `for` loop that takes its last statement for a step
does. Between two rounds the `while` loop has run the step as a part of its body. -/
inductive Twin (c : Expr) (step : Stmt) (rest : List Stmt) (flag : Bool) : Code → Code → Prop
  | gate : Twin c step rest flag (.gate (.ofWhile (some c) (rest ++ [step]) flag))
      (.gate (.ofFor c step rest))
  | round : Twin c step rest flag (.round (.ofWhile (some c) (rest ++ [step]) flag))
      (.round (.ofFor c step rest))
  | between : Twin c step rest flag (.next (.ofWhile (some c) (rest ++ [step]) flag) none)
      (.gate (.ofFor c step rest))
  | resumed : Twin c step rest flag (.next (.ofWhile (some c) (rest ++ [step]) flag) (some step))
      (.next (.ofFor c step rest) (some step))

theorem Twin.ofFor (ht : Twin c step rest flag code code') (hstep : step.isAtom = true)
    (hcont : flag = true ∨ Stmt.anyOwnContinue rest = false) (h : Runs M code s o s') :
    Runs M code' s o s' := by
  induction h generalizing code' with
  | stop h => cases ht; exact .stop h
  | gateLeaves h => cases ht; exact .gateLeaves h
  | go h _ ih => cases ht; exact .go h (ih .round)
  | roundNormal hbody _ _ ih =>
    cases ht
    obtain ⟨s₁, hrest, hx⟩ | ⟨-, hne⟩ := concat_iff.mp hbody
    · exact .roundNormal hrest (.nextNormal hx (ih .between))
    · exact absurd rfl hne
  | roundContinues hbody hnext _ ih =>
    cases ht
    obtain ⟨s₁, -, hx⟩ | ⟨hrest, -⟩ := concat_iff.mp hbody
    · rcases outcome_of_isAtom hstep hx with ho | ho <;> cases ho
    · rcases hcont with rfl | hcont
      · rw [Loop.afterContinue_ofWhile] at ih
        exact .roundContinues hrest (ih .resumed)
      · exact absurd (mayContinue hrest) (by simp [Code.mayContinue, hcont])
  | roundBreaks hbody =>
    cases ht
    obtain ⟨s₁, -, hx⟩ | ⟨hrest, -⟩ := concat_iff.mp hbody
    · rcases outcome_of_isAtom hstep hx with ho | ho <;> cases ho
    · exact .roundBreaks hrest
  | roundLeaves hbody =>
    cases ht
    obtain ⟨s₁, hrest, hx⟩ | ⟨hrest, -⟩ := concat_iff.mp hbody
    · exact .roundNormal hrest (.nextLeaves hx)
    · exact .roundLeaves hrest
  | nextGate _ ih => cases ht; exact ih .gate
  | nextNormal hx _ _ ih => cases ht; exact .nextNormal hx (ih .gate)
  | nextContinues hx _ _ ih => cases ht; exact .nextContinues hx (ih .resumed)
  | nextBreaks hx => cases ht; exact .nextBreaks hx
  | nextLeaves hx => cases ht; exact .nextLeaves hx
  | _ => cases ht

/-- A step that follows a round closes the body of the `while` loop. -/
theorem roundOfWhile {s₁ : σ} (hstep : step.isAtom = true) (hrest : Runs M (.block rest) s .normal s₁)
    (h : Runs M (.next (.ofWhile (some c) (rest ++ [step]) flag) (some step)) s₁ o s') :
    Runs M (.round (.ofWhile (some c) (rest ++ [step]) flag)) s o s' := by
  cases h with
  | nextNormal hx hgate => exact .roundNormal (concat_iff.mpr (.inl ⟨_, hrest, hx⟩)) (.nextGate hgate)
  | nextContinues hx _ => rcases outcome_of_isAtom hstep hx with ho | ho <;> cases ho
  | nextBreaks hx => rcases outcome_of_isAtom hstep hx with ho | ho <;> cases ho
  | nextLeaves hx => exact .roundLeaves (concat_iff.mpr (.inl ⟨_, hrest, hx⟩))

theorem Twin.ofWhile (ht : Twin c step rest flag code code') (hstep : step.isAtom = true)
    (hcont : flag = true ∨ Stmt.anyOwnContinue rest = false) (h : Runs M code' s o s') :
    Runs M code s o s' := by
  induction h generalizing code with
  | stop h => cases ht with
    | gate => exact .stop h
    | between => exact .nextGate (.stop h)
  | gateLeaves h => cases ht with
    | gate => exact .gateLeaves h
    | between => exact .nextGate (.gateLeaves h)
  | go h _ ih => cases ht with
    | gate => exact .go h (ih .round)
    | between => exact .nextGate (.go h (ih .round))
  | roundNormal hrest _ _ ih =>
    cases ht
    exact roundOfWhile hstep hrest (ih .resumed)
  | roundContinues hrest _ _ ih =>
    cases ht
    rcases hcont with rfl | hcont
    · refine .roundContinues (concat_iff.mpr (.inr ⟨hrest, nofun⟩)) ?_
      rw [Loop.afterContinue_ofWhile]
      exact ih .resumed
    · exact absurd (mayContinue hrest) (by simp [Code.mayContinue, Loop.ofFor, hcont])
  | roundBreaks hrest => cases ht; exact .roundBreaks (concat_iff.mpr (.inr ⟨hrest, nofun⟩))
  | roundLeaves hrest => cases ht; exact .roundLeaves (concat_iff.mpr (.inr ⟨hrest, nofun⟩))
  | nextNormal hx _ _ ih => cases ht; exact .nextNormal hx (ih .gate)
  | nextContinues hx _ _ ih => cases ht; exact .nextContinues hx (ih .resumed)
  | nextBreaks hx => cases ht; exact .nextBreaks hx
  | nextLeaves hx => cases ht; exact .nextLeaves hx
  | _ => cases ht

/-- A `while` loop runs as the `for` loop that takes its last statement for the step. -/
theorem forLoop_iff (hstep : step.isAtom = true)
    (hcont : flag = true ∨ Stmt.anyOwnContinue rest = false) :
    Runs M (.stmt (.forLoop none c step rest)) s o s' ↔
      Runs M (.stmt (.whileLoop (some c) (rest ++ [step]) flag)) s o s' := by
  constructor
  · rintro (_ | _)
    · exact .whileLoop (Twin.gate.ofWhile hstep hcont ‹_›)
    all_goals cases ‹Stmt.isAtom (.forLoop ..) = true›
  · rintro (_ | _)
    · exact .forLoop (Twin.gate.ofFor hstep hcont ‹_›)
    all_goals cases ‹Stmt.isAtom (.whileLoop ..) = true›

/-- A statement that only initialises may stand before the loop or in its head. -/
theorem forInit_iff {i : Stmt} (hi : i.isAtom = true) :
    Runs M (.stmt (.forLoop (some i) c step rest)) s o s' ↔
      Runs M (.block [i, .forLoop none c step rest]) s o s' := by
  rw [cons_iff]
  constructor
  · intro h
    cases h with
    | forNormal hx h => exact .inl ⟨_, hx, singleton_iff.mpr (.forLoop h)⟩
    | forContinues hx _ => rcases outcome_of_isAtom hi hx with ho | ho <;> cases ho
    | forBreaks hx => rcases outcome_of_isAtom hi hx with ho | ho <;> cases ho
    | forLeaves hx => exact .inr ⟨hx, nofun⟩
    | atom ha | atomLeaves ha => cases ha
  · rintro (⟨s₁, hx, h⟩ | ⟨hx, ho⟩)
    · cases singleton_iff.mp h with
      | forLoop h => exact .forNormal hx h
      | atom ha | atomLeaves ha => cases ha
    · obtain rfl := (outcome_of_isAtom hi hx).resolve_left ho
      exact .forLeaves hx

end

/-! ## Blocks with `for` loops -/

theorem isAtom_of_stepVar? {v : Var} (h : x.stepVar? = some v) : x.isAtom = true := by
  cases x with
  | assign | expr => rfl
  | _ => cases h

theorem isAtom_of_isInitOf {v : Var} (h : x.isInitOf v = true) : x.isAtom = true := by
  cases x with
  | assign => rfl
  | _ => cases h

theorem eq_concat_of_splitStep? {body rest : List Stmt} {step : Stmt}
    (h : splitStep? body = some (rest, step)) : body = rest ++ [step] := by
  obtain ⟨last, hlast, heq⟩ := Option.map_eq_some_iff.mp h
  obtain ⟨rest', rfl⟩ := List.getLast?_eq_some_iff.mp hlast
  rw [List.dropLast_concat, Prod.mk.injEq] at heq
  rw [heq.1, heq.2]

/-- A loop is only converted when all of its `continue`s get to the step. -/
theorem continues_of_join {flag hasInit : Bool} {rest : List Stmt} {step : Stmt}
    (h : (flag || hasInit && !Stmt.anyOwnContinue (rest ++ [step])) = true) :
    flag = true ∨ Stmt.anyOwnContinue rest = false := by
  rw [anyOwnContinue_append] at h
  grind

/-- A loop and the statement before it run as before once the loop is a `for` loop. -/
theorem joinLoop_iff (before : Option Stmt) (x : Stmt) :
    Runs M (.block ((joinLoop before x).1.toList ++ [(joinLoop before x).2])) s o s' ↔
      Runs M (.block (before.toList ++ [x])) s o s' := by
  fun_cases joinLoop before x with
  | case4 c body flag rest step hsplit v hv hasInit _ hjoin hinit =>
    obtain rfl := eq_concat_of_splitStep? hsplit
    obtain ⟨i, rfl, hi⟩ : ∃ i, before = some i ∧ i.isInitOf v = true := by
      simpa [hasInit, Option.any_eq_true] using hinit
    rw [Option.toList_none, List.nil_append, singleton_iff, forInit_iff (isAtom_of_isInitOf hi)]
    simp only [Option.toList_some, List.singleton_append, cons_iff,
      forLoop_iff (isAtom_of_stepVar? hv) (continues_of_join hjoin)]
  | case5 c body flag rest step hsplit v hv hasInit _ hjoin hinit =>
    obtain rfl := eq_concat_of_splitStep? hsplit
    simp only [concat_iff, forLoop_iff (isAtom_of_stepVar? hv) (continues_of_join hjoin)]
  | _ => rfl

theorem forLoopsAfter_iff (before : Option Stmt) (body : List Stmt) :
    Runs M (.block (forLoopsAfter before body)) s o s' ↔
      Runs M (.block (before.toList ++ body)) s o s' := by
  induction body generalizing before s with
  | nil => simp [forLoopsAfter]
  | cons x rest ih =>
    calc Runs M (.block (forLoopsAfter before (x :: rest))) s o s'
      _ ↔ Runs M (.block ((joinLoop before x).1.toList ++ ([(joinLoop before x).2] ++ rest))) s o s' := by
        simp only [forLoopsAfter, append_iff, ih, Option.toList_some]
      _ ↔ Runs M (.block ((before.toList ++ [x]) ++ rest)) s o s' := by
        rw [← List.append_assoc, append_iff (a := _ ++ _)]
        simp only [joinLoop_iff, append_iff (b := rest)]
      _ ↔ Runs M (.block (before.toList ++ x :: rest)) s o s' := by
        rw [List.append_assoc, List.singleton_append]

end Runs

/-- Writing the loops of a block as `for` loops changes no run of it. -/
theorem runs_toForLoops (M : Meaning σ) (body : List Stmt) (s : σ) (o : Outcome) (s' : σ) :
    Runs M (.block (toForLoops body)) s o s' ↔ Runs M (.block body) s o s' :=
  Runs.forLoopsAfter_iff none body

end GmlLift
