import GmlLift.Proofs.Frame.Height
import GmlLift.Source.Basic

/-! # The forms of stores

A store of an operation on its own target is written with the operator before the `=`. Main result:
`stored_assign` says what each form of a store says of the value, and for which operators the short
form reads as the operation does: not for whole-number division, which has no short form, and not
for the bitwise operators of two booleans, which are logical ones in the operation only. -/
namespace GmlLift

open Source

/-- The operators that can stand before an `=`. -/
def compoundWords : List String := ["+", "-", "*", "/", "%", "&", "|", "^", "<<", ">>"]

namespace Assign

variable {f : Frame} {target : Var} {value : Expr}

/-- Whether a value is an operation whose left operand is the target. -/
def UpdateOf (target : Var) (value : Expr) (op : BinaryOp) (right : Expr) : Prop :=
  ∃ left v, value.kind = .binary op left right ∧ left.kind = .var v ∧ v.sameAs target = true

/-- What a store may come to. -/
inductive Stored (f : Frame) (target : Var) (value : Expr) : Frame × List Stmt → Prop
  | compound {op : BinaryOp} {right : Expr} (h : UpdateOf target value op right) :
      Stored f target value (f, [.assign target right (.compound op) false])
  | step {increment : Bool} {one : Expr} (hone : one.kind = .int16 1 true)
      (h : UpdateOf target value (if increment then .add else .sub) one) :
      Stored f target value (f, [.assign target one (.step .after increment) false])
  | normal : Stored f target value (f, [.assign target value .normal false])
  | top {old new : Expr} {rest : List Expr} (h : f.stack = old :: rest) :
      Stored f target value ({ f with stack := new :: rest }, [])

theorem kind_of_isRegularOne {e : Expr} (h : e.isRegularOne = true) : e.kind = .int16 1 true := by
  unfold Expr.isRegularOne at h
  split at h
  · rename_i v regular hk
    obtain ⟨hv, hr⟩ := Bool.and_eq_true_iff.mp h
    rw [hk, hr, beq_iff_eq.mp hv]
  · cases h

/-- The statement of a store of an operation on the target. -/
theorem statement_of_update {op : BinaryOp} {left right : Expr} {top : Option Expr} {s : Stmt}
    (h : update target value op left right top = some (.statement s)) :
    s = .assign target right (.compound op) false ∨
      ∃ increment, op = (if increment then .add else .sub) ∧ right.kind = .int16 1 true ∧
        s = .assign target right (.step .after increment) false := by
  unfold update at h
  dsimp only at h
  split at h
  · cases h
  · cases h
  · split at h
    · cases h
      by_cases hone : ((op == .add || op == .sub) && right.isRegularOne) = true
      · rw [if_pos hone]
        obtain ⟨hop, hone⟩ := Bool.and_eq_true_iff.mp hone
        refine .inr ⟨op == .add, ?_, kind_of_isRegularOne hone, rfl⟩
        cases op <;> first | rfl | cases hop
      · rw [if_neg hone]
        exact .inl rfl
    · cases h

theorem statement_of_update? {top : Option Expr} {s : Stmt}
    (h : update? target value top = some (.statement s)) :
    ∃ op right, UpdateOf target value op right ∧ (s = .assign target right (.compound op) false ∨
      ∃ increment, op = (if increment then .add else .sub) ∧ right.kind = .int16 1 true ∧
        s = .assign target right (.step .after increment) false) := by
  unfold update? at h
  split at h
  · rename_i op left right hk
    split at h
    · rename_i hleft
      refine ⟨op, right, ?_, statement_of_update h⟩
      obtain ⟨v, hv, hsame⟩ := Option.any_eq_true _ _ |>.mp hleft
      refine ⟨left, v, hk, ?_, hsame⟩
      unfold Expr.var? at hv
      split at hv
      · cases hv
        assumption
      · cases hv
    · cases h
  · cases h

theorem stored_frame (f : Frame) (target : Var) (value : Expr) :
    Stored f target value (f.assign target value) := by
  unfold Frame.assign
  split
  · rename_i e he
    have htop := Step.outcome_top he
    cases hs : f.stack with
    | nil => simp [hs] at htop
    | cons old rest => exact .top hs
  · rename_i s hs
    unfold outcome at hs
    split at hs
    · cases hs
    · split at hs
      · rename_i o ho
        subst hs
        obtain ⟨op, right, hup, rfl | ⟨increment, rfl, hone, rfl⟩⟩ := statement_of_update? ho
        · exact .compound hup
        · exact .step hone hup
      · cases hs
        exact .normal

end Assign

/-- An operator reads the same before an `=` and between its operands, and is one that can stand
before an `=`. -/
theorem BinaryOp.text_compound_iff (op : BinaryOp) (boolean : Bool) :
    op.text false ∈ compoundWords ∧ op.text false = op.text boolean ↔
      op ≠ .rem ∧ (boolean = true → op ≠ .and ∧ op ≠ .or ∧ op ≠ .xor) := by
  cases op <;> cases boolean <;> decide

open Assign in
/-- A store completes an assignment with an operator, which then is an operation on the target that
the value is; a step, when the value is the target plus or minus one; an assignment of the value as
it is; or nothing, when it changes the value on top of the stack. The text of an assignment with an
operator has the word that the operation has, and one that can stand before an `=`, unless it
divides whole numbers or combines two booleans. -/
theorem stored_assign (f : Frame) (target : Var) (value : Expr) :
    Stored f target value (f.assign target value) ∧
    ∀ op right declare,
      (f.assign target value).2 = [.assign target right (.compound op) declare] →
      ∃ left word reading,
        value.kind = .binary op left right ∧ left.var?.any (fun v => v.sameAs target) = true ∧
        (∀ s depth inStatic, (Stmt.assign target right (.compound op) declare).inline s depth
          inStatic = target.source s depth ++ " " ++ word ++ "= " ++ right.source s depth) ∧
        (∀ s depth, ∃ p q, value.source s depth = parenthesized p (left.source s depth) ++ " "
          ++ reading ++ " " ++ parenthesized q (right.source s depth)) ∧
        (word ∈ compoundWords ∧ word = reading ↔
          op ≠ .rem ∧ (bothBoolean left right = true → op ≠ .and ∧ op ≠ .or ∧ op ≠ .xor)) := by
  refine ⟨stored_frame f target value, fun op right declare h => ?_⟩
  obtain ⟨left, v, hk, hl, hsame⟩ : UpdateOf target value op right := by
    generalize hr : f.assign target value = r at h
    have hst := stored_frame f target value
    rw [hr] at hst
    cases hst with
    | compound hup =>
      cases h
      exact hup
    | step | normal | top => cases h
  refine ⟨left, op.text false, op.text (bothBoolean left right), hk, ?_, fun s depth inStatic => ?_,
    fun s depth => ?_, op.text_compound_iff _⟩
  · simp [Expr.var?, hl, hsame]
  · simp [Stmt.inline, assignment]
  · obtain ⟨k, d, t⟩ := value
    obtain rfl : k = .binary op left right := hk
    exact ⟨_, _, by simp only [Expr.source, ExprKind.source]; rfl⟩

/-- A plain variable of the instance that runs the code. -/
def ownVar (name : String) : Var := .ofScope name .own

def shortInt (value : Int16) : Expr := .ofKind (.int16 value false) .int16

theorem stored_assign_addFive : ∃ left word reading,
    (Expr.ofKind (.binary .add (.ofVar (ownVar "x")) (shortInt 5)) .var).kind =
      .binary .add left (shortInt 5) ∧ word ∈ compoundWords ∧ word = reading ∧
    (Stmt.assign (ownVar "x") (shortInt 5) (.compound .add) false).inline {} 0 false =
      "x" ++ " " ++ word ++ "= " ++ "5" := by
  obtain ⟨left, word, reading, hk, -, htext, -, hsame⟩ := (stored_assign { entry := "e" }
    (ownVar "x") (.ofKind (.binary .add (.ofVar (ownVar "x")) (shortInt 5)) .var)).2
      .add (shortInt 5) false rfl
  obtain ⟨hword, heq⟩ := hsame.mpr ⟨by decide, fun _ => by decide⟩
  exact ⟨left, word, reading, hk, hword, heq, htext {} 0 false⟩

/-- `x = x div 2` is written with a word that cannot stand before an `=`, and `x = x && y` of two
booleans with one that means another operation. -/
theorem not_compoundWords_remainder :
    (({ entry := "e" } : Frame).assign (ownVar "x")
        (.ofKind (.binary .rem (.ofVar (ownVar "x")) (shortInt 2)) .var)).2 =
      [.assign (ownVar "x") (shortInt 2) (.compound .rem) false] ∧
    (Stmt.assign (ownVar "x") (shortInt 2) (.compound .rem) false).inline {} 0 false = "x div= 2" ∧
    "div" ∉ compoundWords ∧
    (({ entry := "e" } : Frame).assign (ownVar "x")
        (.ofKind (.binary .and (.ofKind (.var (ownVar "x")) .bool)
          (.ofKind (.var (ownVar "y")) .bool)) .bool)).2 =
      [.assign (ownVar "x") (.ofKind (.var (ownVar "y")) .bool) (.compound .and) false] ∧
    (Stmt.assign (ownVar "x") (.ofKind (.var (ownVar "y")) .bool) (.compound .and) false).inline
      {} 0 false = "x &= y" ∧
    (Expr.ofKind (.binary .and (.ofKind (.var (ownVar "x")) .bool)
      (.ofKind (.var (ownVar "y")) .bool)) .bool).source {} 0 = "x && y" :=
  ⟨rfl, by decide, by decide, rfl, by decide, by decide⟩

end GmlLift
