import GmlLift.Clean.Basic
import GmlLift.Proofs.Tree.Gather

/-! # The enum values of a tree

Where enum values stand in expressions and statements, the bodies of functions included. Naming
variables and functions, declaring locals, writing loops as `for` loops and dropping the last `exit`
leave them as they are. -/
namespace GmlLift

/-- A value of an enum as the code writes it. -/
structure EnumValue where
  enumName : String
  valueName : String
  value : Int
deriving DecidableEq

def Symbol.enumValue? : Symbol → Option EnumValue
  | .enumValue enumName valueName value => some ⟨enumName, valueName, value⟩
  | .constant _ | .asset _ => none

/-- The enum value that an expression of this kind is. -/
def ExprKind.enumValue? : ExprKind → Option EnumValue
  | .symbol s => s.enumValue?
  | _ => none

/-- The enum value that an expression is, as a list to gather. -/
def enumValueOf (k : ExprKind) : List EnumValue := k.enumValue?.toList

/-- A whole number holds no enum value. -/
theorem Expr.gather_of_intValue? {e : Expr} {n : Int} (h : e.intValue? = some n) :
    e.gather enumValueOf = [] := by
  rw [Expr.gather_eq]
  unfold Expr.intValue? at h
  split at h <;> first | (rename_i hk; rw [hk]; rfl) | cases h

/-! ## Steps that keep the enum values -/

namespace Clean

theorem gather_nameHolder (game : Game) (name : String) (h : Holder) :
    (nameHolder game name h).gather enumValueOf = h.gather enumValueOf := by
  unfold nameHolder
  split
  · split <;> rfl
  · rfl
  · rfl

/-- An argument's holder has no parts, so its name may take the holder's place. -/
theorem gather_of_argumentName? {ctx : Context} {name n : String} {h : Holder}
    (hn : argumentName? ctx name h = some n) : h.gather enumValueOf = [] := by
  cases h with
  | scope s => rfl
  | object i n => rfl
  | expr e => cases hn

@[simp] theorem gather_nameVar (ctx : Context) (v : Var) :
    (nameVar ctx v).gather enumValueOf = v.gather enumValueOf := by
  obtain ⟨name, h, indices, l⟩ := v
  unfold nameVar
  dsimp only
  split
  · rename_i n hn
    rw [Var.gather, Var.gather, gather_of_argumentName? hn, Holder.gather]
  · rw [Var.gather, Var.gather, gather_nameHolder]

@[simp] theorem gatherAll_nameKind (ctx : Context) (k : ExprKind) :
    (nameKind ctx k).gatherAll enumValueOf = k.gatherAll enumValueOf := by
  cases k with
  | var v | step v s i => exact gather_nameVar ctx v
  | asset kind id =>
    unfold nameKind nameAsset
    dsimp only
    split <;> rfl
  | _ => rfl

@[simp] theorem gather_nameTarget (game : Game) (e : Expr) :
    (nameTarget game e).gather enumValueOf = e.gather enumValueOf := by
  unfold nameTarget
  split
  · rfl
  · rename_i v hv
    have hself := Expr.gather_of_intValue? hv
    rw [hself]
    split
    · split
      · rw [Expr.gather_withKind]
        rfl
      · exact hself
    · split
      · rw [Expr.gather_withKind]
        rfl
      · exact hself

@[simp] theorem gatherIn_loopsOf (ctx : Context) (b : List Stmt) :
    Stmt.gatherIn enumValueOf (loopsOf ctx b) = Stmt.gatherIn enumValueOf b := by
  unfold loopsOf
  split
  · exact gather_toForLoops enumValueOf b
  · rfl

theorem gatherIn_dropExit (b : List Stmt) :
    Stmt.gatherIn enumValueOf (dropExit b) = Stmt.gatherIn enumValueOf b := by
  unfold dropExit
  split
  · rename_i h
    obtain ⟨rest, rfl⟩ := List.getLast?_eq_some_iff.mp h
    rw [List.dropLast_concat, Stmt.gatherIn_append]
    exact (List.append_nil _).symm
  · rfl

end Clean

end GmlLift
