import GmlLift.EntryName
import GmlLift.Flow.Switch
import GmlLift.Frame.Basic
import GmlLift.Game
import GmlLift.Text.Blank
import GmlLift.Text.Numeral
import GmlLift.Tree.Walk

/-! Variables as instructions reach them. -/

namespace GmlLift

/-- The factor by which `a[i, j]` is flattened into one index. -/
def legacyStride : Int := 32000

/-- The two indices of a flattened index. -/
def splitLegacyIndex? (index : Expr) : Option (Expr × Expr) := match index.kind with
  | .binary .add left second => match left.kind with
    | .binary .mul first stride =>
      if stride.intValue? = some legacyStride then some (first, second) else none
    | _ => none
  | _ => none

/-- Where a variable lives when its instance comes from the stack. -/
def Holder.ofExpr (e : Expr) : Holder := match e.kind with
  | .scope s => .scope s
  | _ => match e.intValue? with
    | some v =>
      if 0 ≤ v ∧ v < 0x8000 then .object (Int16.ofInt v) none
      else if -0x8000 ≤ v ∧ v < 0 then
        match Scope.ofCode? (Int16.ofInt v) with
        | some s => .scope s
        | none => .expr e
      else .expr e
    | none => .expr e

/-- Where a variable lives when the operand says it. -/
def Holder.ofCode (id : Int16) : Holder :=
  if 0 ≤ id then .object id none else .scope ((Scope.ofCode? id).getD .own)

/-- The position that an argument's standard name gives: `argument2` is at position 2. -/
def argumentIndex? (name : String) : Option Nat :=
  (Text.after? "argument".toList name.toList).bind (Text.readNat 64)

/-- Whether an assignment to the variable binds the function of an entry: the names agree, or the
entry's name goes on with a compiler mark. -/
def bindsFunction (name entry : String) : Bool :=
  let function := functionName entry
  function == name ||
    (Text.after? name.toList function.toList).any fun rest => "_gml_".toList.isPrefixOf rest

namespace Step

/-- Take what a variable access needs from the stack and build the variable. -/
def access (game : Game) (i : Instr) (v : VariableOperand) : Step Var := do
  if v.access.isArray then
    let index ← pop i
    let holder ← pop i
    match if game.usesGmlv2 then none else splitLegacyIndex? index with
    | some (first, second) => return ⟨v.name, .ofExpr holder, [first, second], true⟩
    | none => return ⟨v.name, .ofExpr holder, [index], false⟩
  else if v.isStackTop then
    return ⟨v.name, .ofExpr (← pop i), [], false⟩
  else return ⟨v.name, .ofCode v.instanceId, [], false⟩

end Step

end GmlLift
