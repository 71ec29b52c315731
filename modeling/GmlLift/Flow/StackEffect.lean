import GmlLift.Instr.Basic

/-! How many values an instruction takes from the stack and how many it leaves there. -/

namespace GmlLift

structure StackEffect where
  pops : Nat
  pushes : Nat
deriving DecidableEq, Repr

/-- The change in stack height. -/
def StackEffect.net (e : StackEffect) : Int := (e.pushes : Int) - e.pops

/-- The effect by operation and operand. A bare swap moves values and counts as nothing. -/
def Instr.stackEffect (i : Instr) : StackEffect := match i.opcode with
  | .push | .pushLoc | .pushGlb | .pushBltn | .pushI => match i.operand with
    | .var v => if v.access.isArray then ⟨2, 1⟩ else if v.isStackTop then ⟨1, 1⟩ else ⟨0, 1⟩
    | _ => ⟨0, 1⟩
  | .conv | .neg | .not => ⟨1, 1⟩
  | .cmp | .mul | .div | .rem | .mod | .add | .sub | .and | .or | .xor | .shl | .shr => ⟨2, 1⟩
  | .dup => match i.operand with
    | .dup size swap => if swap = 0 then ⟨0, size.toNat + 1⟩ else ⟨0, 0⟩
    | _ => ⟨0, 0⟩
  | .popz | .ret | .bt | .bf | .pushEnv => ⟨1, 0⟩
  | .pop => match i.operand with
    | .var v => if v.access.isArray then ⟨3, 0⟩ else if v.isStackTop then ⟨2, 0⟩ else ⟨1, 0⟩
    | _ => ⟨0, 0⟩
  | .call => ⟨(i.argc?.getD 0).toNat, 1⟩
  | .callV => ⟨(i.argc?.getD 0).toNat + 2, 1⟩
  | .extended => match i.extended with
    | some .pushFinal | some .pushContainer => ⟨2, 1⟩
    | some .popFinal => ⟨3, 0⟩
    | some .setOwner => ⟨1, 0⟩
    | some .pushRef | some .hasStatic | some .isNullish => ⟨0, 1⟩
    | _ => ⟨0, 0⟩
  | .exit | .b | .popEnv => ⟨0, 0⟩

end GmlLift
