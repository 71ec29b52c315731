import GmlLift.Decimal.Binary64
import GmlLift.Instr.DataType
import GmlLift.Instr.Opcode
import GmlLift.Instr.Scope

/-! Instructions with their references resolved to names.

An instruction knows its byte address. Sizes vary between 4, 8 and 12 bytes, so addresses are
running sums of sizes. -/

namespace GmlLift

open Decimal (Binary64)

/-- The variable that a push or pop names. -/
structure VariableOperand where
  name : String
  /-- A scope number when negative, else an object. -/
  instanceId : Int16
  access : Access
deriving DecidableEq

def VariableOperand.scope? (v : VariableOperand) : Option Scope := Scope.ofCode? v.instanceId

/-- Whether the instance of the variable comes from the stack. -/
def VariableOperand.isStackTop (v : VariableOperand) : Bool :=
  v.access == .stackTop || v.scope? == some .stackTop

inductive Operand where
  | none
  | int16 (v : Int16)
  | int32 (v : Int32)
  | int64 (v : Int64)
  | double (v : Binary64)
  | bool (v : Bool)
  | string (s : String)
  | var (v : VariableOperand)
  /-- A function pushed as a value. -/
  | function (name : String)
  /-- A jump, in bytes from the instruction's own address. -/
  | branch (offset : Int)
  /-- The end of a `with` that is left early. -/
  | envExit
  | comparison (kind : Comparison)
  | call (function : String) (argc : UInt16)
  /-- A call whose function and instance come from the stack. -/
  | callVariable (argc : UInt16)
  /-- Extra items to copy, and the swap size when items change places instead. -/
  | dup (size swap : UInt8)
  /-- A pop without a destination, which rearranges the stack. -/
  | popSwap (size : UInt8)
  | reference (id : Int32) (assetKind : UInt8)
deriving DecidableEq

structure Instr where
  address : Nat
  opcode : Opcode
  /-- Set for extended operations, except for a bare `break` in a listing. -/
  extended : Option ExtOpcode
  type1 : DataType
  type2 : DataType
  operand : Operand
deriving DecidableEq

namespace Instr

def size (i : Instr) : Nat := match i.opcode with
  | .push | .pushLoc | .pushGlb | .pushBltn | .pushI => match i.type1 with
    | .double | .int64 => 12
    | .int16 => 4
    | _ => 8
  | .pop => if i.type1 = .int16 then 4 else 8
  | .call => 8
  | .extended => if i.type1 = .int32 then 8 else 4
  | _ => 4

/-- Address of what follows the instruction. -/
def endAddress (i : Instr) : Nat := i.address + i.size

def offset? (i : Instr) : Option Int := match i.operand with
  | .branch o => some o
  | _ => none

/-- Where the instruction jumps; a target before the code counts as its start. Code is taken to be so
short that no target needs more than 32 bits. -/
def target? (i : Instr) : Option Nat := i.offset?.map fun o => (i.address + o : Int).toNat

def isExtended (i : Instr) (op : ExtOpcode) : Bool :=
  i.opcode == .extended && i.extended == some op

def var? (i : Instr) : Option VariableOperand := match i.operand with
  | .var v => some v
  | _ => none

def functionName? (i : Instr) : Option String := match i.operand with
  | .call f _ | .function f => some f
  | _ => none

def argc? (i : Instr) : Option UInt16 := match i.operand with
  | .call _ n | .callVariable n => some n
  | _ => none

/-- The whole number that the instruction carries. -/
def intValue? (i : Instr) : Option Int := match i.operand with
  | .int16 v => some v.toInt
  | .int32 v => some v.toInt
  | .int64 v => some v.toInt
  | _ => none

def comparison? (i : Instr) : Option Comparison := match i.operand with
  | .comparison k => some k
  | _ => none

def isCallTo (i : Instr) (name : String) : Bool :=
  i.opcode == .call && i.functionName? == some name

end Instr

end GmlLift
