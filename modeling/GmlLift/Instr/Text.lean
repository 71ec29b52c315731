import GmlLift.Decimal.Shortest
import GmlLift.Instr.Basic
import GmlLift.Text.Quoted

/-! Instructions as lines of a listing. -/

namespace GmlLift

open Text (hexInt quoted)

namespace Instr

def mnemonic (i : Instr) : String := match i.extended with
  | some e => e.mnemonic
  | none => i.opcode.mnemonic

/-- Whether a listing shows the second type field. -/
def showsType2 (op : Opcode) : Bool := op == .conv || op == .pop || op == .cmp || op.isBinary

/-- The type letters, each after a point. Jumps have none. -/
def typeText (i : Instr) : String :=
  if i.opcode.hasOffset then ""
  else String.ofList (['.', i.type1.letter]
    ++ if showsType2 i.opcode then ['.', i.type2.letter] else [])

end Instr

/-- `[array]self.name`, or the object's number where the scope has no word. -/
def VariableOperand.text (v : VariableOperand) : String :=
  let holder := match v.scope? with
    | some s => s.keyword
    | none => toString v.instanceId.toInt
  v.access.mark ++ holder ++ "." ++ v.name

/-- The operand with the blank before it; a jump is shown by its absolute target. -/
def Operand.text (address : Nat) : Operand → String
  | .none => ""
  | .int16 v => " " ++ toString v.toInt
  | .int32 v => " " ++ toString v.toInt
  | .int64 v => " " ++ toString v.toInt
  | .double v => " " ++ v.text
  | .bool v => if v then " true" else " false"
  | .string s => " " ++ quoted s
  | .var v => " " ++ v.text
  | .function name => " [function]" ++ name
  | .branch offset => " " ++ hexInt (address + offset)
  | .envExit => " <drop>"
  | .comparison k => " " ++ k.mnemonic
  | .call f argc => " " ++ f ++ " " ++ toString argc.toNat
  | .callVariable argc => " " ++ toString argc.toNat
  | .dup size swap =>
    if swap = 0 then " " ++ toString size.toNat
    else " " ++ toString size.toNat ++ " " ++ toString swap.toNat
  | .popSwap size => " " ++ toString size.toNat
  | .reference id kind => " " ++ toString id.toInt ++ " " ++ toString kind.toNat

def Instr.text (i : Instr) : String := i.mnemonic ++ i.typeText ++ i.operand.text i.address

end GmlLift
