import GmlLift.ByteReader
import GmlLift.CodeEntry

/-! Instructions from code bytes.

A word holds the operation in its top byte, two four-bit types below it and a 16-bit value; some
operations take one or two further words. References are resolved through `Symbols`. -/

namespace GmlLift

open ByteReader Decimal

/-- The compiled format's version. Below 15 the legacy byte numbering is used. -/
structure Version where
  number : UInt8
deriving DecidableEq

namespace Version

def hasNewFormat (v : Version) : Bool := v.number ≥ 15
def hasUnifiedCompare (v : Version) : Bool := v.number ≥ 15
def hasExtended (v : Version) : Bool := v.number ≥ 17
def text (v : Version) : String := toString v.number.toNat

end Version

/-- Names for the numeric references of an instruction, asked by its address. -/
structure Symbols where
  variableName : (address id : Nat) → Option String
  functionName : (address id : Nat) → Option String
  /-- The function that a pushed 32-bit number stands for, if it stands for one. -/
  functionReference : (address : Nat) → (value : Int32) → Option String := fun _ _ => none
  string : (index : Nat) → Option String

/-- Plain index tables, with the addresses of the pushes that name functions. -/
structure SymbolTables where
  variableNames : List String := []
  functions : List String := []
  strings : List String := []
  functionPushes : List Nat := []

def SymbolTables.symbols (t : SymbolTables) : Symbols where
  variableName _ id := t.variableNames[id]?
  functionName _ id := t.functions[id]?
  functionReference address value :=
    if t.functionPushes.contains address && 0 ≤ value then t.functions[value.toInt.toNat]?
    else none
  string index := t.strings[index]?

namespace Decode

/-- The fields of an instruction word. -/
structure Word where
  raw : UInt32

namespace Word

def opcodeByte (w : Word) : UInt8 := (w.raw >>> 24).toUInt8
def type1 (w : Word) : DataType := .ofByte ((w.raw >>> 16) &&& 0xF).toUInt8
def type2 (w : Word) : DataType := .ofByte ((w.raw >>> 20) &&& 0xF).toUInt8
def low16 (w : Word) : UInt16 := w.raw.toUInt16
def low24 (w : Word) : Nat := w.raw.toNat % 0x1000000

/-- The jump in the low 23 bits: signed, in units of four bytes. -/
def offset (w : Word) : Int := 4 * Int.bmod (w.raw.toNat % 0x800000) 0x800000

end Word

/-- A variable operand: its scope stands in the instruction word, its way of access and its number
in the next. -/
def varOperand (symbols : Symbols) (address : Nat) (w : Word) : Reading Operand := do
  let raw ← uint32
  let id := raw.toNat % 0x1000000
  let name := (symbols.variableName address id).getD ("var_" ++ toString id)
  return .var ⟨name, w.low16.toInt16, .ofByte ((raw >>> 24) &&& 0xF8).toUInt8⟩

def pushOperand (symbols : Symbols) (address : Nat) (w : Word) : Reading Operand :=
  match w.type1 with
  | .double => .double <$> double
  | .float => (fun bits => .double (Binary64.ofFloat32Bits bits)) <$> float32
  | .int32 => do
    let value ← int32
    return match symbols.functionReference address value with
      | some name => .function name
      | none => .int32 value
  | .int64 => .int64 <$> int64
  | .bool => (fun n => .bool (n != 0)) <$> uint32
  | .string => do
    let index ← uint32
    match symbols.string index.toNat with
    | some s => return .string s
    | none => throw (.stringIndex index.toNat address)
  | .var => varOperand symbols address w
  | .int16 => return .int16 w.low16.toInt16
  | .raw v => throw (.pushType v)

/-- The operand of an extended operation: a word follows when the type says so. -/
def extendedOperand (op : ExtOpcode) (w : Word) : Reading Operand :=
  if w.type1 = .int32 then do
    let value ← int32
    if op = .pushRef then
      let id := Int32.ofInt (value.toUInt32.toNat % 0x1000000)
      return .reference id (value.toUInt32 >>> 24).toUInt8
    else return .int32 value
  else return .none

/-- The operation and, where the byte itself says it, the kind of comparison. -/
def operation (version : Version) (byte : UInt8) : Option (Opcode × Option UInt8) :=
  if version.hasNewFormat then (Opcode.ofByte? byte).map fun op => (op, none)
  else Opcode.ofLegacyByte? byte

/-- The operand of an operation, with the extended operation if there is one. -/
def operand (symbols : Symbols) (address : Nat) (w : Word) (op : Opcode) (kind : Option UInt8) :
    Reading (Option ExtOpcode × Operand) :=
  match op with
  | .push | .pushLoc | .pushGlb | .pushBltn | .pushI =>
    (none, ·) <$> pushOperand symbols address w
  | .pop =>
    if w.type1 = .int16 then return (none, .popSwap w.low16.toUInt8)
    else (none, ·) <$> varOperand symbols address w
  | .b | .bt | .bf | .pushEnv | .popEnv =>
    if op = .popEnv ∧ w.low24 = 0xF00000 then return (none, .envExit)
    else return (none, .branch w.offset)
  | .cmp =>
    let byte := kind.getD (w.raw >>> 8).toUInt8
    match Comparison.ofByte? byte with
    | some k => return (none, .comparison k)
    | none => throw (.comparisonKind byte address)
  | .call => do
    let id := (← uint32).toNat % 0x1000000
    let name := (symbols.functionName address id).getD ("func_" ++ toString id)
    return (none, .call name w.low16)
  | .callV => return (none, .callVariable w.low16)
  | .dup => return (none, .dup w.low16.toUInt8 ((w.low16 >>> 8) &&& 0x7F).toUInt8)
  | .extended =>
    match ExtOpcode.ofCode? w.low16.toInt16 with
    | some e => (some e, ·) <$> extendedOperand e w
    | none => throw (.unknownExtended w.low16.toInt16 address)
  | _ => return (none, .none)

/-- The next instruction. -/
def instr (version : Version) (symbols : Symbols) : Reading Instr := do
  let address := (← get).position
  let w : Word := ⟨← uint32⟩
  match operation version w.opcodeByte with
  | none => throw (.unknownOpcode w.opcodeByte address)
  | some (op, kind) =>
    let (ext, operand) ← operand symbols address w op kind
    return ⟨address, op, ext, w.type1, w.type2, operand⟩

/-- At most `n` instructions, until the bytes end. -/
def instrs (version : Version) (symbols : Symbols) : Nat → Reading (List Instr)
  | 0 => return []
  | n + 1 => do
    if (← get).isEmpty then return []
    let i ← instr version symbols
    return i :: (← instrs version symbols n)

end Decode

/-- All instructions of a byte string. Each takes at least a byte, so the byte count bounds them. -/
def decode (version : Version) (symbols : Symbols) (bytes : List UInt8) :
    Except CodeError (List Instr) :=
  ((Decode.instrs version symbols bytes.length).run ⟨bytes, 0⟩).map Prod.fst

end GmlLift
