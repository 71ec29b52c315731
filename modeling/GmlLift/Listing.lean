import GmlLift.CodeEntry
import GmlLift.CodeError
import GmlLift.Decimal.Reading
import GmlLift.Text.Blank
import GmlLift.Text.Numeral

/-! Code from a textual listing.

One instruction a line, in the form that `Instr.text` writes. `:[name]` defines a label at the
current address and `[end]` is the end of the code unless it is defined; `> name` opens an embedded
entry; `#` starts a comment line. Addresses are running sums of instruction sizes. -/

namespace GmlLift

open Text Decimal

namespace Listing

/-- Reading part of a line either gives a value or says what is wrong with it. -/
abbrev Parsed := Except ListingFault

/-- A fault that shows the text it was found in. -/
def orFault {α : Type} (fault : String → ListingFault) (shown : List Char) : Option α → Parsed α
  | some a => .ok a
  | none => .error (fault (String.ofList shown))

def dataType (s : List Char) : Parsed DataType :=
  orFault .unknownType s <| match s with
    | [c] => DataType.ofLetter? c
    | _ => none

def signed (bits : Nat) (s : List Char) : Parsed Int :=
  orFault .invalidInteger (trim s) (readInt bits (trim s))

def unsigned (bits : Nat) (s : List Char) : Parsed Nat :=
  orFault .invalidInteger (trim s) (readNat bits (trim s))

/-- The characters of a literal: a backslash gives `n`, `t` and `r` their control characters and
any other character itself. -/
def unescape : List Char → Option (List Char)
  | [] => some []
  | '\\' :: rest => match rest with
    | [] => none
    | c :: rest =>
      let d := if c = 'n' then '\n' else if c = 't' then '\t' else if c = 'r' then '\r' else c
      (unescape rest).map (d :: ·)
  | c :: rest => (unescape rest).map (c :: ·)

/-- A string literal between double quotes. -/
def stringLiteral (s : List Char) : Option (List Char) :=
  (after? ['"'] s).bind (before? '"') |>.bind unescape

/-- `[array]self.name`, `local.x`, `3.name` for an object. -/
def varOperand (text : List Char) : Parsed VariableOperand := do
  let (access, rest) ← match trim text with
    | '[' :: inner => do
      let (word, tail) ← orFault .malformedVariable text (cutAt (· == ']') inner)
      let access ← orFault .unknownAccess word (Access.ofWord? (String.ofList word))
      pure (access, tail)
    | rest => pure (Access.normal, rest)
  let (holder, name) ← orFault .missingScope text (cutAt (· == '.') rest)
  let id ← match Scope.ofKeyword? (String.ofList holder) with
    | some s => pure s.code
    | none => Int16.ofInt <$> orFault .unknownScope holder (readInt 16 holder)
  if name.isEmpty then throw (.unnamedVariable (String.ofList text))
  return ⟨String.ofList name, id, access⟩

/-- `name argc` or `name(argc=N)`. -/
def call (text : List Char) : Parsed Operand :=
  match cutAt (· == '(') text with
  | some (name, rest) => do
    let inner := trim (dropEndWhile (· == ')') rest)
    let count := dropOpenings "argc=".toList inner.length inner
    return .call (String.ofList (trim name)) (UInt16.ofNat (← unsigned 16 count))
  | none => match words text with
    | [] => throw .unnamedCall
    | name :: rest =>
      return .call (String.ofList name) (UInt16.ofNat (← unsigned 16 (rest.headD [])))

def pushOperand (type : DataType) (text : List Char) : Parsed Operand :=
  let literal (what : String) : String → ListingFault := .invalidLiteral what
  match type with
  | .int16 => (fun n => .int16 (.ofInt n)) <$> signed 16 text
  | .int32 => match after? "[function]".toList text with
    | some name => return .function (String.ofList (trim name))
    | none => (fun n => .int32 (.ofInt n)) <$> signed 32 text
  | .int64 => (fun n => .int64 (.ofInt n)) <$> signed 64 text
  | .double | .float => .double <$> orFault (literal "double") text (readBinary64 text)
  | .bool =>
    if text = "true".toList || text = "1".toList then return .bool true
    else if text = "false".toList || text = "0".toList then return .bool false
    else throw (literal "boolean" (String.ofList text))
  | .string =>
    (fun s => .string (String.ofList s)) <$> orFault (literal "string") text (stringLiteral text)
  | .var => .var <$> varOperand text
  | .raw _ => throw (literal "push" (String.ofList text))

/-- An extended operation. Only `pushref` and the 32-bit forms read their operand. -/
def extendedOperand (op : ExtOpcode) (type : DataType) (text : List Char) : Parsed Operand :=
  if op = .pushRef then do
    let fields := words text
    let id ← signed 32 (fields.headD [])
    let kind ← unsigned 8 (fields.getD 1 [])
    return .reference (.ofInt id) (.ofNat kind)
  else if type = .int32 then (fun n => .int32 (.ofInt n)) <$> signed 32 text
  else return .none

/-- The label of a jump. -/
def jumpLabel (text : List Char) : Parsed (List Char) :=
  orFault .expectedLabel text ((after? ['['] text).bind (before? ']'))

/-- The operand of a plain operation, with the label that a jump names. -/
def operand (op : Opcode) (type : DataType) (text : List Char) :
    Parsed (Operand × Option String) :=
  let plain : Parsed Operand → Parsed (Operand × Option String) := fun p => (·, none) <$> p
  match op with
  | .push | .pushLoc | .pushGlb | .pushBltn | .pushI => plain (pushOperand type text)
  | .pop =>
    if type = .int16 then plain ((fun n => .popSwap (.ofNat n)) <$> unsigned 8 text)
    else plain (.var <$> varOperand text)
  | .b | .bt | .bf | .pushEnv | .popEnv =>
    if op = .popEnv ∧ text = "<drop>".toList then plain (pure .envExit)
    else do return (.branch 0, some (String.ofList (← jumpLabel text)))
  | .cmp => plain <| .comparison <$>
      orFault .unknownComparison text (Comparison.ofMnemonic? (String.ofList text))
  | .call => plain (call text)
  | .callV => plain ((fun n => .callVariable (.ofNat n)) <$> unsigned 16 text)
  | .dup => plain do
    let fields := words text
    let size ← unsigned 8 (fields.headD [])
    let swap ← match fields[1]? with
      | some s => unsigned 8 s
      | none => pure 0
    return .dup (.ofNat size) (.ofNat swap)
  | _ =>
    if text.isEmpty then plain (pure .none) else throw (.strayOperand op.mnemonic)

/-- One instruction line, with the label that a jump names. -/
def instr (line : List Char) (address : Nat) : Parsed (Instr × Option String) := do
  let (head, rest) := (cutAt isBlank line).getD (line, [])
  let text := trim rest
  let parts := head.splitOn '.'
  let mnemonic := String.ofList (parts.headD [])
  let type1 ← parts[1]?.mapM dataType
  let type2 ← parts[2]?.mapM dataType
  match ExtOpcode.ofMnemonic? mnemonic with
  | some ext =>
    let t1 := type1.getD .int16
    let operand ← extendedOperand ext t1 text
    return (⟨address, .extended, some ext, t1, type2.getD .int16, operand⟩, none)
  | none => match Opcode.ofMnemonic? mnemonic with
    | none => throw (.unknownMnemonic mnemonic)
    | some op =>
      let t1 := type1.getD .int32
      let (operand, label) ← operand op t1 text
      return (⟨address, op, none, t1, type2.getD t1, operand⟩, label)

/-- One attribute of an embedded entry: `locals=N` or `args=N`. -/
def childAttribute (entry : CodeEntry) (attr : List Char) : Parsed CodeEntry := do
  let (key, value) ← orFault .malformedAttribute attr (cutAt (· == '=') attr)
  let n ← orFault .attributeNumber attr (readNat 16 (trim value))
  let key := String.ofList (trim key)
  if key = "locals" then return { entry with localCount := n }
  else if key = "args" then return { entry with argumentCount := n }
  else throw (.unknownAttribute key)

/-- `name (locals=N, args=M)`, the part in parentheses optional. -/
def child (text : List Char) (address : Nat) : Parsed CodeEntry := do
  let (name, attrs) := match cutAt (· == '(') text with
    | some (name, rest) => (trim name, dropEndWhile (· == ')') rest)
    | none => (text, [])
  if name.isEmpty then throw .unnamedChild
  let fields := ((attrs.splitOn ',').map trim).filter fun a => !a.isEmpty
  fields.foldlM childAttribute { name := String.ofList name, start := address }

/-- What the lines so far have laid out. A jump waits for its label with the number of its line. -/
structure Draft where
  instrs : Array (Instr × Option (String × Nat)) := #[]
  labels : List (String × Nat) := []
  children : Array CodeEntry := #[]
  address : Nat := 0

/-- Lay out one trimmed line. -/
def Draft.line (d : Draft) (number : Nat) (line : List Char) : Parsed Draft :=
  match line with
  | [] => return d
  | '#' :: _ => return d
  | ':' :: '[' :: rest => do
    let label := String.ofList (← orFault .malformedLabel line (before? ']' rest))
    if (d.labels.lookup label).isSome then throw (.duplicateLabel label)
    return { d with labels := (label, d.address) :: d.labels }
  | '>' :: rest => do
    let entry ← child (trim rest) d.address
    return { d with children := d.children.push entry }
  | _ => do
    let (i, label) ← instr line d.address
    return { d with
      instrs := d.instrs.push (i, label.map (·, number))
      address := d.address + i.size }

/-- The address of a label; `end` is the end of the code unless a line defines it. -/
def Draft.labelAddress? (d : Draft) (label : String) : Option Nat :=
  match d.labels.lookup label with
  | some a => some a
  | none => if label = "end" then some d.address else none

/-- Turn a waiting jump into an offset to its label. -/
def Draft.resolve (d : Draft) : Instr × Option (String × Nat) → Except CodeError Instr
  | (i, none) => .ok i
  | (i, some (label, line)) => match d.labelAddress? label with
    | some target => .ok { i with operand := .branch ((target : Int) - i.address) }
    | none => .error (.listing line (.undefinedLabel label))

end Listing

open Listing in
/-- Lay out a listing as an entry of the given name. The first faulty line is reported. -/
def assemble (name : String) (source : String) : Except CodeError CodeEntry := do
  let numbered := (lines source.toList).zipIdx 1
  let draft ← numbered.foldlM (fun d (line, number) =>
    (d.line number (trim line)).mapError (CodeError.listing number)) ({} : Draft)
  let instrs ← draft.instrs.toList.mapM draft.resolve
  return {
    name
    length := draft.address
    instrs
    children := draft.children.toList.map fun c => { c with length := draft.address } }

end GmlLift
