import GmlLift.Frame.Assign
import GmlLift.Frame.Call

/-! One instruction on the symbolic stack.

Straight-line instructions push and pop expressions. Stores, dropped values, returns and exits
complete statements. Jumps belong to the structure around the code and never get here. -/

namespace GmlLift

/-- Which of two types the result of an operation takes. -/
def DataType.rank : DataType → Nat
  | .var => 4
  | .double => 3
  | .int64 => 2
  | .bool => 0
  | _ => 1

/-- The type of an operation's result: the wider of the two, small numbers counting as `int32`. -/
def DataType.join (a b : DataType) : DataType :=
  let wider := if b.rank ≤ a.rank then a else b
  if wider.rank = 1 then .int32 else wider

namespace Step

/-- The value that a push puts on the stack. -/
def pushed (game : Game) (i : Instr) : Step Expr := do
  match i.operand with
  | .int16 v => return .ofKind (.int16 v (i.opcode == .push)) .int16
  | .int32 v => return .ofKind (.int32 v) .int32
  | .int64 v => return .ofKind (.int64 v) .int64
  | .double v => return .ofKind (.double v) .double
  | .bool b => return .ofKind (.bool b) .bool
  | .string s => return .ofKind (.string s) .string
  | .function name =>
    let f ← get
    match f.functions.get? name with
    | some decl =>
      set { f with functions := f.functions.erase name }
      return .ofKind (.function decl) .int32
    | none => return .ofKind (.functionRef name) .int32
  | .var v =>
    let f ← get
    match if v.name = returnTemp then f.returnValue else none with
    | some value =>
      set { f with returnValue := none }
      return value
    | none => return .ofVar (← access game i v)
  | _ => unexpected i

/-- Copy the top values. A size of zero copies one value whatever its type. -/
def duplicate (i : Instr) (size unit : Nat) : Step Unit := do
  let f ← get
  let count := if size = 0 then some 1 else Frame.spanning ((size + 1) * unit) f.stack
  match count.filter (· ≤ f.stack.length) with
  | none => underflow i
  | some n => set { f with stack := (f.stack.take n).map (Expr.withDuplicated · true) ++ f.stack }

/-- Swap the top bytes of the stack with the bytes below them. -/
def swap (i : Instr) (topBytes belowBytes : Nat) : Step Unit := do
  let f ← get
  match Frame.spanning topBytes f.stack with
  | none => underflow i
  | some top =>
    let rest := f.stack.drop top
    match Frame.spanning belowBytes rest with
    | none => underflow i
    | some below =>
      set { f with stack := rest.take below ++ f.stack.take top ++ rest.drop below }

/-- Move the top value below the next ones: one for size 5, two for size 6. -/
def sink (i : Instr) (size : Nat) : Step Unit := do
  let top ← pop i
  let f ← get
  let depth := size - 4
  if depth ≤ f.stack.length then
    set { f with stack := f.stack.take depth ++ top :: f.stack.drop depth }
  else underflow i

/-- Store into a variable. With an `int32` first type the value was pushed after the index and the
instance. The return temporary keeps its value for the push that follows. -/
def store (game : Game) (i : Instr) (v : VariableOperand) : Step (List Stmt) := do
  let first ← if i.type1 = .int32 then some <$> pop i else pure none
  let target ← access game i v
  let value ← match first with
    | some e => pure e
    | none => pop i
  if v.name = returnTemp then
    modify fun f => { f with returnValue := some value }
    return []
  else assign target value

/-- The statement of a value that is dropped. -/
def dropped (e : Expr) : Stmt := match e.kind with
  | .function decl => if decl.name.isSome then .function decl else .expr e
  | .throw value => .throws value
  | _ => .expr e

/-- A conversion changes the type on the stack; without a boolean type, zero and one converted to
it are `false` and `true`. -/
def converted (game : Game) (type : DataType) (e : Expr) : Expr :=
  let e := match e.kind with
    | .int16 v _ =>
      if type == DataType.bool && !game.usesTypedBooleans && (v == 0 || v == 1) then
        e.withKind (.bool (v == 1))
      else e
    | _ => e
  e.withStackType type

/-- One of the extended operations. -/
def extended (game : Game) (i : Instr) : Step (List Stmt) := do
  match i.extended with
  | some .checkIndex | some .saveRef | some .restoreRef | some .setStatic => return []
  | some .setOwner =>
    let _ ← pop i
    return []
  | some .pushFinal | some .pushContainer =>
    let index ← pop i
    match ← pop i with
    | ⟨.var v, d, t⟩ =>
      push ⟨.var (v.pushIndex index), d, t⟩
      return []
    | _ => unexpected i
  | some .popFinal =>
    let index ← pop i
    let container ← pop i
    let value ← pop i
    match container.kind with
    | .var v => assign (v.pushIndex index) value
    | _ => unexpected i
  | some .pushRef =>
    match i.operand with
    | .reference id code =>
      let kind := match AssetKind.ofCode? code with
        | some .roomInstance =>
          if game.roomInstanceReferences then .asset .roomInstance id else .int32 id
        | some k => .asset k id
        | none => .int32 id
      push (.ofKind kind .int32)
      return []
    | _ => unexpected i
  | some .hasStatic | some .isNullish | none => unexpected i

/-- Execute one instruction. Gives the statements that it completes. -/
def execute (game : Game) (i : Instr) : Step (List Stmt) := do
  match i.opcode with
  | .push | .pushLoc | .pushGlb | .pushBltn | .pushI =>
    push (← pushed game i)
    return []
  | .mul | .div | .rem | .mod | .add | .sub | .and | .or | .xor | .shl | .shr =>
    let right ← pop i
    let left ← pop i
    match BinaryOp.ofOpcode? i.opcode with
    | some op =>
      push (.ofKind (.binary op left right) (i.type1.join i.type2))
      return []
    | none => unexpected i
  | .cmp =>
    let right ← pop i
    let left ← pop i
    match i.comparison? with
    | some kind =>
      push (.ofKind (.compare kind left right) .bool)
      return []
    | none => unexpected i
  | .neg =>
    push (.ofKind (.unary .negate (← pop i)) i.type1)
    return []
  | .not =>
    let op := if i.type1 = .bool then .not else .complement
    push (.ofKind (.unary op (← pop i)) i.type1)
    return []
  | .conv =>
    push (converted game i.type2 (← pop i))
    return []
  | .dup => match i.operand with
    | .dup size swapped =>
      let unit := i.type1.stackSize
      if swapped = 0 then duplicate i size.toNat unit
      else swap i (size.toNat * unit) (swapped.toNat * unit)
      return []
    | _ => unexpected i
  | .popz => return [dropped (← pop i)]
  | .pop => match i.operand with
    | .popSwap size =>
      sink i size.toNat
      return []
    | .var v => store game i v
    | _ => unexpected i
  | .call => match i.operand with
    | .call function argc =>
      let args ← popMany i argc.toNat
      push (Call.expr function args)
      return []
    | _ => unexpected i
  | .callV => match i.argc? with
    | some argc =>
      let function ← pop i
      let holder ← pop i
      let args ← popMany i argc.toNat
      push (.ofKind (.callValue function holder args) .var)
      return []
    | none => unexpected i
  | .ret => return [.returns (← pop i)]
  | .exit => return [.exit]
  | .popEnv => if i.operand = .envExit then return [] else unexpected i
  | .extended => extended game i
  | .b | .bt | .bf | .pushEnv => unexpected i

/-- Execute instructions in order. -/
def executeAll (game : Game) : List Instr → Step (List Stmt)
  | [] => return []
  | i :: rest => do
    let out ← execute game i
    return out ++ (← executeAll game rest)

end Step

end GmlLift
