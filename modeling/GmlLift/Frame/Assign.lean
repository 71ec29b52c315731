import GmlLift.Frame.Variable

/-! Stores, in the form that source text gives them.

A store of a copied function to the name that the function's entry carries binds that name. A step
by one whose old or new value stays on the stack turns the value there into `x++` or `++x`. A store
of an operation on the target itself is a compound assignment. -/

namespace GmlLift

namespace Assign

/-- What a store does: it changes the value on top of the stack, or it is a statement. -/
inductive Outcome where
  | top (e : Expr)
  | statement (s : Stmt)

/-- The named form of the function on top of the stack, if the store binds its name. -/
def binding? (target : Var) (value : Expr) (top : Option Expr) : Option Expr :=
  match value.kind, top with
  | .function decl, some ⟨.function d, dup, t⟩ =>
    if value.duplicated && bindsFunction target.name decl.entry
    then some ⟨.function (d.withName target.name), dup, t⟩ else none
  | _, _ => none

/-- Whether the target needs no value from the stack. -/
def isSimple (target : Var) : Bool := target.indices.isEmpty && match target.holder with
  | .expr _ => false
  | _ => true

/-- A store of `left op right` to a target that is `left`. -/
def update (target : Var) (value : Expr) (op : BinaryOp) (left right : Expr) (top : Option Expr) :
    Option Outcome :=
  let increment := op == .add
  let byOne := (op == .add || op == .sub) && right.isRegularOne
  let beforeTop? := top.filter fun t => byOne && value.duplicated && t.sameAs value
  let afterTop? := top.filter fun t =>
    byOne && left.duplicated && t.var?.any fun v => v.sameAs target
  match beforeTop?, afterTop? with
  | some t, _ => some (.top ⟨.step target .before increment, false, t.stackType⟩)
  | none, some t => some (.top (t.withKind (.step target .after increment)))
  | none, none =>
    if isSimple target || left.var?.any Var.hasDuplicatedParts then
      let kind := if byOne then .step .after increment else .compound op
      some (.statement (.assign target right kind false))
    else none

/-- A store whose value is an operation on the target itself. -/
def update? (target : Var) (value : Expr) (top : Option Expr) : Option Outcome :=
  match value.kind with
  | .binary op left right =>
    if left.var?.any fun v => v.sameAs target then update target value op left right top else none
  | _ => none

def outcome (target : Var) (value : Expr) (top : Option Expr) : Outcome :=
  match binding? target value top with
  | some e => .top e
  | none => match update? target value top with
    | some o => o
    | none => .statement (.assign target value .normal false)

end Assign

open Assign in
/-- Store a value. Gives the statements that the store completes. -/
def Frame.assign (f : Frame) (target : Var) (value : Expr) : Frame × List Stmt :=
  match outcome target value f.stack.head? with
  | .top e => ({ f with stack := e :: f.stack.drop 1 }, [])
  | .statement s => (f, [s])

def Step.assign (target : Var) (value : Expr) : Step (List Stmt) := do
  let (f, out) := (← get).assign target value
  set f
  return out

end GmlLift
