import GmlLift.Flow.Blocks
import GmlLift.Flow.Fragments
import GmlLift.FunctionTable
import GmlLift.Lift.Error

/-! The functions that global scripts declare.

A script binds each function to a variable right after the function's body: the function is pushed,
made a method, and stored. -/

namespace GmlLift

namespace GlobalScript

/-- How many instructions after a body may belong to the binding. -/
def bindingWindow : Nat := 10

/-- The name that the instructions after a body bind its entry to. -/
def boundName? (entry : String) (window : List Instr) : Option String := match window with
  | [] => none
  | first :: _ =>
    if first.opcode == .push && first.operand == .function entry then
      window.findSome? fun i => if i.opcode == .pop then i.var?.map (·.name) else none
    else none

/-- The name and entry that a fragment's binding gives. -/
def binding? (code : CodeEntry) (fragment : Node) : Option (String × String) :=
  match fragment.kind with
  | .fragment entry _ _ => do
    let start ← code.indexAt? fragment.stop
    let name ← boundName? entry ((code.instrs.drop start).take bindingWindow)
    return (name, entry)
  | _ => none

/-- The functions of a script with their names, in code order. -/
def functions (code : CodeEntry) : Except FlowError (List (String × String)) := do
  let g ← findBlocks code
  match (findFragments code).run g with
  | .error e _ => .error e
  | .ok _ g => return (g.fragments.drop 1).filterMap fun f => binding? code (g.node f)

end GlobalScript

/-- The functions of all scripts, or the first failure. -/
def FunctionTable.ofScripts (scripts : List CodeEntry) : Except LiftError FunctionTable := do
  let found ← scripts.mapM fun code =>
    (GlobalScript.functions code).mapError fun e => (⟨code.name, .flow e⟩ : LiftError)
  return FunctionTable.insertAll {} found.flatten

end GmlLift
