import GmlLift.Flow.Switch
import GmlLift.Tree.Basic

/-! Declaring locals.

The first plain assignment of each local declares it. The bodies of functions have locals of their
own and are left alone. -/

namespace GmlLift

/-- Whether an assignment may declare its target. -/
def Var.isDeclarable (v : Var) (kind : AssignKind) : Bool :=
  kind == .normal && v.isLocal && v.name != returnTemp

mutual

/-- Declare the locals of a statement, given those already declared. -/
def Stmt.declare : Stmt → StateM (List String) Stmt
  | .assign t v k d => fun declared =>
    if t.isDeclarable k && !declared.contains t.name then
      (.assign t v k true, t.name :: declared)
    else (.assign t v k d, declared)
  | .cond c t none => return .cond c (← Stmt.declareList t) none
  | .cond c t (some e) => return .cond c (← Stmt.declareList t) (some (← Stmt.declareList e))
  | .whileLoop c b s => return .whileLoop c (← Stmt.declareList b) s
  | .forLoop none c s b => return .forLoop none c s (← Stmt.declareList b)
  | .forLoop (some i) c s b =>
    return .forLoop (some (← i.declare)) c s (← Stmt.declareList b)
  | .doUntil b c => return .doUntil (← Stmt.declareList b) c
  | .repeatLoop c b => return .repeatLoop c (← Stmt.declareList b)
  | .withLoop t b => return .withLoop t (← Stmt.declareList b)
  | .switch v cs => return .switch v (← SwitchCase.declareList cs)
  | .tryCatch b h f =>
    return .tryCatch (← Stmt.declareList b) (← Handler.declare h) (← Stmt.declareOption f)
  | .staticInit b => return .staticInit (← Stmt.declareList b)
  | .expr e => return .expr e
  | .function d => return .function d
  | .breakJump => return .breakJump
  | .continueJump => return .continueJump
  | .returns e => return .returns e
  | .exit => return .exit
  | .throws e => return .throws e
termination_by structural x => x

def Stmt.declareList : List Stmt → StateM (List String) (List Stmt)
  | [] => return []
  | s :: rest => return (← s.declare) :: (← Stmt.declareList rest)
termination_by structural x => x

def Stmt.declareOption : Option (List Stmt) → StateM (List String) (Option (List Stmt))
  | none => return none
  | some b => return some (← Stmt.declareList b)
termination_by structural x => x

def Handler.declare : Option Handler → StateM (List String) (Option Handler)
  | none => return none
  | some ⟨n, b⟩ => return some ⟨n, ← Stmt.declareList b⟩
termination_by structural x => x

def SwitchCase.declareList : List SwitchCase → StateM (List String) (List SwitchCase)
  | [] => return []
  | ⟨l, b⟩ :: rest => return ⟨l, ← Stmt.declareList b⟩ :: (← SwitchCase.declareList rest)
termination_by structural x => x

end

/-- Declare the locals of a function's body. -/
def declareLocals (body : List Stmt) : List Stmt := ((Stmt.declareList body).run []).1

end GmlLift
