import GmlLift.Tree.Walk

/-! `while` loops that read as `for` loops.

The last statement of the body is the step when it changes a variable that the condition reads. A
loop whose `continue`s run the step first is always a `for` loop. Any other must have an assignment
of the variable before it and no `continue` of its own, which would skip the step. -/

namespace GmlLift

mutual

/-- Whether a `continue` of the statement belongs to the loop around it. -/
def Stmt.hasOwnContinue : Stmt → Bool
  | .continueJump => true
  | .cond _ t none => Stmt.anyOwnContinue t
  | .cond _ t (some e) => Stmt.anyOwnContinue t || Stmt.anyOwnContinue e
  | .switch _ cs => SwitchCase.anyOwnContinue cs
  | .tryCatch b h f => Stmt.anyOwnContinue b || Handler.hasOwnContinue h || Stmt.optionOwnContinue f
  | .staticInit b => Stmt.anyOwnContinue b
  | .assign .. | .expr _ | .function _ | .whileLoop .. | .forLoop .. | .doUntil .. | .repeatLoop ..
  | .withLoop .. | .breakJump | .returns _ | .exit | .throws _ => false
termination_by structural x => x

def Stmt.anyOwnContinue : List Stmt → Bool
  | [] => false
  | s :: rest => s.hasOwnContinue || Stmt.anyOwnContinue rest
termination_by structural x => x

def Stmt.optionOwnContinue : Option (List Stmt) → Bool
  | none => false
  | some b => Stmt.anyOwnContinue b
termination_by structural x => x

def Handler.hasOwnContinue : Option Handler → Bool
  | none => false
  | some ⟨_, b⟩ => Stmt.anyOwnContinue b
termination_by structural x => x

def SwitchCase.anyOwnContinue : List SwitchCase → Bool
  | [] => false
  | ⟨_, b⟩ :: rest => Stmt.anyOwnContinue b || SwitchCase.anyOwnContinue rest
termination_by structural x => x

end

/-- The variable that a step changes. -/
def Stmt.stepVar? : Stmt → Option Var
  | .assign t _ _ _ => if t.indices.isEmpty then some t else none
  | .expr ⟨.step t _ _, _, _⟩ => if t.indices.isEmpty then some t else none
  | _ => none

/-- Whether the statement is a plain assignment of the variable. -/
def Stmt.isInitOf (v : Var) : Stmt → Bool
  | .assign t _ .normal _ => t.sameAs v
  | _ => false

/-- The last statement of a body apart from the others. -/
def splitStep? (body : List Stmt) : Option (List Stmt × Stmt) :=
  body.getLast?.map fun step => (body.dropLast, step)

/-- A statement and the one before it, after a loop has become a `for` loop where it can and has
taken its first assignment in. -/
def joinLoop (before : Option Stmt) (s : Stmt) : Option Stmt × Stmt := match s with
  | .whileLoop (some condition) body continuesToStep => match splitStep? body with
    | none => (before, s)
    | some (rest, step) => match step.stepVar? with
      | none => (before, s)
      | some v =>
        let hasInit := before.any (Stmt.isInitOf v)
        if !condition.mentions v then (before, s)
        else if continuesToStep || (hasInit && !Stmt.anyOwnContinue body) then
          if hasInit then (none, .forLoop before condition step rest)
          else (before, .forLoop none condition step rest)
        else (before, s)
  | _ => (before, s)

/-- The statements of a block after a statement that the next loop may take in. -/
def forLoopsAfter : Option Stmt → List Stmt → List Stmt
  | before, [] => before.toList
  | before, s :: rest =>
    let (kept, last) := joinLoop before s
    kept.toList ++ forLoopsAfter (some last) rest

/-- Write the suitable loops of a block as `for` loops. -/
def toForLoops (body : List Stmt) : List Stmt := forLoopsAfter none body

end GmlLift
