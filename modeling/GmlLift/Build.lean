import GmlLift.Flow.Blocks
import GmlLift.Frame.Execute
import GmlLift.Settings

/-! Statements from a structured graph.

A chain starts at a child slot and follows single successors until it runs out, which is where
folding cut the edges that leave the region. Each block on it is executed on the frame of the
function it belongs to; a composite builds the chains of its slots in order. -/

namespace GmlLift

namespace Build

/-- What building looks at and never changes. -/
structure Context where
  graph : Graph
  game : Game
  settings : Settings

/-- The frame of the function being built, and the warnings so far. -/
structure State where
  frame : Frame
  warnings : List Warning := []
  /-- What was executed so far, on any frame. -/
  executed : List Instr := []

abbrev Builder (α : Type) := StateT State (Except BuildError) α

/-- The call that a constructor's body starts with. -/
def copyStatic : String := "@@CopyStatic@@"

/-- Run a step on the frame. -/
def onFrame {α : Type} (step : Step α) : Builder α := fun s => match step.run s.frame with
  | .ok a frame => .ok (a, { s with frame })
  | .error e _ => .error e

/-- Execute code on the frame. -/
def execute (game : Game) (is : List Instr) : Builder (List Stmt) := do
  let out ← onFrame (Step.executeAll game is)
  modify fun s => { s with executed := s.executed ++ is }
  return out

/-- Take the top value for the node at an address. -/
def pop (address : Nat) (what : String) : Builder Expr := do
  let s ← get
  match s.frame.stack with
  | [] => throw (.underflow address what)
  | e :: rest =>
    set { s with frame := { s.frame with stack := rest } }
    return e

def push (e : Expr) : Builder Unit := onFrame (Step.push e)

def height : Builder Nat := return (← get).frame.stack.length

/-- The child in a slot. -/
def child (n : Node) (slot : Nat) : Option NodeId := (n.children[slot]?).join

/-- Where a chain goes on after a node. Of several successors, unreachable ones do not count. -/
def next (g : Graph) (n : NodeId) : Except BuildError (Option NodeId) :=
  let x := g.node n
  match x.succs with
  | [] => .ok none
  | [s] => .ok (some s)
  | ss => match ss.filter fun s => !(g.node s).unreachable with
    | [s] => .ok (some s)
    | _ => .error (.branching x.start ss.length)

/-- Whether a node marks a case, which ends the chain before it. -/
def isCase (n : Node) : Bool := match n.kind with
  | .switchCase _ => true
  | _ => false

/-- Visit the nodes of a chain in order. A chain never visits a node twice, so the number of nodes
bounds its length. -/
def chainFrom (g : Graph) (visit : NodeId → Builder (List Stmt)) :
    (fuel : Nat) → (seen : List NodeId) → Option NodeId → Builder (List Stmt)
  | 0, _, _ => return []
  | _ + 1, _, none => return []
  | fuel + 1, seen, some n =>
    if seen.contains n || isCase (g.node n) then return []
    else do
      let out ← visit n
      let following ← StateT.lift (next g n)
      return out ++ (← chainFrom g visit fuel (n :: seen) following)

/-- The statements of the chain that starts at a node. -/
def chain (g : Graph) (visit : NodeId → Builder (List Stmt)) (start : Option NodeId) :
    Builder (List Stmt) :=
  chainFrom g visit (g.nodes.size + 1) [] start

/-- Check the stack at the end of a function. -/
def finish (settings : Settings) : Builder Unit := do
  let s ← get
  let count := s.frame.stack.length
  if count = 0 then return ()
  else if settings.allowLeftover then
    set { s with warnings := s.warnings ++ [(⟨count, s.frame.entry⟩ : Warning)] }
  else throw (.leftover count s.frame.entry)

/-- Build in a new frame and come back to the old one. -/
def inFrame {α : Type} (frame : Frame) (b : Builder α) : Builder α := do
  let outer := (← get).frame
  modify fun s => { s with frame }
  let a ← b
  modify fun s => { s with frame := outer }
  return a

/-- The declaration of a function from its body. The copy of statics that opens a constructor is
not part of it. -/
def declaration (entry : String) (argumentCount : Nat) (body : List Stmt) : FunctionDecl :=
  let arguments := (List.range argumentCount).map fun n => "argument" ++ toString n
  match body with
  | .expr ⟨.call function args, d, t⟩ :: rest =>
    if function = copyStatic then ⟨entry, none, arguments, true, rest⟩
    else ⟨entry, none, arguments, false, .expr ⟨.call function args, d, t⟩ :: rest⟩
  | _ => ⟨entry, none, arguments, false, body⟩

/-- The value of each case on a stack of its own. Statements on the way are dropped. -/
def caseValues (ctx : Context) (address : Nat) : List (List Instr) → Builder (List Expr)
  | [] => return []
  | is :: rest => do
    modify fun s => { s with frame := { s.frame with stack := [] } }
    let _ ← execute ctx.game is
    let value ← pop address "case value"
    return value :: (← caseValues ctx address rest)

/-- Run with the stack set aside. -/
def withEmptyStack {α : Type} (b : Builder α) : Builder α := do
  let stack := (← get).frame.stack
  let a ← b
  modify fun s => { s with frame := { s.frame with stack } }
  return a

/-- The label expressions of a case. -/
def labels (values : List Expr) : List CaseLabel → Except BuildError (List (Option Expr))
  | [] => .ok []
  | .otherwise :: rest => do return none :: (← labels values rest)
  | .value index :: rest => match values[index]? with
    | some e => do return some e :: (← labels values rest)
    | none => .error (.malformed (.noCaseValue index))

section

/-! Building one composite, given how to build a chain. -/

variable (ctx : Context) (chain : Option NodeId → Builder (List Stmt))

def function (n : Node) (entry : String) (argumentCount : Nat) : Builder FunctionDecl :=
  inFrame { entry, argumentCount } do
    let body ← chain (child n Slot.head)
    finish ctx.settings
    return declaration entry argumentCount body

/-- A loop, after the statements of its condition. -/
def loop (n : Node) (info : LoopInfo) : Builder (List Stmt) := do
  let head := child n Slot.loopHead
  match info.kind with
  | .whileLoop =>
    if info.hasCondition then
      let before ← chain head
      let condition ← pop n.start "while condition"
      let body ← chain (child n Slot.loopBody)
      return before ++ [.whileLoop (some condition) body info.continuesToStep]
    else return [.whileLoop none (← chain head) info.continuesToStep]
  | .doUntil =>
    let body ← chain head
    return [.doUntil body (← pop n.start "until condition")]
  | .repeatLoop =>
    let count ← pop n.start "repeat count"
    return [.repeatLoop count (← chain head)]
  | .withLoop =>
    let target ← pop n.start "with target"
    return [.withLoop target (← chain head)]

/-- The operands of a short-circuit chain. Gives the statements on the way and the operands. -/
def operands (address : Nat) : List NodeId → Builder (List Stmt × List Expr)
  | [] => return ([], [])
  | c :: rest => do
    let out ← chain (some c)
    let e ← pop address "short-circuit operand"
    let (more, es) ← operands address rest
    return (out ++ more, e :: es)

/-- The cases of a switch with their bodies. -/
def cases (address : Nat) (values : List Expr) : List NodeId → Builder (List SwitchCase)
  | [] => return []
  | marker :: rest => do
    let m := ctx.graph.node marker
    match m.kind with
    | .switchCase ls =>
      let labels ← StateT.lift (labels values ls)
      let body ← chain m.succs.head?
      return ⟨labels, body⟩ :: (← cases address values rest)
    | _ => throw (.malformed (.childNotCase address))

/-- A body in a slot that may be empty. -/
def optionalBody : Option NodeId → Builder (Option (List Stmt))
  | some head => return some (← chain (some head))
  | none => return none

/-- A conditional, or a conditional expression when each branch only leaves a value. -/
def branch (n : Node) : Builder (List Stmt) := do
  let before ← chain (child n Slot.condition)
  let condition ← pop n.start "if condition"
  let depth ← height
  let thenBody ← chain (child n Slot.onTrue)
  let elseHead := child n Slot.onFalse
  if thenBody.isEmpty && (← height) == depth + 1 && elseHead.isSome then
    let onTrue ← pop n.start "ternary value"
    let elseBody ← chain elseHead
    if !elseBody.isEmpty || (← height) != depth + 1 then
      throw (.malformed (.unequalBranches n.start))
    let onFalse ← pop n.start "ternary value"
    push (.ofKind (.ternary condition onTrue onFalse) .var)
    return before
  else
    let elseBody ← optionalBody chain elseHead
    return before ++ [.cond condition thenBody (elseBody.filter fun b => !b.isEmpty)]

/-- What a node adds to its chain. -/
def visit (n : Node) : Builder (List Stmt) := do
  match n.kind with
  | .block is => execute ctx.game is
  | .fragment entry argumentCount _ =>
    let decl ← function ctx chain n entry argumentCount
    onFrame (modify fun f => { f with functions := f.functions.insert entry decl })
    return []
  | .loop info => loop chain n info
  | .branch => branch chain n
  | .shortCircuit op =>
    let (out, conditions) ← operands chain n.start (n.children.filterMap id)
    push (.ofKind (.logic op conditions) .bool)
    return out
  | .staticInit =>
    let body ← chain (child n Slot.head)
    return if body.isEmpty then [] else [.staticInit body]
  | .nullish =>
    let left ← pop n.start "nullish left operand"
    let out ← chain (child n Slot.head)
    let right ← pop n.start "nullish right operand"
    push (.ofKind (.nullish left right) .var)
    return out
  | .tryCatch name =>
    let body ← chain (child n Slot.tryBody)
    let handler ← optionalBody chain (child n Slot.catchBody)
    let cleanup ← optionalBody chain (child n Slot.finallyBody)
    return [.tryCatch body (handler.map (⟨name, ·⟩)) cleanup]
  | .switch values =>
    let value ← pop n.start "switch value"
    let values ← withEmptyStack (caseValues ctx n.start values)
    let cases ← cases ctx chain n.start values (n.children.filterMap id)
    return [.switch value cases]
  | .breakJump => return [.breakJump]
  | .continueJump => return [.continueJump]
  | .switchCase _ | .empty => return []

end

/-- Build a node. Nodes nest at most `fuel` deep. -/
def node (ctx : Context) : (fuel : Nat) → NodeId → Builder (List Stmt)
  | 0, n => throw (.malformed (.endless (ctx.graph.node n).start))
  | fuel + 1, n => visit ctx (chain ctx.graph (node ctx fuel)) (ctx.graph.node n)

/-- How deep nodes can nest before building must fail. A node inside itself can come around only as
long as the stack lasts, and each instruction pushes a bounded number of values. -/
def depthBound (g : Graph) : Nat :=
  let instrs := (g.nodes.items.toList.flatMap Node.instrs).length
  (g.nodes.size + 1) * (1024 * instrs + 1)

/-- Build the root entry. Gives its statements and the state at the end. -/
def root (graph : Graph) (game : Game) (settings : Settings) :
    Except BuildError (List Stmt × State) := do
  match graph.root? with
  | none => throw (.malformed .noRoot)
  | some root =>
    let n := graph.node root
    match n.kind with
    | .fragment entry argumentCount _ =>
      let ctx : Context := { graph, game, settings }
      let build : Builder (List Stmt) := do
        let body ← chain graph (node ctx (depthBound graph)) (child n Slot.head)
        finish settings
        return body
      build.run { frame := { entry, argumentCount } }
    | _ => throw (.malformed .rootNotFragment)

end Build

/-- The statements of the root entry, with the warnings on the way. -/
def buildStatements (graph : Graph) (game : Game) (settings : Settings) :
    Except BuildError (List Stmt × List Warning) := do
  let (body, s) ← Build.root graph game settings
  return (body, s.warnings)

end GmlLift
