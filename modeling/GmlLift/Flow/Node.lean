import GmlLift.Instr.Basic

/-! Nodes of the flow graph: basic blocks and the composites that passes fold them into. -/

namespace GmlLift

/-- Nodes are known by their slot in the graph, in order of creation. -/
abbrev NodeId := Nat

inductive LoopKind where
  /-- Closed by an unconditional jump. -/
  | whileLoop
  /-- Closed by a jump on false. -/
  | doUntil
  /-- Closed by a jump on true after a counter step. -/
  | repeatLoop
  /-- A body run for each instance of a target. -/
  | withLoop
deriving DecidableEq, Repr

structure LoopInfo where
  kind : LoopKind
  /-- A `while` may lack a condition. -/
  hasCondition : Bool := false
  /-- Where `continue` jumps. -/
  continueAddress : Nat
  /-- Start of the last block of a `while`, a second target of `continue`. -/
  stepAddress : Option Nat := none
  /-- Some `continue` jumps to the step: the loop is a `for` whose step ends the body. -/
  continuesToStep : Bool := false
  /-- Where `break` jumps. -/
  breakAddress : Option Nat
deriving DecidableEq

inductive Logic where
  | and | or
deriving DecidableEq, Repr

inductive CaseLabel where
  /-- Position in the list of case values. -/
  | value (index : Nat)
  | otherwise
deriving DecidableEq

inductive NodeKind where
  /-- Straight-line code, less the jumps that composites account for. -/
  | block (instrs : List Instr)
  /-- The root entry or a function embedded in it, with its blocks in address order. -/
  | fragment (entry : String) (argumentCount : Nat) (blocks : List NodeId)
  | loop (info : LoopInfo)
  | branch
  | shortCircuit (op : Logic)
  | staticInit
  | nullish
  | tryCatch (catchVariable : Option String)
  | switch (caseValues : List (List Instr))
  | switchCase (labels : List CaseLabel)
  | breakJump
  | continueJump
  | empty

/-- A node covers the addresses from `start` up to `stop`. -/
structure Node where
  start : Nat := 0
  stop : Nat := 0
  preds : List NodeId := []
  succs : List NodeId := []
  parent : Option NodeId := none
  children : List (Option NodeId) := []
  unreachable : Bool := false
  kind : NodeKind := .empty

instance : Inhabited Node := ⟨{}⟩

namespace Node

/-- A node without edges and with a number of empty child slots. -/
def ofKind (kind : NodeKind) (start stop slots : Nat) : Node :=
  { start, stop, kind, children := List.replicate slots none }

/-- The code of a block; other nodes have none. -/
def instrs (n : Node) : List Instr := match n.kind with
  | .block is => is
  | _ => []

def isBlock (n : Node) : Bool := match n.kind with
  | .block _ => true
  | _ => false

def isFragment (n : Node) : Bool := match n.kind with
  | .fragment .. => true
  | _ => false

/-- A `break` or `continue`. -/
def isJump (n : Node) : Bool := match n.kind with
  | .breakJump | .continueJump => true
  | _ => false

def covers (n : Node) (address : Nat) : Bool := n.start ≤ address && address < n.stop

/-- Change the code of a block; other nodes stay as they are. -/
def mapInstrs (f : List Instr → List Instr) (n : Node) : Node := match n.kind with
  | .block is => { n with kind := .block (f is) }
  | _ => n

end Node

/-! Child slots of the composites. -/

namespace Slot

/-- First node of a fragment, of a static initializer or of a nullish right-hand side. -/
def head : Nat := 0

def loopHead : Nat := 0
def loopTail : Nat := 1
/-- The synthetic exit of a loop. -/
def loopExit : Nat := 2
/-- First node of the body; differs from the head in a `while` with a condition. -/
def loopBody : Nat := 3

def condition : Nat := 0
def onTrue : Nat := 1
def onFalse : Nat := 2

def tryBody : Nat := 0
def catchBody : Nat := 1
def finallyBody : Nat := 2

end Slot

end GmlLift
