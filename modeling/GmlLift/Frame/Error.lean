import GmlLift.Text.Hex

/-! Why statements cannot be built from recovered structure, and what is only a warning. -/

namespace GmlLift

open Text (hex)

/-- A graph that no sequence of passes leaves behind. -/
inductive GraphFault where
  | noRoot
  | rootNotFragment
  | childNotCase (switch : Nat)
  | noCaseValue (index : Nat)
  | unequalBranches (conditional : Nat)
  /-- A node that lies inside itself. -/
  | endless (node : Nat)
deriving DecidableEq

def GraphFault.message : GraphFault → String
  | noRoot => "control-flow graph has no root fragment"
  | rootNotFragment => "root node is not a fragment"
  | childNotCase start => "switch at " ++ hex start ++ " has a child that is not a case"
  | noCaseValue index => "case value " ++ toString index ++ " out of range"
  | unequalBranches start =>
    "conditional at " ++ hex start ++ ": branches leave different values"
  | endless start => "node at " ++ hex start ++ " lies inside itself"

inductive BuildError where
  /-- A value was needed and the stack was empty. -/
  | underflow (address : Nat) (what : String)
  | unexpected (address : Nat) (instr : String)
  | leftover (count : Nat) (entry : String)
  /-- A chain goes on in more than one way. -/
  | branching (address count : Nat)
  | malformed (fault : GraphFault)
deriving DecidableEq

def BuildError.message : BuildError → String
  | underflow address what => hex address ++ ": stack underflow on " ++ what
  | unexpected address instr => hex address ++ ": unexpected " ++ instr
  | leftover count entry =>
    toString count ++ " item(s) left over on the stack at the end of " ++ entry
  | branching address count =>
    "node at " ++ hex address ++ " continues to " ++ toString count ++ " successors"
  | malformed fault => fault.message

/-- Values left on the stack at the end of an entry. -/
structure Warning where
  count : Nat
  entry : String
deriving DecidableEq

def Warning.message (w : Warning) : String :=
  "data left over on the stack: " ++ toString w.count ++ " item(s) at the end of " ++ w.entry

end GmlLift
