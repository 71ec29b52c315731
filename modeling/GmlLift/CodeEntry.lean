import GmlLift.Instr.Basic

/-! Units of code: a script, an event, or a function embedded in one of them.

Embedded functions share the bytes of the entry that holds them. The outermost entry owns the
instructions; each inner entry records where its own code starts. -/

namespace GmlLift

structure CodeEntry where
  name : String
  /-- Bytes of code, those of embedded functions included. -/
  length : Nat := 0
  /-- Empty for an embedded entry. -/
  instrs : List Instr := []
  start : Nat := 0
  argumentCount : Nat := 0
  localCount : Nat := 0
  /-- Embedded entries in code order. -/
  children : List CodeEntry := []

namespace CodeEntry

/-- The end of the last instruction, which is where the code ends. -/
def endOf (instrs : List Instr) : Nat := (instrs.getLast?.map Instr.endAddress).getD 0

/-- An entry whose length is the end of its last instruction. -/
def ofInstrs (name : String) (instrs : List Instr) : CodeEntry :=
  { name, length := endOf instrs, instrs }

/-- Whether the entry is embedded in another one. -/
def isChild (c : CodeEntry) : Bool := c.instrs.isEmpty && c.start != 0

mutual

/-- All embedded entries at any depth, each before those inside it. -/
def descendants : CodeEntry → List CodeEntry
  | ⟨_, _, _, _, _, _, children⟩ => forest children

/-- The entries of a list with their descendants. -/
def forest : List CodeEntry → List CodeEntry
  | [] => []
  | c :: rest => c :: (descendants c ++ forest rest)

end

/-- The first embedded entry of that name, at any depth. -/
def find? (c : CodeEntry) (name : String) : Option CodeEntry :=
  c.descendants.find? fun d => d.name == name

/-- Position of the instruction at an address. -/
def indexAt? (c : CodeEntry) (address : Nat) : Option Nat :=
  c.instrs.findIdx? fun i => i.address == address

end CodeEntry

end GmlLift
