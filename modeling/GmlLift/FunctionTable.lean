import GmlLift.Table

/-! Names of global functions and the entries that hold their code, looked up either way. -/

namespace GmlLift

structure FunctionTable where
  byName : Table String String := ∅
  byEntry : Table String String := ∅

namespace FunctionTable

/-- Bind a name to an entry, in both directions. -/
def insert (t : FunctionTable) (name entry : String) : FunctionTable :=
  ⟨t.byName.insert name entry, t.byEntry.insert entry name⟩

def entryOf? (t : FunctionTable) (name : String) : Option String := t.byName.get? name

def nameOf? (t : FunctionTable) (entry : String) : Option String := t.byEntry.get? entry

/-- How many names are bound. -/
def size (t : FunctionTable) : Nat := t.byName.size

def isEmpty (t : FunctionTable) : Bool := t.byName.isEmpty

def insertAll (t : FunctionTable) (pairs : List (String × String)) : FunctionTable :=
  pairs.foldl (fun t (name, entry) => t.insert name entry) t

end FunctionTable

end GmlLift
