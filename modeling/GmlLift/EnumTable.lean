import GmlLift.Table

/-! The enum values that cleaned code uses, by enum. -/

namespace GmlLift

structure EnumTable where
  enums : Table String (Table Int String) := ∅

namespace EnumTable

def isEmpty (t : EnumTable) : Bool := t.enums.isEmpty

/-- The values of an enum, none if it is not in the table. -/
def valuesOf (t : EnumTable) (enumName : String) : Table Int String :=
  (t.enums.get? enumName).getD ∅

/-- Name a value of an enum; a later name replaces an earlier one. -/
def record (t : EnumTable) (enumName valueName : String) (value : Int) : EnumTable :=
  ⟨t.enums.insert enumName ((t.valuesOf enumName).insert value valueName)⟩

/-- Add the values of a list that have no name yet. -/
def addMissing (values : Table Int String) (more : List (Int × String)) : Table Int String :=
  more.foldl (fun t (value, name) => t.insertNew value name) values

/-- Combine two tables; where both name a value the first one's name stays. -/
def merge (t other : EnumTable) : EnumTable :=
  ⟨other.enums.items.foldl
    (fun enums (name, values) =>
      enums.insert name (addMissing ((enums.get? name).getD ∅) values.items))
    t.enums⟩

end EnumTable

end GmlLift
