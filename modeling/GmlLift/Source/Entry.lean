import GmlLift.EnumTable
import GmlLift.Source.Basic

/-! Source text of a whole entry. -/

namespace GmlLift

namespace Source

/-- The values of an enum, one a line, with commas between them. -/
def enumLines (s : Settings) : List (Int × String) → String
  | [] => ""
  | [(value, name)] => line s 1 (name ++ " = " ++ toString value)
  | (value, name) :: rest =>
    line s 1 (name ++ " = " ++ toString value ++ ",") ++ enumLines s rest

/-- An enum declaration and the blank line after it. -/
def enumDeclaration (s : Settings) (name : String) (values : List (Int × String)) : String :=
  block s 0 ("enum " ++ name) (enumLines s values) ++ "\n"

end Source

open Source

def EnumTable.source (s : Settings) (t : EnumTable) : String :=
  String.join (t.enums.items.map fun (name, values) => enumDeclaration s name values.items)

/-- The enum declarations, where they are wanted, and the statements. -/
def entrySource (s : Settings) (enums : EnumTable) (body : List Stmt) : String :=
  (if s.declareEnums then enums.source s else "") ++ Stmt.sourceList s 0 false body

end GmlLift
