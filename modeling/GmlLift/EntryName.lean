/-! Names of code entries. -/

namespace GmlLift

/-- What the compiler puts before the name of a script function. -/
def scriptMark : String := "gml_Script_"

/-- The name of a function as source text writes it. -/
def functionName (entry : String) : String :=
  if scriptMark.toList.isPrefixOf entry.toList
  then String.ofList (entry.toList.drop scriptMark.length) else entry

end GmlLift
