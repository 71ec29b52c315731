/-! What to do with recovered code and how to write it. -/

namespace GmlLift

structure Settings where
  /-- Written once for each level of nesting. -/
  indent : String := "    "
  semicolons : Bool := true
  /-- Braces open at the end of a line, not on a line of their own. -/
  braceOnSameLine : Bool := false
  /-- Values left on the stack at the end of a function are a warning, not an error. -/
  allowLeftover : Bool := false
  /-- Tidy the tree at all. -/
  clean : Bool := true
  /-- Apply naming rules. -/
  resolveNames : Bool := true
  /-- Write suitable `while` loops as `for` loops. -/
  forLoops : Bool := true
  /-- Drop the `exit` at the end of a root entry. -/
  dropTrailingExit : Bool := true
  /-- Declare the enums whose values occur. -/
  declareEnums : Bool := true
deriving DecidableEq, Repr

namespace Settings

/-- Leave one feature out, by its name. A name that is not known changes nothing. -/
def skip (s : Settings) (feature : String) : Settings :=
  if feature = "clean-ast" then { s with clean := false }
  else if feature = "macro-resolution" then { s with resolveNames := false }
  else if feature = "for-loops" then { s with forLoops := false }
  else if feature = "trailing-exit" then { s with dropTrailingExit := false }
  else if feature = "enum-declarations" then { s with declareEnums := false }
  else if feature = "strict-stack" then { s with allowLeftover := true }
  else s

def skipAll (s : Settings) (features : List String) : Settings := features.foldl skip s

end Settings

end GmlLift
