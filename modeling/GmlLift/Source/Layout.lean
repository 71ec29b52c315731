import GmlLift.Settings

/-! Lines and blocks of source text at a depth of nesting. -/

namespace GmlLift.Source

def indentation (s : Settings) (depth : Nat) : String :=
  String.join (List.replicate depth s.indent)

def line (s : Settings) (depth : Nat) (text : String) : String :=
  indentation s depth ++ text ++ "\n"

/-- What ends a statement. -/
def terminator (s : Settings) : String := if s.semicolons then ";" else ""

/-- The lines from a header to the opening brace. -/
def openBlock (s : Settings) (depth : Nat) (header : String) : String :=
  if s.braceOnSameLine then line s depth (header ++ " \x7b")
  else line s depth header ++ line s depth "\x7b"

def closeBlock (s : Settings) (depth : Nat) (trailer : String) : String :=
  line s depth ("\x7d" ++ trailer)

/-- Between two blocks of one statement, such as the branches of a conditional. -/
def reopenBlock (s : Settings) (depth : Nat) (header : String) : String :=
  if s.braceOnSameLine then line s depth ("\x7d " ++ header ++ " \x7b")
  else line s depth "\x7d" ++ line s depth header ++ line s depth "\x7b"

/-- A whole block around text that is one level deeper. -/
def block (s : Settings) (depth : Nat) (header body : String) : String :=
  openBlock s depth header ++ body ++ closeBlock s depth ""

end GmlLift.Source
