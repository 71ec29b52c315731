import GmlLift.Decimal.Shortest

/-! Literals in source text. -/

namespace GmlLift.Source

open Decimal (Binary64)

/-- How one character stands inside a string literal. -/
def escapeChar (c : Char) : List Char :=
  if c = '\\' then ['\\', '\\']
  else if c = '"' then ['\\', '"']
  else if c = '\n' then ['\\', 'n']
  else if c = '\r' then ['\\', 'r']
  else if c = '\t' then ['\\', 't']
  else [c]

/-- The inside of a string literal. -/
def escape (s : String) : String := String.ofList (s.toList.flatMap escapeChar)

def stringLiteral (s : String) : String := "\"" ++ escape s ++ "\""

/-- Whole numbers are written in full and keep a zero after the point, so that they stay doubles;
all others have the fewest digits that read back. -/
def doubleLiteral (x : Binary64) : String := match x.wholeMagnitude? with
  | some n => x.signText ++ toString n ++ ".0"
  | none => x.text

end GmlLift.Source
