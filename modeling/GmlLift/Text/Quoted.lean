import GmlLift.Text.Hex
import GmlLift.Text.Printable

/-! Quoted text, as messages and string operands show it. -/

namespace GmlLift.Text

/-- How one character stands between the quotes. -/
def quotedChar (c : Char) : List Char :=
  if c = '"' then ['\\', '"']
  else if c = '\\' then ['\\', '\\']
  else if c = '\n' then ['\\', 'n']
  else if c = '\r' then ['\\', 'r']
  else if c = '\t' then ['\\', 't']
  else if c = '\x00' then ['\\', '0']
  else if isShown c then [c]
  else ['\\', 'u', '\x7b'] ++ Nat.toDigits 16 c.toNat ++ ['\x7d']

def quotedChars (s : List Char) : List Char := '"' :: s.flatMap quotedChar ++ ['"']

def quoted (s : String) : String := String.ofList (quotedChars s.toList)

end GmlLift.Text
