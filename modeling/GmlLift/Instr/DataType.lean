/-! Value types of instruction operands, and comparisons. -/

namespace GmlLift

/-- A four-bit type field. In a jump the bits belong to the offset, so any value can occur. -/
inductive DataType where
  | double | float | int32 | int64 | bool | var | string | int16
  | raw (v : UInt8)
deriving DecidableEq, Repr, Inhabited

namespace DataType

def ofByte (v : UInt8) : DataType :=
  if v = 0 then double else if v = 1 then float else if v = 2 then int32 else if v = 3 then int64
  else if v = 4 then bool else if v = 5 then var else if v = 6 then string
  else if v = 15 then int16 else raw v

def byte : DataType → UInt8
  | double => 0 | float => 1 | int32 => 2 | int64 => 3 | bool => 4 | var => 5 | string => 6
  | int16 => 15 | raw v => v

/-- Bytes a value of the type takes on the machine's stack. -/
def stackSize : DataType → Nat
  | double | int64 => 8
  | var => 16
  | _ => 4

/-- The letter in a listing. -/
def letter : DataType → Char
  | double => 'd' | float => 'f' | int32 => 'i' | int64 => 'l' | bool => 'b' | var => 'v'
  | string => 's' | int16 => 'e' | raw _ => '?'

/-- The types that have a letter of their own. -/
def named : List DataType := [double, float, int32, int64, bool, var, string, int16]

def ofLetter? (c : Char) : Option DataType := named.find? fun t => t.letter == c

end DataType

inductive Comparison where
  | less | lessEqual | equal | notEqual | greaterEqual | greater
deriving DecidableEq, Repr

namespace Comparison

def all : List Comparison := [less, lessEqual, equal, notEqual, greaterEqual, greater]

def byte : Comparison → UInt8
  | less => 1 | lessEqual => 2 | equal => 3 | notEqual => 4 | greaterEqual => 5 | greater => 6

def mnemonic : Comparison → String
  | less => "LT" | lessEqual => "LTE" | equal => "EQ" | notEqual => "NEQ" | greaterEqual => "GTE"
  | greater => "GT"

def ofByte? (v : UInt8) : Option Comparison := all.find? fun k => k.byte == v

def ofMnemonic? (s : String) : Option Comparison := all.find? fun k => k.mnemonic == s

end Comparison

end GmlLift
