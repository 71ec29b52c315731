/-! Hexadecimal text, lower case and without leading zeros. -/

namespace GmlLift.Text

def hexDigits (n : Nat) : String := String.ofList (Nat.toDigits 16 n)

/-- A number with the mark `0x`. -/
def hex (n : Nat) : String := "0x" ++ hexDigits n

/-- A byte with the mark `0x` and two digits. -/
def hexByte (b : UInt8) : String :=
  if b < 16 then "0x0" ++ hexDigits b.toNat else hex b.toNat

/-- A signed number; a negative one shows its 64-bit two's complement. -/
def hexInt (n : Int) : String := hex (n % 0x10000000000000000).toNat

end GmlLift.Text
