/-! Whole numbers written in decimal digits.

A numeral is an optional sign and at least one digit; leading zeros are allowed. A reader refuses
a value outside its word's range. -/

namespace GmlLift.Text

/-- The digits' value, if there is at least one and all are digits. -/
def readDigits (s : List Char) : Option Nat :=
  if s.isEmpty || !s.all Char.isDigit then none else some (Nat.ofDigitChars 10 s 0)

/-- A numeral with an optional `+` or `-`. -/
def readSigned : List Char → Option Int
  | '+' :: s => (readDigits s).map Int.ofNat
  | '-' :: s => (readDigits s).map fun n => -(n : Int)
  | s => (readDigits s).map Int.ofNat

/-- A numeral with an optional `+`. -/
def readUnsigned : List Char → Option Nat
  | '+' :: s => readDigits s
  | s => readDigits s

/-- A signed numeral that fits `bits` bits. -/
def readInt (bits : Nat) (s : List Char) : Option Int := do
  let n ← readSigned s
  let bound : Int := Nat.pow 2 (bits - 1)
  if -bound ≤ n ∧ n < bound then some n else none

/-- An unsigned numeral that fits `bits` bits. -/
def readNat (bits : Nat) (s : List Char) : Option Nat := do
  let n ← readUnsigned s
  if n < Nat.pow 2 bits then some n else none

end GmlLift.Text
