import GmlLift.Json.Raw

/-! Which numbers are in range.

A number is measured by its leading digits, as many as fit 64 bits, and a power of ten. Both
factors are rounded to doubles and their product has to be finite. The two roundings may lift the
product above the number, so the range ends a little below the largest double. -/

namespace GmlLift.Json

open Decimal (pow2 pow10)

/-- The nearest whole number of 53 significant bits, the even one on a tie. -/
def round53 (n : Nat) : Nat :=
  let unit := pow2 (n.log2 - 52)
  let floor := n / unit
  let rest := n % unit
  let m := if 2 * rest < unit then floor
    else if unit < 2 * rest then floor + 1
    else floor + floor % 2
  m * unit

/-- Appends digits to a number while it fits 64 bits, and gives the digits left over. -/
def appendDigits : Nat → List Char → Nat × List Char
  | n, [] => (n, [])
  | n, c :: rest =>
    let next := Nat.ofDigitChars 10 [c] n
    if next < pow2 64 then appendDigits next rest else (n, c :: rest)

namespace Numeral

/-- The leading digits and the power of ten they stand at. A digit left over before the point
raises the power; one left over after the point is lost. -/
def leading (n : Numeral) : Nat × Int :=
  let fraction := n.fraction.getD []
  let (whole, extra) := appendDigits 0 n.whole
  let (digits, lost) := appendDigits whole fraction
  (digits, n.exponent.getD 0 + extra.length - (fraction.length - lost.length : Nat))

/-- Whether the product of leading digits and power is finite. No product is above the doubles when
the power is below one, and `10 ^ 308` is the largest power that is a double. -/
def inRange (n : Numeral) : Bool :=
  let (digits, power) := n.leading
  if digits = 0 || power < 0 then true
  else if 308 < power then false
  else round53 digits * round53 (pow10 power.toNat) < pow2 1024 - pow2 970

end Numeral

end GmlLift.Json
