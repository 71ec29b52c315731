import GmlLift.Decimal.Binary64
import GmlLift.Text.Numeral

/-! Reading a decimal as the nearest double.

A decimal is an optional sign and then one of `inf`, `infinity`, `nan` in any case, or digits with
an optional point and an optional exponent. A value half way between two doubles goes to the one
with the even mantissa. -/

namespace GmlLift.Decimal

/-- The magnitude bits of the double nearest to `num / den`, which is positive. -/
def nearestBits (num den : Nat) : Nat :=
  let guess : Int := (num.log2 : Int) - den.log2
  let scaled (q : Int) : Nat × Nat := (num * pow2 (-q).toNat, den * pow2 q.toNat)
  let fine := max (guess - 53) (-1074)
  let (a, b) := scaled fine
  let q := if a / b < pow2 53 then fine else fine + 1
  let (n, d) := scaled q
  let floor := n / d
  let rest := n % d
  let m := if 2 * rest < d then floor
    else if d < 2 * rest then floor + 1
    else floor + floor % 2
  min ((q + 1074).toNat * pow2 52 + m) (0x7FF * pow2 52)

/-- The magnitude bits of `digits * 10 ^ exponent`; exponents far outside the doubles' range are
decided without computing the power. -/
def scaledBits (digits : Nat) (exponent : Int) : Nat :=
  let size : Int := exponent + (Nat.toDigits 10 digits).length
  if digits = 0 || size < -400 then 0
  else if 400 < size then 0x7FF * pow2 52
  else nearestBits (digits * pow10 exponent.toNat) (pow10 (-exponent).toNat)

/-- The exponent after an `e`, or no exponent at all. -/
def readExponent : List Char → Option Int
  | [] => some 0
  | c :: rest => if c = 'e' || c = 'E' then Text.readSigned rest else none

/-- The magnitude bits of an unsigned decimal. -/
def readMagnitude (s : List Char) : Option Nat :=
  let lower := s.map Char.toLower
  if lower = "inf".toList || lower = "infinity".toList then some (0x7FF * pow2 52)
  else if lower = "nan".toList then some (0x7FF * pow2 52 + pow2 51)
  else
    let whole := s.takeWhile Char.isDigit
    let rest := s.dropWhile Char.isDigit
    let (fraction, tail) := match rest with
      | '.' :: r => (r.takeWhile Char.isDigit, r.dropWhile Char.isDigit)
      | _ => ([], rest)
    if whole.isEmpty && fraction.isEmpty then none
    else (readExponent tail).map fun e =>
      scaledBits (Nat.ofDigitChars 10 (whole ++ fraction) 0) (e - fraction.length)

def readBinary64 (s : List Char) : Option Binary64 :=
  let signed (sign : Nat) (rest : List Char) : Option Binary64 :=
    (readMagnitude rest).map fun b => ⟨UInt64.ofNat (sign * pow2 63 + b)⟩
  match s with
  | '-' :: rest => signed 1 rest
  | '+' :: rest => signed 0 rest
  | _ => signed 0 s

end GmlLift.Decimal
