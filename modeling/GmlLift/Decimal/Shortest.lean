import GmlLift.Decimal.Binary64

/-! Decimal text of doubles.

The text of a double is the coarsest decimal that reads back as it: among the multiples of a power
of ten, the nearest below and the nearest above are tried, from large powers down, and the first
power with a hit wins. Of two hits the nearer is taken, and the upper one on a tie. The text is
always positional. -/

namespace GmlLift.Decimal

/-- `digits * 10 ^ exponent`. -/
structure Scaled where
  digits : Nat
  exponent : Int
deriving DecidableEq, Repr

/-- The reals that round to a positive finite double, as bounds over a common denominator. The
bounds themselves belong to it when the mantissa is even. -/
structure Rounding where
  value : Nat
  low : Nat
  high : Nat
  denominator : Nat
  closed : Bool

namespace Rounding

/-- Half a step on each side, but a quarter below a power of two, where the steps change. -/
def ofBinary64 (x : Binary64) : Rounding :=
  let m := x.mantissa
  let e := x.exponent - 2
  let below := if x.fractionField = 0 ∧ 1 < x.exponentField then 1 else 2
  let scale := pow2 e.toNat
  { value := 4 * m * scale
    low := (4 * m - below) * scale
    high := (4 * m + 2) * scale
    denominator := pow2 (-e).toNat
    closed := m % 2 == 0 }

/-- Whether `n * 10 ^ p` rounds to the double. -/
def holds (r : Rounding) (n : Nat) (p : Int) : Bool :=
  let a := n * pow10 p.toNat * r.denominator
  let s := pow10 (-p).toNat
  if r.closed then r.low * s ≤ a && a ≤ r.high * s else r.low * s < a && a < r.high * s

/-- The better hit among the two multiples of `10 ^ p` around the value. -/
def hitAt (r : Rounding) (p : Int) : Option Nat :=
  let num := r.value * pow10 (-p).toNat
  let den := r.denominator * pow10 p.toNat
  let floor := num / den
  match r.holds floor p, r.holds (floor + 1) p with
  | true, true => some (if 2 * (num % den) < den then floor else floor + 1)
  | true, false => some floor
  | false, true => some (floor + 1)
  | false, false => none

/-- Powers of ten from above every double down to below the finest grid ever needed. -/
def powers : List Int := (List.range 660).map fun (i : Nat) => (309 - i : Int)

/-- The coarsest decimal in the interval. -/
def shortest (r : Rounding) : Scaled :=
  (powers.findSome? fun p => (r.hitAt p).map fun n => ⟨n, p⟩).getD ⟨0, 0⟩

end Rounding

/-- Positional text without an exponent. -/
def Scaled.positional (d : Scaled) : String :=
  let ds := Nat.toDigits 10 d.digits
  let places := (-d.exponent).toNat
  if places = 0 then String.ofList (ds ++ List.replicate d.exponent.toNat '0')
  else
    let padded := List.replicate (places + 1 - ds.length) '0' ++ ds
    String.ofList
      (padded.take (padded.length - places) ++ '.' :: padded.drop (padded.length - places))

namespace Binary64

def signText (x : Binary64) : String := if x.signBit then "-" else ""

/-- The fewest digits that read back. -/
def text (x : Binary64) : String :=
  if x.isNaN then "NaN"
  else if !x.isFinite then x.signText ++ "inf"
  else if x.isZero then x.signText ++ "0"
  else x.signText ++ (Rounding.ofBinary64 x).shortest.positional

end Binary64

end GmlLift.Decimal
