import GmlLift.Decimal.Power

/-! Doubles as 64-bit words.

A double is kept as its bits, so that a NaN keeps its payload and every fact about a value is a
fact about natural numbers: a finite double is `mantissa * 2 ^ exponent`, up to its sign. -/

namespace GmlLift.Decimal

structure Binary64 where
  bits : UInt64
deriving DecidableEq, Inhabited

namespace Binary64

/-- Whether the sign bit is set; also true of `-0` and of some NaNs. -/
def signBit (x : Binary64) : Bool := x.bits.toNat ≥ pow2 63

def exponentField (x : Binary64) : Nat := x.bits.toNat / pow2 52 % pow2 11

def fractionField (x : Binary64) : Nat := x.bits.toNat % pow2 52

def isFinite (x : Binary64) : Bool := x.exponentField != 0x7FF

def isNaN (x : Binary64) : Bool := !x.isFinite && x.fractionField != 0

/-- The whole number whose multiple of `2 ^ exponent` a finite double is. -/
def mantissa (x : Binary64) : Nat :=
  if x.exponentField = 0 then x.fractionField else x.fractionField + pow2 52

def exponent (x : Binary64) : Int := max x.exponentField 1 - 1075

def isZero (x : Binary64) : Bool := x.isFinite && x.mantissa == 0

/-- Below zero: neither `-0` nor a NaN is. -/
def isNegative (x : Binary64) : Bool := x.signBit && !x.isZero && !x.isNaN

/-- Numeric equality: a NaN equals nothing, and the two zeros are equal. -/
def equal (x y : Binary64) : Bool :=
  !x.isNaN && !y.isNaN && (x.bits == y.bits || (x.isZero && y.isZero))

/-- The magnitude of a finite double that is a whole number. -/
def wholeMagnitude? (x : Binary64) : Option Nat :=
  if !x.isFinite then none
  else match x.exponent with
    | .ofNat e => some (x.mantissa * pow2 e)
    | .negSucc e => if x.mantissa % pow2 (e + 1) = 0 then some (x.mantissa / pow2 (e + 1)) else none

/-- The double with the value of a 32-bit float. A NaN keeps its sign and payload and becomes
quiet. -/
def ofFloat32Bits (w : UInt32) : Binary64 :=
  let n := w.toNat
  let sign := n / pow2 31 * pow2 63
  let field := n / pow2 23 % pow2 8
  let fraction := n % pow2 23
  let magnitude :=
    if field = 0xFF then
      if fraction = 0 then 0x7FF * pow2 52
      else 0x7FF * pow2 52 + (fraction * pow2 29 ||| pow2 51)
    else if field = 0 then
      if fraction = 0 then 0
      else
        let top := fraction.log2
        (top + 874) * pow2 52 + (fraction * pow2 (52 - top) - pow2 52)
    else (field + 896) * pow2 52 + fraction * pow2 29
  ⟨UInt64.ofNat (sign + magnitude)⟩

end Binary64

end GmlLift.Decimal
