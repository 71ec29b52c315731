import GmlLift.CodeError
import GmlLift.Decimal.Binary64

/-! Reading little-endian words from code bytes.

Instructions and operands are whole 4-byte words, so every read takes one or two words. A read
that fails leaves the reader where it was. -/

namespace GmlLift

/-- The bytes still to read, and how many were read before them. -/
structure ByteReader where
  rest : List UInt8
  position : Nat := 0

/-- A step that consumes bytes or fails. -/
abbrev Reading (α : Type) := StateT ByteReader (Except CodeError) α

namespace ByteReader

def isEmpty (r : ByteReader) : Bool := r.rest.isEmpty

/-- The number whose digits in base 256 are the bytes, lowest first. -/
def littleEndian : List UInt8 → Nat
  | [] => 0
  | b :: rest => b.toNat + 256 * littleEndian rest

/-- The number made of the next `n` bytes. -/
def number (n : Nat) : Reading Nat := fun r =>
  if n ≤ r.rest.length then
    .ok (littleEndian (r.rest.take n), ⟨r.rest.drop n, r.position + n⟩)
  else .error (.unexpectedEnd r.position n r.rest.length)

def uint32 : Reading UInt32 := UInt32.ofNat <$> number 4

def int32 : Reading Int32 := (fun n => (UInt32.ofNat n).toInt32) <$> number 4

def int64 : Reading Int64 := (fun n => (UInt64.ofNat n).toInt64) <$> number 8

/-- The bits of a 32-bit float. -/
def float32 : Reading UInt32 := uint32

def double : Reading Decimal.Binary64 := (fun n => ⟨UInt64.ofNat n⟩) <$> number 8

end ByteReader

end GmlLift
