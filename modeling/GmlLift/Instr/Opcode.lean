/-! Operations of the stack machine, their bytes and their mnemonics.

Two byte numberings exist. The current one has one compare operation whose kind stands in the
instruction word; the legacy one has an operation per comparison. Everything past the decoder uses
the current numbering. -/

namespace GmlLift

inductive Opcode where
  | conv | mul | div | rem | mod | add | sub | and | or | xor | neg | not | shl | shr | cmp
  | pop | dup | ret | exit | popz | b | bt | bf | pushEnv | popEnv
  | push | pushLoc | pushGlb | pushBltn | pushI | call | callV
  /-- The operation proper is an `ExtOpcode` in the low half of the instruction word. -/
  | extended
deriving DecidableEq, Repr, Inhabited

namespace Opcode

def all : List Opcode :=
  [conv, mul, div, rem, mod, add, sub, and, or, xor, neg, not, shl, shr, cmp, pop, dup, ret, exit,
   popz, b, bt, bf, pushEnv, popEnv, push, pushLoc, pushGlb, pushBltn, pushI, call, callV, extended]

def byte : Opcode → UInt8
  | conv => 0x07 | mul => 0x08 | div => 0x09 | rem => 0x0A | mod => 0x0B | add => 0x0C
  | sub => 0x0D | and => 0x0E | or => 0x0F | xor => 0x10 | neg => 0x11 | not => 0x12
  | shl => 0x13 | shr => 0x14 | cmp => 0x15 | pop => 0x45 | dup => 0x86 | ret => 0x9C
  | exit => 0x9D | popz => 0x9E | b => 0xB6 | bt => 0xB7 | bf => 0xB8 | pushEnv => 0xBA
  | popEnv => 0xBB | push => 0xC0 | pushLoc => 0xC1 | pushGlb => 0xC2 | pushBltn => 0xC3
  | pushI => 0x84 | call => 0xD9 | callV => 0x99 | extended => 0xFF

/-- The byte in the legacy numbering, for the operations that have one of their own. -/
def legacyByte? : Opcode → Option UInt8
  | conv => some 0x03 | mul => some 0x04 | div => some 0x05 | rem => some 0x06 | mod => some 0x07
  | add => some 0x08 | sub => some 0x09 | and => some 0x0A | or => some 0x0B | xor => some 0x0C
  | neg => some 0x0D | not => some 0x0E | shl => some 0x0F | shr => some 0x10 | pop => some 0x41
  | dup => some 0x82 | ret => some 0x9D | exit => some 0x9E | popz => some 0x9F | b => some 0xB7
  | bt => some 0xB8 | bf => some 0xB9 | pushEnv => some 0xBB | popEnv => some 0xBC
  | push => some 0xC0 | call => some 0xDA | extended => some 0xFF
  | cmp | pushLoc | pushGlb | pushBltn | pushI | callV => none

def mnemonic : Opcode → String
  | conv => "conv" | mul => "mul" | div => "div" | rem => "rem" | mod => "mod" | add => "add"
  | sub => "sub" | and => "and" | or => "or" | xor => "xor" | neg => "neg" | not => "not"
  | shl => "shl" | shr => "shr" | cmp => "cmp" | pop => "pop" | dup => "dup" | ret => "ret"
  | exit => "exit" | popz => "popz" | b => "b" | bt => "bt" | bf => "bf" | pushEnv => "pushenv"
  | popEnv => "popenv" | push => "push" | pushLoc => "pushloc" | pushGlb => "pushglb"
  | pushBltn => "pushbltn" | pushI => "pushi" | call => "call" | callV => "callv"
  | extended => "break"

def ofByte? (v : UInt8) : Option Opcode := all.find? fun op => op.byte == v

/-- Read a legacy byte; a comparison also gives its kind, numbered from 1. -/
def ofLegacyByte? (v : UInt8) : Option (Opcode × Option UInt8) :=
  if 0x11 ≤ v && v ≤ 0x16 then some (cmp, some (v - 0x10))
  else (all.find? fun op => op.legacyByte? == some v).map fun op => (op, none)

def ofMnemonic? (s : String) : Option Opcode := all.find? fun op => op.mnemonic == s

/-- One of the three jumps. -/
def isBranch : Opcode → Bool
  | b | bt | bf => true
  | _ => false

/-- Whether the low bits of the instruction word hold a jump offset. -/
def hasOffset : Opcode → Bool
  | b | bt | bf | pushEnv | popEnv => true
  | _ => false

def isPush : Opcode → Bool
  | push | pushLoc | pushGlb | pushBltn | pushI => true
  | _ => false

/-- Arithmetic and bitwise operations on two values. -/
def isBinary : Opcode → Bool
  | mul | div | rem | mod | add | sub | and | or | xor | shl | shr => true
  | _ => false

end Opcode

/-- Operations behind `Opcode.extended`. -/
inductive ExtOpcode where
  /-- Check the array index on the stack top. -/
  | checkIndex
  /-- Read the last dimension of an array. -/
  | pushFinal
  /-- Write the last dimension of an array. -/
  | popFinal
  /-- Read a dimension that is not the last. -/
  | pushContainer
  /-- Set the array owner used for copy on write. -/
  | setOwner
  /-- Push whether the statics of the function are set up. -/
  | hasStatic
  /-- Mark the statics of the function as set up. -/
  | setStatic
  | saveRef
  | restoreRef
  /-- Push whether the stack top is undefined, keeping it. -/
  | isNullish
  /-- Push an asset, packed with its kind. -/
  | pushRef
deriving DecidableEq, Repr

namespace ExtOpcode

def all : List ExtOpcode :=
  [checkIndex, pushFinal, popFinal, pushContainer, setOwner, hasStatic, setStatic, saveRef,
   restoreRef, isNullish, pushRef]

def code : ExtOpcode → Int16
  | checkIndex => -1 | pushFinal => -2 | popFinal => -3 | pushContainer => -4 | setOwner => -5
  | hasStatic => -6 | setStatic => -7 | saveRef => -8 | restoreRef => -9 | isNullish => -10
  | pushRef => -11

def mnemonic : ExtOpcode → String
  | checkIndex => "chkindex" | pushFinal => "pushaf" | popFinal => "popaf"
  | pushContainer => "pushac" | setOwner => "setowner" | hasStatic => "isstaticok"
  | setStatic => "setstatic" | saveRef => "savearef" | restoreRef => "restorearef"
  | isNullish => "isnullish" | pushRef => "pushref"

def ofCode? (v : Int16) : Option ExtOpcode := all.find? fun op => op.code == v

def ofMnemonic? (s : String) : Option ExtOpcode := all.find? fun op => op.mnemonic == s

end ExtOpcode

end GmlLift
