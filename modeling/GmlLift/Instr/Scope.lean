/-! Where a variable lives and how an operand reaches it. -/

namespace GmlLift

/-- The scopes with a number of their own; numbers from zero up are objects. -/
inductive Scope where
  | own | other | all | noone | global | builtin | locals
  /-- The instance is on the stack. -/
  | stackTop
  | arg | static
deriving DecidableEq, Repr

namespace Scope

def every : List Scope :=
  [own, other, all, noone, global, builtin, locals, stackTop, arg, static]

def code : Scope → Int16
  | own => -1 | other => -2 | all => -3 | noone => -4 | global => -5 | builtin => -6
  | locals => -7 | stackTop => -9 | arg => -15 | static => -16

/-- The word for the scope in source text and in listings. -/
def keyword : Scope → String
  | own => "self" | other => "other" | all => "all" | noone => "noone" | global => "global"
  | builtin => "builtin" | locals => "local" | stackTop => "stacktop" | arg => "arg"
  | static => "static"

def ofCode? (v : Int16) : Option Scope := every.find? fun s => s.code == v

def ofKeyword? (s : String) : Option Scope := every.find? fun t => t.keyword == s

end Scope

/-- How a variable operand is reached (the top byte of its second word). -/
inductive Access where
  /-- Index and instance come from the stack. -/
  | array
  /-- The instance comes from the stack. -/
  | stackTop
  | normal
  | inst
  /-- First dimension of an array read. -/
  | multiPush
  /-- First dimension of an array write. -/
  | multiPushPop
  | raw (v : UInt8)
deriving DecidableEq, Repr

namespace Access

/-- The ways with a byte of their own. -/
def named : List Access := [array, stackTop, normal, inst, multiPush, multiPushPop]

def byte : Access → UInt8
  | array => 0x00 | stackTop => 0x80 | normal => 0xA0 | inst => 0xE0 | multiPush => 0x10
  | multiPushPop => 0x90 | raw v => v

def ofByte (v : UInt8) : Access := (named.find? fun a => a.byte == v).getD (raw v)

/-- The word in brackets before the variable in a listing; plain access has none. -/
def word? : Access → Option String
  | array => some "array" | stackTop => some "stacktop" | normal => none | inst => some "instance"
  | multiPush => some "multipush" | multiPushPop => some "multipushpop" | raw _ => none

def mark (a : Access) : String := match a.word? with
  | some w => "[" ++ w ++ "]"
  | none => ""

def ofWord? (s : String) : Option Access := named.find? fun a => a.word? == some s

/-- Whether an index and its instance come from the stack. -/
def isArray : Access → Bool
  | array | multiPush | multiPushPop => true
  | _ => false

end Access

end GmlLift
