import GmlLift.Text.Hex
import GmlLift.Text.Quoted

/-! Why code cannot be read, from bytes or from a listing. -/

namespace GmlLift

open Text (hex hexByte quoted)

/-- What is wrong with a line of a listing. -/
inductive ListingFault where
  | malformedLabel (line : String)
  | duplicateLabel (label : String)
  | undefinedLabel (label : String)
  | unnamedChild
  | malformedAttribute (attr : String)
  | attributeNumber (attr : String)
  | unknownAttribute (key : String)
  | unknownMnemonic (mnemonic : String)
  | unknownType (letters : String)
  | expectedLabel (found : String)
  | unknownComparison (found : String)
  | strayOperand (mnemonic : String)
  | invalidInteger (found : String)
  | invalidLiteral (what found : String)
  | malformedVariable (found : String)
  | unknownAccess (word : String)
  | missingScope (found : String)
  | unknownScope (found : String)
  | unnamedVariable (found : String)
  | unnamedCall
deriving DecidableEq

def ListingFault.message : ListingFault → String
  | malformedLabel line => "malformed label definition " ++ quoted line
  | duplicateLabel label => "duplicate label [" ++ label ++ "]"
  | undefinedLabel label => "undefined label [" ++ label ++ "]"
  | unnamedChild => "child entry without a name"
  | malformedAttribute a => "malformed child attribute " ++ quoted a
  | attributeNumber a => "invalid number in " ++ quoted a
  | unknownAttribute key => "unknown child attribute " ++ quoted key
  | unknownMnemonic m => "unknown mnemonic " ++ quoted m
  | unknownType s => "unknown type suffix " ++ quoted s
  | expectedLabel s => "expected [label], found " ++ quoted s
  | unknownComparison s => "unknown comparison " ++ quoted s
  | strayOperand m => m ++ " takes no operand"
  | invalidInteger s => "invalid integer " ++ quoted s
  | invalidLiteral what s => "invalid " ++ what ++ " literal " ++ quoted s
  | malformedVariable s => "malformed variable " ++ quoted s
  | unknownAccess w => "unknown variable prefix [" ++ w ++ "]"
  | missingScope s => "variable " ++ quoted s ++ " needs an instance prefix"
  | unknownScope s => "unknown instance " ++ quoted s
  | unnamedVariable s => "variable " ++ quoted s ++ " has no name"
  | unnamedCall => "call without a function name"

inductive CodeError where
  | unexpectedEnd (offset need have_ : Nat)
  | unknownOpcode (opcode : UInt8) (offset : Nat)
  | unknownExtended (value : Int16) (offset : Nat)
  | stringIndex (index offset : Nat)
  | pushType (type : UInt8)
  | comparisonKind (kind : UInt8) (offset : Nat)
  | listing (line : Nat) (fault : ListingFault)
deriving DecidableEq

def CodeError.message : CodeError → String
  | unexpectedEnd offset need have_ =>
    "unexpected end of data at offset " ++ hex offset ++ " (need " ++ toString need
      ++ " bytes, have " ++ toString have_ ++ ")"
  | unknownOpcode opcode offset =>
    "unknown opcode " ++ hexByte opcode ++ " at offset " ++ hex offset
  | unknownExtended value offset =>
    "unknown extended opcode " ++ toString value.toInt ++ " at offset " ++ hex offset
  | stringIndex index offset =>
    "bytecode: string index " ++ toString index ++ " out of range at offset " ++ hex offset
  | pushType type => "bytecode: unknown push data type " ++ hex type.toNat
  | comparisonKind kind offset =>
    "bytecode: unknown comparison kind " ++ toString kind.toNat ++ " at offset " ++ hex offset
  | listing line fault => "line " ++ toString line ++ ": " ++ fault.message

end GmlLift
