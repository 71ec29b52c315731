import GmlLift.Text.Hex

/-! Why the structure of code cannot be recovered. -/

namespace GmlLift

open Text (hex)

/-- The constructs whose layout a pass looks for. -/
inductive Construct where
  | staticInit | nullish | loop | whileLoop | repeatLoop | withLoop | shortCircuit | tryCatch
  | switch | conditional
deriving DecidableEq

def Construct.name : Construct → String
  | staticInit => "static init" | nullish => "nullish" | loop => "loop" | whileLoop => "while"
  | repeatLoop => "repeat" | withLoop => "with" | shortCircuit => "short-circuit"
  | tryCatch => "try" | switch => "switch" | conditional => "if"

/-- How code departs from a construct's layout. -/
inductive LayoutFault where
  | noBranchTarget
  | noBlockAfterInitializer
  | noRightHandSide | leftNotDiscarded | noBlockAfterExpression
  /-- A loop lacks the named block. -/
  | noLoopBlock (what : String)
  | noBodyAfterCondition | noCounterBlock | unknownCounter | noEnvBlock
  | noFinalOperand | noBlockAfterResult | noJumpPastResult | noFallThrough
  | noFinallyAddress | handlersOutOfOrder | noTryBody | tryBodyOpen | noCatchBlock | catchOpen
  | noBlockAfterTry
  | noSwitchEnd | caseNotBlock
  | notTwoWay
deriving DecidableEq

def LayoutFault.message : LayoutFault → String
  | noBranchTarget => "missing branch target"
  | noBlockAfterInitializer => "no block after initializer"
  | noRightHandSide => "missing right-hand side"
  | leftNotDiscarded => "right-hand side does not discard the left"
  | noBlockAfterExpression => "no block after expression"
  | noLoopBlock what => "no " ++ what ++ " block"
  | noBodyAfterCondition => "condition has no body"
  | noCounterBlock => "no counter block"
  | unknownCounter => "unrecognized counter sequence"
  | noEnvBlock => "no pushenv block"
  | noFinalOperand => "no final operand"
  | noBlockAfterResult => "no block after result"
  | noJumpPastResult => "final operand does not jump past the result"
  | noFallThrough => "operand has no fall-through"
  | noFinallyAddress => "no finally address"
  | handlersOutOfOrder => "catch and finally are out of order for this exception layout"
  | noTryBody => "no try body"
  | tryBodyOpen => "try body does not end at a block boundary"
  | noCatchBlock => "no catch block"
  | catchOpen => "catch does not end at a block boundary"
  | noBlockAfterTry => "no block after try"
  | noSwitchEnd => "no end of switch found"
  | caseNotBlock => "case target is not a block"
  | notTwoWay => "condition without two successors"

inductive FlowError where
  | missingBlock (address target : Nat)
  | missingExit (name : String) (address : Nat)
  | missingFragmentBranch (address : Nat)
  | unmatchedFragments (count : Nat)
  | lengthMismatch (expected found : Nat)
  | addressOutOfRange (address : Nat) (value : Int)
  | layout (construct : Construct) (address : Nat) (fault : LayoutFault)
deriving DecidableEq

def FlowError.message : FlowError → String
  | missingBlock address target =>
    "instruction at " ++ hex address ++ " refers to " ++ hex target
      ++ ", which is not an instruction boundary"
  | missingExit name address =>
    "function " ++ name ++ " ending at " ++ hex address ++ " does not end in exit"
  | missingFragmentBranch address =>
    "embedded function at " ++ hex address ++ " is not preceded by a branch around it"
  | unmatchedFragments count =>
    toString count ++ " embedded function(s) still open at end of code"
  | lengthMismatch expected found =>
    "blocks end at " ++ hex found ++ " but code length is " ++ hex expected
  | addressOutOfRange address value =>
    "instruction at " ++ hex address ++ " pushes " ++ toString value ++ " as a code address"
  | layout construct address fault =>
    construct.name ++ " at " ++ hex address ++ ": " ++ fault.message

end GmlLift
