import GmlLift.Flow.Error
import GmlLift.Frame.Error

/-! Why an entry cannot be lifted. -/

namespace GmlLift

/-- What went wrong, and by that in which half of the work. -/
inductive LiftCause where
  | flow (e : FlowError)
  | build (e : BuildError)

namespace LiftCause

def phase : LiftCause → String
  | flow _ => "control flow analysis"
  | build _ => "AST building"

def message : LiftCause → String
  | flow e => e.message
  | build e => e.message

end LiftCause

structure LiftError where
  entry : String
  cause : LiftCause

def LiftError.message (e : LiftError) : String :=
  e.cause.phase ++ " failed for " ++ e.entry ++ ": " ++ e.cause.message

end GmlLift
