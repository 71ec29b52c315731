import GmlLift.Flow.Blocks
import GmlLift.Flow.Branch
import GmlLift.Flow.Fragments
import GmlLift.Flow.Loops
import GmlLift.Flow.Nullish
import GmlLift.Flow.ShortCircuit
import GmlLift.Flow.StaticInit
import GmlLift.Flow.Switch
import GmlLift.Flow.TryCatch

/-! The passes in their fixed order. -/

namespace GmlLift

/-- Fold every construct, from those that the others stand inside of to conditionals. -/
def foldConstructs (code : CodeEntry) (layout : TryCatch.Layout) : Pass Unit := do
  findFragments code
  let _ ← findStaticInits
  let _ ← findNullish
  let _ ← findLoops
  let _ ← findShortCircuits
  let _ ← findTryCatch layout
  let _ ← findSwitches
  let _ ← findBranches

/-- The structured graph of a root entry. -/
def analyze (code : CodeEntry) (layout : TryCatch.Layout) : Except FlowError Graph := do
  let g ← findBlocks code
  match (foldConstructs code layout).run g with
  | .ok _ g => .ok g
  | .error e _ => .error e

end GmlLift
