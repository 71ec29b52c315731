import GmlLift.Flow.Analyze
import GmlLift.Proofs.Flow.Carving
import GmlLift.Proofs.Flow.GateFolds
import GmlLift.Proofs.Flow.StatementFolds

/-! # The passes by name

Every pass over a sound graph leaves a graph that `Edited` allows, whether it returns or stops. An
invariant that each edit keeps therefore holds after any number of passes in any order. -/
namespace GmlLift

open GmlLift.Graph Pass

/-- The passes that fold constructs. -/
inductive Phase where
  | fragments (code : CodeEntry)
  | staticInits
  | nullish
  | loops
  | shortCircuits
  | tryCatch (layout : TryCatch.Layout)
  | switches
  | branches

/-- A pass with the graphs before and after it. -/
structure Leg where
  pass : Phase
  before : Graph
  after : Graph

namespace Phase

/-- The pass, without the list of nodes it made. -/
def run : Phase → Pass Unit
  | fragments code => findFragments code
  | staticInits => do let _ ← findStaticInits
  | nullish => do let _ ← findNullish
  | loops => do let _ ← findLoops
  | shortCircuits => do let _ ← findShortCircuits
  | tryCatch layout => do let _ ← findTryCatch layout
  | switches => do let _ ← findSwitches
  | branches => do let _ ← findBranches

/-- Whether the pass makes fragments. -/
def carves : Phase → Bool
  | fragments _ => true
  | _ => false

/-- The graph that a pass leaves, whether it returns or stops. -/
def after (p : Phase) (g : Graph) : Graph := p.run.after g

/-- What the pass looks for. -/
def craft : Phase → Craft
  | fragments _ => .fragments
  | staticInits => .staticInits
  | nullish => .nullish
  | loops => .loops
  | shortCircuits => .shortCircuits
  | tryCatch _ => .tryCatch
  | switches => .switches
  | branches => .branches

theorem craft_ne_fragments {p : Phase} (h : p.carves = false) : p.craft ≠ .fragments := by
  intro hc
  cases p with
  | fragments code => cases h
  | _ => cases hc

theorem run_edited {g : Graph} (hs : g.Sound) (p : Phase) :
    Ends p.run g (fun _ => Edited p.craft g) (Edited p.craft g) := by
  have unit : ∀ {craft : Craft} {α : Type} {q : Pass α},
      Ends q g (fun _ => Edited craft g) (Edited craft g) →
      Ends (do let _ ← q) g (fun _ => Edited craft g) (Edited craft g) := fun h => by
    rw [ends_bind]
    exact h.mono (fun _ _ h => h) fun _ he => he
  cases p with
  | fragments code => exact findFragments_edited hs code
  | staticInits => exact unit (findStaticInits_edited hs)
  | nullish => exact unit (findNullish_edited hs)
  | loops => exact unit (findLoops_edited hs)
  | shortCircuits => exact unit (findShortCircuits_edited hs)
  | tryCatch layout => exact unit (findTryCatch_edited hs layout)
  | switches => exact unit (findSwitches_edited hs)
  | branches => exact unit (findBranches_edited hs)

theorem after_edited {g : Graph} (hs : g.Sound) (p : Phase) : Edited p.craft g (p.after g) :=
  (run_edited hs p).after

/-- The passes in the order of an analysis. -/
def inOrder (code : CodeEntry) (layout : TryCatch.Layout) : List Phase :=
  [fragments code, staticInits, nullish, loops, shortCircuits, tryCatch layout, switches, branches]

/-- The legs of passes in a row, up to a pass that stops. -/
def trail : List Phase → Graph → List Leg
  | [], _ => []
  | p :: ps, g => ⟨p, g, p.after g⟩ :: match p.run.run g with
    | .ok _ g' => trail ps g'
    | .error .. => []

theorem after_forM_cons (p : Phase) (ps : List Phase) (g : Graph) :
    ((p :: ps).forM run).after g = match p.run.run g with
      | .ok _ g' => (ps.forM run).after g'
      | .error _ g' => g' := by
  have hcons : (p :: ps).forM run = p.run >>= fun _ => ps.forM run := List.forM_cons
  rw [hcons, after_bind]
  cases p.run.run g <;> rfl

/-- The last pass of a trail leaves what the passes leave together. -/
theorem getLast?_trail (p : Phase) (ps : List Phase) (g : Graph) :
    (trail (p :: ps) g).getLast?.map Leg.after = some (((p :: ps).forM run).after g) := by
  induction ps generalizing p g with
  | nil =>
    rw [after_forM_cons, trail, after, Pass.after]
    cases p.run.run g <;> rfl
  | cons q qs ih =>
    rw [after_forM_cons, trail, after, Pass.after]
    cases p.run.run g with
    | ok u g' =>
      have hne : trail (q :: qs) g' ≠ [] := by simp [trail]
      dsimp only
      rw [List.getLast?_cons_of_ne_nil hne]
      exact ih q g'
    | error e g' => rfl

end Phase

theorem foldConstructs_eq_forM (code : CodeEntry) (layout : TryCatch.Layout) :
    foldConstructs code layout = (Phase.inOrder code layout).forM Phase.run := by
  simp [foldConstructs, Phase.inOrder, Phase.run]

end GmlLift
