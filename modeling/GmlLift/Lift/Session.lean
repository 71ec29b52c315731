import GmlLift.Build
import GmlLift.Clean.Basic
import GmlLift.Flow.Analyze
import GmlLift.Lift.Error
import GmlLift.Source.Entry

/-! Lifting an entry from instructions to statements and to source text. -/

namespace GmlLift

/-- The statements of an entry with what was found on the way. -/
structure Lifted where
  body : List Stmt
  warnings : List Warning
  /-- The enum values that naming brought in. -/
  enums : EnumTable

/-- Recover the structure, build statements and clean them if that is wanted. -/
def lift (game : Game) (settings : Settings) (code : CodeEntry) : Except LiftError Lifted := do
  let graph ← (analyze code game.handlerLayout).mapError fun e => ⟨code.name, .flow e⟩
  let (body, warnings) ← (buildStatements graph game settings).mapError fun e =>
    ⟨code.name, .build e⟩
  if settings.clean then
    let (body, enums) := cleanEntry game settings code.name body
    return ⟨body, warnings, enums⟩
  else return ⟨body, warnings, {}⟩

/-- The warnings and enum values of every lift so far. -/
structure Session where
  warnings : List Warning := []
  enums : EnumTable := {}

namespace Session

def add (s : Session) (l : Lifted) : Session := ⟨s.warnings ++ l.warnings, s.enums.merge l.enums⟩

/-- Lift an entry to statements. A failure leaves the session as it is. -/
def statements (s : Session) (game : Game) (settings : Settings) (code : CodeEntry) :
    Except LiftError (List Stmt × Session) := do
  let l ← lift game settings code
  return (l.body, s.add l)

/-- Lift an entry to source text, with the enums of the whole session declared. -/
def source (s : Session) (game : Game) (settings : Settings) (code : CodeEntry) :
    Except LiftError (String × Session) := do
  let (body, s) ← s.statements game settings code
  return (entrySource settings s.enums body, s)

end Session

end GmlLift
