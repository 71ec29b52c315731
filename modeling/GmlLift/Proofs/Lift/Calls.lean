import GmlLift.Lift.Session
import GmlLift.Proofs.Clean.EnumMerge

/-! # Sessions can be used again

What a session has gathered is written into the text that it gives next. Since merging a table twice
adds nothing, an entry can be lifted any number of times in one session, and comes out the same
each time. -/
namespace GmlLift

/-- What a session can be asked for. -/
inductive Request where
  | statements | source
deriving DecidableEq

/-- What a session answers. -/
inductive Answer where
  | statements (body : List Stmt)
  | source (text : String)

namespace Session

section

variable (game : Game) (settings : Settings) (code : CodeEntry)

/-- Ask for one thing. When that fails, the session stays as it is. -/
def call (s : Session) : Request → Except LiftError Answer × Session
  | .statements => match s.statements game settings code with
    | .ok (body, s) => (.ok (.statements body), s)
    | .error e => (.error e, s)
  | .source => match s.source game settings code with
    | .ok (text, s) => (.ok (.source text), s)
    | .error e => (.error e, s)

/-- Ask for one thing after the other. -/
def calls (s : Session) : List Request → List (Except LiftError Answer) × Session
  | [] => ([], s)
  | r :: rest =>
    let (answer, s) := s.call game settings code r
    let (answers, s) := s.calls rest
    (answer :: answers, s)

/-- The answer that a lifted entry gives when these enum values are known. -/
def answerOf (settings : Settings) (enums : EnumTable) (body : List Stmt) : Request → Answer
  | .statements => .statements body
  | .source => .source (entrySource settings enums body)

theorem call_eq (s : Session) (r : Request) :
    s.call game settings code r = match lift game settings code with
      | .ok l => (.ok (answerOf settings (s.add l).enums l.body r), s.add l)
      | .error e => (.error e, s) := by
  cases r <;> unfold call source statements <;> cases lift game settings code <;> rfl

/-- Gathering the same enum values again changes nothing. -/
theorem enums_add_add (s : Session) (l : Lifted) : ((s.add l).add l).enums = (s.add l).enums := by
  show (s.enums.merge l.enums).merge l.enums = s.enums.merge l.enums
  rw [EnumTable.merge_assoc, EnumTable.merge_self]

/-! ## One call after another -/

theorem answer_call_call (s : Session) (first r : Request) :
    ((s.call game settings code first).2.call game settings code r).1 =
      (s.call game settings code r).1 := by
  simp only [call_eq]
  cases lift game settings code with
  | error e => rfl
  | ok l =>
    show Except.ok (answerOf settings ((s.add l).add l).enums l.body r) = _
    rw [enums_add_add]

theorem enums_call_call (s : Session) (first r : Request) :
    ((s.call game settings code first).2.call game settings code r).2.enums =
      (s.call game settings code first).2.enums := by
  simp only [call_eq]
  cases lift game settings code with
  | error e => rfl
  | ok l => exact enums_add_add s l

/-- The warnings that a call adds. -/
def newWarnings : List Warning := match lift game settings code with
  | .ok l => l.warnings
  | .error _ => []

theorem warnings_call (s : Session) (r : Request) :
    (s.call game settings code r).2.warnings = s.warnings ++ newWarnings game settings code := by
  rw [call_eq, newWarnings]
  cases lift game settings code with
  | error e => exact (List.append_nil _).symm
  | ok l => rfl

/-! ## Any number of calls -/

theorem answers_calls (s : Session) (requests : List Request) :
    (s.calls game settings code requests).1 =
      requests.map fun r => (s.call game settings code r).1 := by
  induction requests generalizing s with
  | nil => rfl
  | cons first rest ih =>
    show _ :: ((s.call game settings code first).2.calls game settings code rest).1 = _
    rw [ih, List.map_cons]
    refine congrArg (_ :: ·) (List.map_congr_left fun r _ => ?_)
    exact answer_call_call game settings code s first r

theorem enums_calls (s : Session) (first : Request) (requests : List Request) :
    (s.calls game settings code (first :: requests)).2.enums =
      (s.call game settings code first).2.enums := by
  induction requests generalizing s first with
  | nil => rfl
  | cons r rest ih =>
    exact (ih (s.call game settings code first).2 r).trans
      (enums_call_call game settings code s first r)

theorem warnings_calls (s : Session) (requests : List Request) :
    (s.calls game settings code requests).2.warnings =
      s.warnings ++ (List.replicate requests.length (newWarnings game settings code)).flatten := by
  induction requests generalizing s with
  | nil => exact (List.append_nil _).symm
  | cons first rest ih =>
    refine (ih (s.call game settings code first).2).trans ?_
    rw [warnings_call, List.append_assoc, List.length_cons, List.replicate_succ,
      List.flatten_cons]

/-- Calls can be made again: each is answered as if it were the first one, the enum values stay as
the first call leaves them, and every call adds the warnings of the first one. -/
structure Steady (s : Session) : Prop where
  answers (requests : List Request) : (s.calls game settings code requests).1 =
    requests.map fun r => (s.call game settings code r).1
  enums (first : Request) (requests : List Request) :
    (s.calls game settings code (first :: requests)).2.enums =
      (s.call game settings code first).2.enums
  warnings : ∃ found, ∀ requests : List Request,
    (s.calls game settings code requests).2.warnings =
      s.warnings ++ (List.replicate requests.length found).flatten

end

/-- Merging is a union in which the first table wins, and sessions can be used again for any entry,
game and settings. -/
theorem merge_and_calls_steady : EnumTable.LeftBiasedUnion EnumTable.merge ∧
    ∀ (s : Session) (game : Game) (settings : Settings) (code : CodeEntry),
      s.Steady game settings code := by
  refine ⟨EnumTable.leftBiasedUnion_merge, fun s game settings code => ?_⟩
  exact {
    answers := answers_calls game settings code s
    enums := enums_calls game settings code s
    warnings := ⟨newWarnings game settings code, warnings_calls game settings code s⟩ }

end Session

end GmlLift
