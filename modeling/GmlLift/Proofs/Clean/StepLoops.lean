import Mathlib.Data.List.Forall2
import GmlLift.Build
import GmlLift.Flow.Analyze
import GmlLift.Proofs.Clean.Statements
import GmlLift.Proofs.Except

/-! # Loops whose `continue`s run the step first

Such a loop must be written as a `for` loop, since a `continue` of a `while` loop would skip the
step. Cleaning writes it so exactly where the last statement of its body changes a variable, without
indices, that its condition reads. -/
namespace GmlLift

open Clean

/-- The condition of a `while` loop some of whose `continue`s run the last statement of the body
first. -/
def Stmt.stepLoop : Stmt → List (Option Expr)
  | .whileLoop c _ true => [c]
  | _ => []

/-- The variable that the last statement of a body changes. -/
def lastStepVar? (body : List Stmt) : Option Var := body.getLast?.bind Stmt.stepVar?

/-- Whether the condition of a loop reads the variable that its step changes. -/
def readsStep : Option Expr → Option Var → Bool
  | some c, some v => c.mentions v
  | _, _ => false

namespace Clean

/-- What a cleaner gives, whatever enum values it has recorded before. -/
def Cleaner.result {α : Type} (c : Cleaner α) : α := (c {}).1

/-- A variable as cleaning names it. -/
def namedVar (ctx : Context) (v : Var) : Var := nameVar ctx (Cleaner.result (parts ctx v))

/-- The cleaned condition of a loop that stays a `while` loop although its `continue`s run the step
first: it stands outside of a block, or the cleaned condition does not read the step's variable. -/
def stuckLoop (ctx : Context) (inBlock : Bool) : Stmt → List (Option Expr)
  | .whileLoop c b true =>
    let condition := c.map fun c => Cleaner.result (expr ctx c)
    if inBlock && readsStep condition ((lastStepVar? b).map (namedVar ctx)) then [] else [condition]
  | _ => []

end Clean

/-- What is left of a statement of a block after writing the suitable loops as `for` loops. -/
def Stmt.leftLoop : Stmt → List (Option Expr)
  | .whileLoop c b true => if readsStep c (lastStepVar? b) then [] else [c]
  | _ => []

/-- The loops in a tree whose `continue`s run the step first. -/
abbrev stepLoops (_ : Context) (_ : Bool) (s : Stmt) : List (Option Expr) := s.stepLoop

theorem ignoresDeclare_stepLoops : IgnoresDeclare stepLoops := by
  intro ctx inBlock s l
  cases s with
  | assign t v k d =>
    rw [Stmt.declare]
    dsimp only
    split <;> rfl
  | cond c t e => cases e <;> rfl
  | whileLoop c b flag => cases flag <;> rfl
  | forLoop i c s b => cases i <;> rfl
  | _ => rfl

/-! ## Writing `for` loops -/

theorem Stmt.stepLoop_of_stepVar? {s : Stmt} {v : Var} (h : s.stepVar? = some v) :
    s.stepLoop = [] := by
  cases s with
  | whileLoop => cases h
  | _ => rfl

theorem Stmt.stepLoop_of_isInitOf {s : Stmt} {v : Var} (h : s.isInitOf v = true) :
    s.stepLoop = [] := by
  cases s with
  | whileLoop => cases h
  | _ => rfl

theorem lastStepVar?_concat (b : List Stmt) (s : Stmt) :
    lastStepVar? (b ++ [s]) = s.stepVar? := by
  rw [lastStepVar?, List.getLast?_concat, Option.bind_some]

/-- A `while` loop written as a `for` loop behind the statement before it. -/
structure Joined (before : Option Stmt) (s : Stmt) (kept init : Option Stmt) (c : Expr)
    (step : Stmt) (rest : List Stmt) : Prop where
  loop : ∃ continuesToStep, s = .whileLoop (some c) (rest ++ [step]) continuesToStep
  reads : ∃ v, step.stepVar? = some v ∧ c.mentions v = true ∧ ∀ i ∈ init, i.isInitOf v = true
  result : joinLoop before s = (kept, .forLoop init c step rest)
  before : kept.toList ++ init.toList = before.toList

/-- A statement stays as it is, or it is a loop whose condition reads its step. -/
theorem joinLoop_cases (before : Option Stmt) (s : Stmt) :
    joinLoop before s = (before, s) ∧ s.leftLoop = s.stepLoop ∨
      ∃ kept init c step rest, Joined before s kept init c step rest := by
  match s with
  | .whileLoop (some c) body flag =>
    cases hsplit : splitStep? body with
    | none =>
      obtain rfl : body = [] := List.getLast?_eq_none_iff.mp (Option.map_eq_none_iff.mp hsplit)
      exact .inl ⟨rfl, by cases flag <;> rfl⟩
    | some p =>
      obtain ⟨rest, step⟩ := p
      obtain ⟨last, hlast, heq⟩ := Option.map_eq_some_iff.mp hsplit
      obtain ⟨rest', rfl⟩ := List.getLast?_eq_some_iff.mp hlast
      obtain ⟨rfl, rfl⟩ : rest' = rest ∧ last = step := by
        rw [List.dropLast_concat, Prod.mk.injEq] at heq
        exact heq
      have hlastVar := lastStepVar?_concat rest' last
      cases hv : last.stepVar? with
      | none =>
        refine .inl ⟨by simp only [joinLoop, hsplit, hv], ?_⟩
        cases flag <;> simp [Stmt.leftLoop, Stmt.stepLoop, hlastVar, hv, readsStep]
      | some v =>
        by_cases hm : c.mentions v = true
        · by_cases hinit : before.any (Stmt.isInitOf v) = true
          · by_cases hjoin : (flag || !Stmt.anyOwnContinue (rest' ++ [last])) = true
            · refine .inr ⟨none, before, c, last, rest', ⟨flag, rfl⟩, ⟨v, hv, hm, ?_⟩, ?_, rfl⟩
              · intro i hi
                rwa [hi, Option.any_some] at hinit
              · simp [joinLoop, hsplit, hv, hm, hinit, hjoin]
            · obtain ⟨rfl, hc⟩ : flag = false ∧ Stmt.anyOwnContinue (rest' ++ [last]) = true := by
                simpa using hjoin
              exact .inl ⟨by simp [joinLoop, hsplit, hv, hc], rfl⟩
          · have hinit : before.any (Stmt.isInitOf v) = false := by simpa using hinit
            cases flag with
            | true =>
              refine .inr ⟨before, none, c, last, rest', ⟨true, rfl⟩, ⟨v, hv, hm, nofun⟩, ?_, ?_⟩
              · simp [joinLoop, hsplit, hv, hm, hinit]
              · simp
            | false => exact .inl ⟨by simp [joinLoop, hsplit, hv, hinit], rfl⟩
        · have hm : c.mentions v = false := by simpa using hm
          refine .inl ⟨by simp [joinLoop, hsplit, hv, hm], ?_⟩
          cases flag <;> simp [Stmt.leftLoop, Stmt.stepLoop, hlastVar, hv, readsStep, hm]
  | .whileLoop none body flag => exact .inl ⟨rfl, by cases flag <;> rfl⟩
  | .assign .. | .expr _ | .function _ | .cond .. | .forLoop .. | .doUntil .. | .repeatLoop ..
  | .withLoop .. | .switch .. | .tryCatch .. | .staticInit _ | .breakJump | .continueJump
  | .returns _ | .exit | .throws _ => exact .inl ⟨rfl, rfl⟩

/-- Only the loops whose conditions read their steps go, and only those of the block itself. -/
theorem siftBlock_joinLoop (ctx : Context) (before : Option Stmt) (s : Stmt) :
    Stmt.siftBlock stepLoops ctx (joinLoop before s).1.toList ++
        ((joinLoop before s).2.stepLoop ++ (joinLoop before s).2.sift stepLoops ctx) =
      Stmt.siftBlock stepLoops ctx before.toList ++ (s.leftLoop ++ s.sift stepLoops ctx) := by
  obtain ⟨hsame, hleft⟩ | ⟨kept, init, c, step, rest, h⟩ := joinLoop_cases before s
  · rw [hsame, hleft]
  · obtain ⟨flag, rfl⟩ := h.loop
    obtain ⟨v, hv, hm, hinit⟩ := h.reads
    have hstep := Stmt.stepLoop_of_stepVar? hv
    have hleft : (Stmt.whileLoop (some c) (rest ++ [step]) flag).leftLoop = [] := by
      cases flag <;> simp [Stmt.leftLoop, lastStepVar?_concat, hv, readsStep, hm]
    rw [h.result, ← h.before, hleft]
    cases init with
    | none => simp [Stmt.stepLoop, Stmt.sift, Stmt.siftBlock_append, hstep]
    | some i =>
      have hi := Stmt.stepLoop_of_isInitOf (hinit i rfl)
      simp [Stmt.stepLoop, Stmt.sift, Stmt.siftBlock_append, hstep, hi]

/-- What is left of each statement of a block, and what is in its parts. -/
def Stmt.siftLeft (ctx : Context) (b : List Stmt) : List (Option Expr) :=
  b.flatMap fun s => s.leftLoop ++ s.sift stepLoops ctx

theorem siftBlock_forLoopsAfter (ctx : Context) (before : Option Stmt) (b : List Stmt) :
    Stmt.siftBlock stepLoops ctx (forLoopsAfter before b) =
      Stmt.siftBlock stepLoops ctx before.toList ++ Stmt.siftLeft ctx b := by
  induction b generalizing before with
  | nil => rw [forLoopsAfter, Stmt.siftLeft, List.flatMap_nil, List.append_nil]
  | cons s rest ih =>
    have hjoin := siftBlock_joinLoop ctx before s
    rw [forLoopsAfter, Stmt.siftLeft, List.flatMap_cons, ← Stmt.siftLeft, ← List.append_assoc,
      ← hjoin]
    simp [Stmt.siftBlock_append, ih]

theorem siftBlock_toForLoops (ctx : Context) (b : List Stmt) :
    Stmt.siftBlock stepLoops ctx (toForLoops b) = Stmt.siftLeft ctx b :=
  siftBlock_forLoopsAfter ctx none b

theorem stepVar?_joinLoop (before : Option Stmt) (s : Stmt) :
    (joinLoop before s).2.stepVar? = s.stepVar? := by
  obtain ⟨hsame, -⟩ | ⟨kept, init, c, step, rest, h⟩ := joinLoop_cases before s
  · rw [hsame]
  · obtain ⟨flag, rfl⟩ := h.loop
    rw [h.result]
    rfl

theorem forLoopsAfter_ne_nil (s : Stmt) (b : List Stmt) : forLoopsAfter (some s) b ≠ [] := by
  induction b generalizing s with
  | nil => exact List.cons_ne_nil s []
  | cons r rest ih =>
    intro h
    exact ih (joinLoop (some s) r).2 (List.append_eq_nil_iff.mp h).2

/-- A block ends in the same step after its loops are written as `for` loops. -/
theorem lastStepVar?_forLoopsAfter (before : Option Stmt) {b : List Stmt} (hb : b ≠ []) :
    lastStepVar? (forLoopsAfter before b) = lastStepVar? b := by
  induction b generalizing before with
  | nil => exact absurd rfl hb
  | cons s rest ih =>
    cases rest with
    | nil =>
      have hlast := lastStepVar?_concat (joinLoop before s).1.toList (joinLoop before s).2
      rw [stepVar?_joinLoop] at hlast
      exact hlast
    | cons r rest =>
      have hrest := ih (some (joinLoop before s).2) (List.cons_ne_nil r rest)
      have hne := forLoopsAfter_ne_nil (joinLoop before s).2 (r :: rest)
      have hlast := List.getLast?_eq_some_getLast hne
      rw [lastStepVar?, hlast] at hrest
      rw [forLoopsAfter, lastStepVar?, List.getLast?_append, hlast, Option.some_or, hrest,
        lastStepVar?, lastStepVar?, List.getLast?_cons_cons]

theorem lastStepVar?_toForLoops (b : List Stmt) : lastStepVar? (toForLoops b) = lastStepVar? b := by
  cases b with
  | nil => rfl
  | cons s rest => exact lastStepVar?_forLoopsAfter none (List.cons_ne_nil s rest)

namespace Clean

/-! ## What names leave alone -/

section

variable {ctx : Context}

theorem sift_nameHolder (game : Game) (name : String) (h : Holder) :
    (nameHolder game name h).sift stepLoops ctx = h.sift stepLoops ctx := by
  unfold nameHolder
  split
  · split <;> rfl
  · rfl
  · rfl

theorem sift_of_argumentName? {name n : String} {h : Holder}
    (hn : argumentName? ctx name h = some n) : h.sift stepLoops ctx = [] := by
  cases h with
  | scope s => rfl
  | object i n => rfl
  | expr e => cases hn

theorem sift_nameVar (v : Var) : (nameVar ctx v).sift stepLoops ctx = v.sift stepLoops ctx := by
  obtain ⟨name, h, indices, l⟩ := v
  unfold nameVar
  dsimp only
  split
  · rename_i n hn
    rw [Var.sift, Var.sift, sift_of_argumentName? hn, Holder.sift]
  · rw [Var.sift, Var.sift, sift_nameHolder]

theorem indices_nameVar (v : Var) : (nameVar ctx v).indices = v.indices := by
  obtain ⟨name, h, indices, l⟩ := v
  unfold nameVar
  dsimp only
  split <;> rfl

theorem sift_nameKind (k : ExprKind) :
    (nameKind ctx k).sift stepLoops ctx = k.sift stepLoops ctx := by
  cases k with
  | var v | step v s i => exact sift_nameVar v
  | asset kind id =>
    unfold nameKind nameAsset
    dsimp only
    split <;> rfl
  | _ => rfl

theorem sift_nameTarget (e : Expr) :
    (nameTarget ctx.game e).sift stepLoops ctx = e.sift stepLoops ctx := by
  unfold nameTarget
  split
  · rfl
  · rename_i v hv
    have hself := Expr.sift_of_intValue? stepLoops ctx hv
    rw [hself]
    split
    · split
      · rw [Expr.sift_withKind]
        rfl
      · exact hself
    · split
      · rw [Expr.sift_withKind]
        rfl
      · exact hself

/-- An expression in the place of another, with the same functions in it. As a statement it is a
step where the other is, of the same variable. -/
structure Alters (ctx : Context) (e e' : Expr) : Prop where
  sift : e'.sift stepLoops ctx = e.sift stepLoops ctx
  stepVar : (Stmt.expr e').stepVar? = (Stmt.expr e).stepVar?

theorem Alters.refl (e : Expr) : Alters ctx e e := ⟨rfl, rfl⟩

theorem alters_of_items {xs ys : List Expr} (h : List.Forall₂ (Alters ctx) xs ys) :
    Expr.siftList stepLoops ctx ys = Expr.siftList stepLoops ctx xs := by
  induction h with
  | nil => rfl
  | cons hxy _ ih => rw [Expr.siftList, Expr.siftList, hxy.sift, ih]

theorem stepVar?_of_intValue? {e : Expr} {n : Int} (h : e.intValue? = some n) :
    (Stmt.expr e).stepVar? = none := by
  obtain ⟨k, d, t⟩ := e
  cases k <;> first | rfl | cases h

theorem alters_resolveLiteral? {game : Game} {rule : Rule} {e e' : Expr}
    (h : Rule.resolveLiteral? game rule e = some e') : Alters ctx e e' := by
  obtain ⟨n, hn, h⟩ := Option.bind_eq_some_iff.mp h
  obtain ⟨s, hs, h⟩ := Option.bind_eq_some_iff.mp h
  cases h
  exact ⟨(Expr.sift_of_intValue? stepLoops ctx hn).symm, (stepVar?_of_intValue? hn).symm⟩

theorem alters_replaceSome? {resolve : Expr → Option Expr} {xs ys : List Expr}
    (hr : ∀ e e', resolve e = some e' → Alters ctx e e')
    (h : Rule.replaceSome? resolve xs = some ys) : List.Forall₂ (Alters ctx) xs ys := by
  unfold Rule.replaceSome? at h
  split at h
  · cases h
    refine List.forall₂_map_right_iff.mpr (List.forall₂_same.mpr fun x _ => ?_)
    cases hx : resolve x with
    | none => exact .refl x
    | some y => exact hr x y hx
  · cases h

end

mutual

/-- A rule replaces numbers alone. -/
theorem alters_resolve (ctx : Context) (game : Game) (rule : Rule) {e e' : Expr}
    (h : Rule.resolve game rule e = some e') : Alters ctx e e' := by
  cases rule with
  | union members => exact alters_resolveFirst ctx game members h
  | intersect members => exact alters_resolveEach ctx game members (fun _ h => by cases h) h
  | accepts type value =>
    rw [Rule.resolve] at h
    split at h
    · cases h
      exact .refl e
    · cases h
  | refuses type value =>
    rw [Rule.resolve] at h
    split at h
    · cases h
    · cases h
      exact .refl e
  | items element =>
    rw [Rule.resolve] at h
    split at h
    · rename_i xs hk
      obtain ⟨ys, hys, heq⟩ := Option.map_eq_some_iff.mp h
      cases heq
      obtain ⟨k, d, t⟩ := e
      obtain rfl : k = .array xs := hk
      exact ⟨alters_of_items (alters_replaceSome? (fun _ _ => alters_resolve ctx game element) hys),
        rfl⟩
    · cases h
  | arguments rules =>
    rw [Rule.resolve] at h
    split at h
    · rename_i f args hk
      dsimp only at h
      split at h
      · cases h
        obtain ⟨k, d, t⟩ := e
        obtain rfl : k = .call f args := hk
        exact ⟨alters_of_items (alters_resolveArgs ctx game rules args), rfl⟩
      · cases h
    · cases h
  | _ => exact alters_resolveLiteral? h
termination_by structural rule

theorem alters_resolveFirst (ctx : Context) (game : Game) (members : List Rule) {e e' : Expr}
    (h : Rule.resolveFirst game members e = some e') : Alters ctx e e' := by
  cases members with
  | nil => cases h
  | cons m rest =>
    rw [Rule.resolveFirst] at h
    split at h
    · rename_i r hr
      cases h
      exact alters_resolve ctx game m hr
    · exact alters_resolveFirst ctx game rest h
termination_by structural members

theorem alters_resolveEach (ctx : Context) (game : Game) (members : List Rule) {e e' : Expr}
    {result : Option Expr} (hresult : ∀ r, result = some r → Alters ctx e r)
    (h : Rule.resolveEach game members e result = some e') : Alters ctx e e' := by
  cases members with
  | nil => exact hresult e' h
  | cons m rest =>
    rw [Rule.resolveEach] at h
    split at h
    · rename_i r hr
      refine alters_resolveEach ctx game rest (fun r' hr' => ?_) h
      split at hr'
      · exact hresult r' hr'
      · cases hr'
        exact alters_resolve ctx game m hr
    · cases h
termination_by structural members

theorem alters_resolveArgs (ctx : Context) (game : Game) (rules : List (Option Rule))
    (args : List Expr) : List.Forall₂ (Alters ctx) args (Rule.resolveArgs game rules args).2 := by
  cases rules with
  | nil =>
    rw [Rule.resolveArgs]
    exact List.forall₂_same.mpr fun x _ => .refl x
    · simp
    · simp
  | cons rule rest =>
    cases args with
    | nil => cases rule <;> exact .nil
    | cons e args =>
      have hrest := alters_resolveArgs ctx game rest args
      cases rule with
      | none => exact .cons (.refl e) hrest
      | some m =>
        rw [Rule.resolveArgs]
        dsimp only
        split
        · rename_i r hr
          exact .cons (alters_resolve ctx game m hr) hrest
        · exact .cons (.refl e) hrest
termination_by structural rules

end

/-! ## Cleaning -/

/-- The cleaner gives the same whatever enum values are recorded before, and that is as it should
be. -/
structure Settles {α : Type} (c : Cleaner α) (Q : α → Prop) : Prop where
  steady : ∀ t, (c t).1 = c.result
  holds : Q c.result

section

variable {ctx : Context} {α β : Type} {c : Cleaner α} {Q : α → Prop} {R : β → Prop}

theorem Settles.pure {a : α} (h : Q a) : Settles (pure a) Q := ⟨fun _ => rfl, h⟩

theorem Settles.bind {d : α → Cleaner β} (hc : Settles c Q)
    (hd : Q c.result → Settles (d c.result) R) : Settles (c >>= d) R := by
  have hd := hd hc.holds
  have hrun : ∀ t, ((c >>= d) t).1 = (d c.result).result := by
    intro t
    rw [← hc.steady t, ← (hc.steady t ▸ hd : Settles (d (c t).1) R).steady (c t).2]
    rfl
  refine ⟨fun t => ?_, ?_⟩
  · exact (hrun t).trans (hrun {}).symm
  · rw [Cleaner.result, hrun]
    exact hd.holds

theorem Settles.mono (h : Settles c Q) {Q' : α → Prop} (hQ : Q c.result → Q' c.result) :
    Settles c Q' := ⟨h.steady, hQ h.holds⟩

/-- What a rule makes of an expression. -/
def ruled (ctx : Context) (rule : Option Rule) (e : Expr) : Expr :=
  match rule.bind fun r => r.resolve ctx.game e with
  | none => e
  | some resolved => if resolved.equal e then e else resolved

theorem applyRule_fst (rule : Option Rule) (e : Expr) (t : EnumTable) :
    (applyRule ctx rule e t).1 = ruled ctx rule e := by
  unfold applyRule ruled
  cases rule.bind fun r => r.resolve ctx.game e with
  | none => rfl
  | some resolved =>
    dsimp only
    split
    · rfl
    · split <;> rfl

theorem alters_ruled (rule : Option Rule) (e : Expr) : Alters ctx e (ruled ctx rule e) := by
  unfold ruled
  split
  · exact .refl e
  · rename_i resolved hresolved
    obtain ⟨r, -, hresolve⟩ := Option.bind_eq_some_iff.mp hresolved
    split
    · exact .refl e
    · exact alters_resolve ctx ctx.game r hresolve

theorem settles_applyRule (rule : Option Rule) (e : Expr) :
    Settles (applyRule ctx rule e) (Alters ctx e) := by
  refine ⟨fun t => ?_, ?_⟩
  · rw [applyRule_fst, Cleaner.result, applyRule_fst]
  · rw [Cleaner.result, applyRule_fst]
    exact alters_ruled rule e

theorem settles_applyRules (e : Expr) : Settles (applyRules ctx e) (Alters ctx e) := by
  unfold applyRules
  split
  · exact .pure (.refl e)
  · split
    · exact settles_applyRule _ _
    · rename_i k l r d t
      split
      · exact (settles_applyRule _ r).bind fun h => .pure ⟨congrArg (_ ++ ·) h.sift, rfl⟩
      · exact (settles_applyRule _ l).bind fun h => .pure ⟨congrArg (· ++ _) h.sift, rfl⟩
    · exact .pure (.refl _)

end

/-- An expression in the cleaned form of another. -/
structure CleanExpr (ctx : Context) (e e' : Expr) : Prop where
  sift : e'.sift stepLoops ctx = e.sift stuckLoop ctx
  stepVar : (Stmt.expr e').stepVar? = (Stmt.expr e).stepVar?.map (namedVar ctx)

theorem CleanExpr.alters {ctx : Context} {e e' e'' : Expr} (h : CleanExpr ctx e e')
    (h' : Alters ctx e' e'') : CleanExpr ctx e e'' :=
  ⟨h'.sift.trans h.sift, h'.stepVar.trans h.stepVar⟩

/-- The parts of an expression, cleaned and not yet named. -/
structure CleanKind (ctx : Context) (k k' : ExprKind) : Prop where
  sift : k'.sift stepLoops ctx = k.sift stuckLoop ctx
  stepVar : ∀ d t d' t', (Stmt.expr ⟨nameKind ctx k', d', t'⟩).stepVar? =
    (Stmt.expr ⟨k, d, t⟩).stepVar?.map (namedVar ctx)

structure CleanParts (ctx : Context) (v v' : Var) : Prop where
  sift : v'.sift stepLoops ctx = v.sift stuckLoop ctx
  isEmpty : v'.indices.isEmpty = v.indices.isEmpty

structure CleanExprs (ctx : Context) (es es' : List Expr) : Prop where
  sift : Expr.siftList stepLoops ctx es' = Expr.siftList stuckLoop ctx es
  isEmpty : es'.isEmpty = es.isEmpty

/-- A statement in the cleaned form of another, in a block and outside of one. -/
structure CleanStmt (ctx : Context) (s s' : Stmt) : Prop where
  sift : s'.sift stepLoops ctx = s.sift stuckLoop ctx
  stepVar : s'.stepVar? = s.stepVar?.map (namedVar ctx)
  inBlock : s'.leftLoop = stuckLoop ctx true s
  alone : stepLoops ctx false s' = stuckLoop ctx false s

/-- The statements of a block whose loops are yet to be written as `for` loops. -/
structure CleanStmts (ctx : Context) (b b' : List Stmt) : Prop where
  sift : Stmt.siftLeft ctx b' = Stmt.siftBlock stuckLoop ctx b
  lastStepVar : lastStepVar? b' = (lastStepVar? b).map (namedVar ctx)
  isEmpty : b'.isEmpty = b.isEmpty

structure CleanBlock (ctx : Context) (b b' : List Stmt) : Prop where
  sift : Stmt.siftBlock stepLoops ctx b' = Stmt.siftBlock stuckLoop ctx b
  lastStepVar : lastStepVar? b' = (lastStepVar? b).map (namedVar ctx)

theorem CleanStmts.loops {ctx : Context} (hctx : ctx.settings.forLoops = true) {b b' : List Stmt}
    (h : CleanStmts ctx b b') : CleanBlock ctx b (loopsOf ctx b') := by
  rw [loopsOf, if_pos hctx]
  exact ⟨(siftBlock_toForLoops ctx b').trans h.sift,
    (lastStepVar?_toForLoops b').trans h.lastStepVar⟩

theorem lastStepVar?_cons (s : Stmt) (b : List Stmt) :
    lastStepVar? (s :: b) = if b.isEmpty then s.stepVar? else lastStepVar? b := by
  cases b with
  | nil => rfl
  | cons r rest => rw [lastStepVar?, List.getLast?_cons_cons, List.isEmpty_cons, if_neg nofun,
      lastStepVar?]

theorem CleanStmt.cons {ctx : Context} {s s' : Stmt} {b b' : List Stmt} (hs : CleanStmt ctx s s')
    (hb : CleanStmts ctx b b') : CleanStmts ctx (s :: b) (s' :: b') := by
  refine ⟨?_, ?_, rfl⟩
  · rw [Stmt.siftLeft, List.flatMap_cons, ← Stmt.siftLeft, hb.sift, hs.inBlock, hs.sift]
    rfl
  · rw [lastStepVar?_cons, lastStepVar?_cons, hb.isEmpty]
    split
    · exact hs.stepVar
    · exact hb.lastStepVar

theorem cleanParts_step {ctx : Context} {v v' : Var} (h : CleanParts ctx v v')
    (hv : v' = (parts ctx v).result) :
    (if (nameVar ctx v').indices.isEmpty then some (nameVar ctx v') else none) =
      (if v.indices.isEmpty then some v else none).map (namedVar ctx) := by
  rw [indices_nameVar, h.isEmpty]
  split
  · rw [Option.map_some, namedVar, hv]
  · rfl

mutual

theorem expr_settles {ctx : Context} (hctx : ctx.settings.forLoops = true) (e : Expr) :
    Settles (expr ctx e) (CleanExpr ctx e) := by
  obtain ⟨k, d, t⟩ := e
  rw [expr]
  refine (kind_settles hctx k).bind fun hk => ?_
  refine (settles_applyRules _).mono fun h => CleanExpr.alters ⟨?_, hk.stepVar d t d t⟩ h
  rw [Expr.sift, sift_nameKind, Expr.sift]
  exact hk.sift
termination_by structural e

theorem kind_settles {ctx : Context} (hctx : ctx.settings.forLoops = true) (k : ExprKind) :
    Settles (kind ctx k) (CleanKind ctx k) := by
  cases k with
  | var v => exact (parts_settles hctx v).bind fun h => .pure ⟨h.sift, fun _ _ _ _ => rfl⟩
  | step v s i =>
    exact (parts_settles hctx v).bind fun h => .pure ⟨h.sift, fun _ _ _ _ =>
      cleanParts_step h rfl⟩
  | binary o l r | compare o l r | nullish l r =>
    exact (expr_settles hctx l).bind fun hl => (expr_settles hctx r).bind fun hr =>
      .pure ⟨congrArg₂ (· ++ ·) hl.sift hr.sift, fun _ _ _ _ => rfl⟩
  | unary o e | throw e =>
    exact (expr_settles hctx e).bind fun h => .pure ⟨h.sift, fun _ _ _ _ => rfl⟩
  | call f args | array args | logic o args =>
    exact (exprs_settles hctx args).bind fun h => .pure ⟨h.sift, fun _ _ _ _ => rfl⟩
  | callValue f i args =>
    exact (expr_settles hctx f).bind fun hf => (expr_settles hctx i).bind fun hi =>
      (exprs_settles hctx args).bind fun ha => .pure
        ⟨congrArg₂ (· ++ ·) (congrArg₂ (· ++ ·) hf.sift hi.sift) ha.sift, fun _ _ _ _ => rfl⟩
  | new c args =>
    exact (expr_settles hctx c).bind fun hc => (exprs_settles hctx args).bind fun ha =>
      .pure ⟨congrArg₂ (· ++ ·) hc.sift ha.sift, fun _ _ _ _ => rfl⟩
  | struct fs => exact (fields_settles hctx fs).bind fun h => .pure ⟨h, fun _ _ _ _ => rfl⟩
  | ternary c t f =>
    exact (expr_settles hctx c).bind fun hc => (expr_settles hctx t).bind fun ht =>
      (expr_settles hctx f).bind fun hf => .pure
        ⟨congrArg₂ (· ++ ·) (congrArg₂ (· ++ ·) hc.sift ht.sift) hf.sift, fun _ _ _ _ => rfl⟩
  | function d => exact (function_settles hctx d).bind fun h => .pure ⟨h, fun _ _ _ _ => rfl⟩
  | asset kind id =>
    refine .pure ⟨rfl, fun d t d' t' => ?_⟩
    rw [nameKind, nameAsset]
    split <;> rfl
  | _ => exact .pure ⟨rfl, fun _ _ _ _ => rfl⟩
termination_by structural k

theorem exprs_settles {ctx : Context} (hctx : ctx.settings.forLoops = true) (es : List Expr) :
    Settles (exprs ctx es) (CleanExprs ctx es) := by
  cases es with
  | nil => exact .pure ⟨rfl, rfl⟩
  | cons e rest =>
    exact (expr_settles hctx e).bind fun he => (exprs_settles hctx rest).bind fun hrest =>
      .pure ⟨congrArg₂ (· ++ ·) he.sift hrest.sift, rfl⟩
termination_by structural es

theorem fields_settles {ctx : Context} (hctx : ctx.settings.forLoops = true)
    (fs : List (String × Expr)) : Settles (fields ctx fs) fun fs' =>
      Expr.siftFields stepLoops ctx fs' = Expr.siftFields stuckLoop ctx fs := by
  cases fs with
  | nil => exact .pure rfl
  | cons f rest =>
    obtain ⟨n, e⟩ := f
    exact (expr_settles hctx e).bind fun he => (fields_settles hctx rest).bind fun hrest =>
      .pure (congrArg₂ (· ++ ·) he.sift hrest)
termination_by structural fs

theorem holder_settles {ctx : Context} (hctx : ctx.settings.forLoops = true) (i : Holder) :
    Settles (holder ctx i) fun i' => i'.sift stepLoops ctx = i.sift stuckLoop ctx := by
  cases i with
  | expr e => exact (expr_settles hctx e).bind fun h => .pure h.sift
  | scope s => exact .pure rfl
  | object id name => exact .pure rfl
termination_by structural i

theorem parts_settles {ctx : Context} (hctx : ctx.settings.forLoops = true) (v : Var) :
    Settles (parts ctx v) (CleanParts ctx v) := by
  obtain ⟨n, i, indices, l⟩ := v
  exact (holder_settles hctx i).bind fun hi => (exprs_settles hctx indices).bind fun hs =>
    .pure ⟨congrArg₂ (· ++ ·) hi hs.sift, hs.isEmpty⟩
termination_by structural v

/-- A function has its own surroundings and the same settings. -/
theorem function_settles {ctx : Context} (hctx : ctx.settings.forLoops = true) (d : FunctionDecl) :
    Settles (function ctx d) fun d' => d'.sift stepLoops ctx = d.sift stuckLoop ctx := by
  obtain ⟨entry, name, arguments, isConstructor, body⟩ := d
  have hinner : (Context.enter ctx.game ctx.settings entry name).settings.forLoops = true := hctx
  refine (stmts_settles hinner body).bind fun h => .pure ?_
  exact (sift_declareLocals ignoresDeclare_stepLoops _ _).trans (h.loops hinner).sift
termination_by structural d

theorem stmt_settles {ctx : Context} (hctx : ctx.settings.forLoops = true) (s : Stmt) :
    Settles (stmt ctx s) (CleanStmt ctx s) := by
  cases s with
  | assign t v k d =>
    refine (parts_settles hctx t).bind fun ht => (expr_settles hctx v).bind fun hv =>
      (settles_applyRule _ _).bind fun hrule => .pure ⟨?_, cleanParts_step ht rfl, rfl, rfl⟩
    rw [Stmt.sift, Stmt.sift, sift_nameVar, ht.sift, hrule.sift, hv.sift]
  | expr e =>
    exact (expr_settles hctx e).bind fun h => .pure ⟨h.sift, h.stepVar, rfl, rfl⟩
  | throws e => exact (expr_settles hctx e).bind fun h => .pure ⟨h.sift, rfl, rfl, rfl⟩
  | returns e =>
    exact (expr_settles hctx e).bind fun h => (settles_applyRule _ _).bind fun hrule =>
      .pure ⟨hrule.sift.trans h.sift, rfl, rfl, rfl⟩
  | function d => exact (function_settles hctx d).bind fun h => .pure ⟨h, rfl, rfl, rfl⟩
  | cond c t e =>
    exact (expr_settles hctx c).bind fun hc => (stmts_settles hctx t).bind fun ht =>
      (optionBlock_settles hctx e).bind fun he => .pure
        ⟨congrArg₂ (· ++ ·) (congrArg₂ (· ++ ·) hc.sift (ht.loops hctx).sift) he, rfl, rfl, rfl⟩
  | whileLoop c b s =>
    cases c with
    | none =>
      refine (stmts_settles hctx b).bind fun hb => .pure ⟨(hb.loops hctx).sift, rfl, ?_, ?_⟩
      all_goals cases s <;> rfl
    | some c =>
      refine (expr_settles hctx c).bind fun hc => (stmts_settles hctx b).bind fun hb => .pure
        ⟨congrArg₂ (· ++ ·) hc.sift (hb.loops hctx).sift, rfl, ?_, ?_⟩
      · cases s with
        | false => rfl
        | true =>
          rw [Stmt.leftLoop, (hb.loops hctx).lastStepVar]
          rfl
      · cases s <;> rfl
  | forLoop i c s b =>
    -- the init and the step are cleaned as statements outside of any block
    cases i with
    | none =>
      refine (expr_settles hctx c).bind fun hc => (stmt_settles hctx s).bind fun hs =>
        (stmts_settles hctx b).bind fun hb => .pure ⟨?_, rfl, rfl, rfl⟩
      rw [Stmt.sift, Stmt.sift, hc.sift, hs.sift, hs.alone, (hb.loops hctx).sift]
    | some i =>
      refine (stmt_settles hctx i).bind fun hi => (expr_settles hctx c).bind fun hc =>
        (stmt_settles hctx s).bind fun hs => (stmts_settles hctx b).bind fun hb =>
          .pure ⟨?_, rfl, rfl, rfl⟩
      rw [Stmt.sift, Stmt.sift, hi.alone, hi.sift, hc.sift, hs.sift, hs.alone, (hb.loops hctx).sift]
  | doUntil b c =>
    exact (stmts_settles hctx b).bind fun hb => (expr_settles hctx c).bind fun hc =>
      .pure ⟨congrArg₂ (· ++ ·) (hb.loops hctx).sift hc.sift, rfl, rfl, rfl⟩
  | repeatLoop c b =>
    exact (expr_settles hctx c).bind fun hc => (stmts_settles hctx b).bind fun hb =>
      .pure ⟨congrArg₂ (· ++ ·) hc.sift (hb.loops hctx).sift, rfl, rfl, rfl⟩
  | withLoop t b =>
    exact (expr_settles hctx t).bind fun ht => (stmts_settles hctx b).bind fun hb => .pure
      ⟨congrArg₂ (· ++ ·) ((sift_nameTarget _).trans ht.sift) (hb.loops hctx).sift, rfl, rfl, rfl⟩
  | switch v cs =>
    exact (expr_settles hctx v).bind fun hv => (cases_settles hctx _ cs).bind fun hcs =>
      .pure ⟨congrArg₂ (· ++ ·) hv.sift hcs, rfl, rfl, rfl⟩
  | tryCatch b i f =>
    exact (stmts_settles hctx b).bind fun hb => (handler_settles hctx i).bind fun hi =>
      (optionBlock_settles hctx f).bind fun hf => .pure
        ⟨congrArg₂ (· ++ ·) (congrArg₂ (· ++ ·) (hb.loops hctx).sift hi) hf, rfl, rfl, rfl⟩
  | staticInit b =>
    exact (stmts_settles hctx b).bind fun hb => .pure ⟨(hb.loops hctx).sift, rfl, rfl, rfl⟩
  | _ => exact .pure ⟨rfl, rfl, rfl, rfl⟩
termination_by structural s

theorem stmts_settles {ctx : Context} (hctx : ctx.settings.forLoops = true) (b : List Stmt) :
    Settles (stmts ctx b) (CleanStmts ctx b) := by
  cases b with
  | nil => exact .pure ⟨rfl, rfl, rfl⟩
  | cons s rest =>
    exact (stmt_settles hctx s).bind fun hs => (stmts_settles hctx rest).bind fun hrest =>
      .pure (hs.cons hrest)
termination_by structural b

theorem optionBlock_settles {ctx : Context} (hctx : ctx.settings.forLoops = true)
    (b : Option (List Stmt)) : Settles (optionBlock ctx b) fun b' =>
      Stmt.siftOption stepLoops ctx b' = Stmt.siftOption stuckLoop ctx b := by
  cases b with
  | none => exact .pure rfl
  | some b => exact (stmts_settles hctx b).bind fun h => .pure (h.loops hctx).sift
termination_by structural b

theorem handler_settles {ctx : Context} (hctx : ctx.settings.forLoops = true)
    (i : Option Handler) : Settles (handler ctx i) fun i' =>
      Handler.sift stepLoops ctx i' = Handler.sift stuckLoop ctx i := by
  cases i with
  | none => exact .pure rfl
  | some i =>
    obtain ⟨n, b⟩ := i
    exact (stmts_settles hctx b).bind fun h => .pure (h.loops hctx).sift
termination_by structural i

theorem cases_settles {ctx : Context} (hctx : ctx.settings.forLoops = true) (rule : Option Rule)
    (cs : List SwitchCase) : Settles (cases ctx rule cs) fun cs' =>
      SwitchCase.siftList stepLoops ctx cs' = SwitchCase.siftList stuckLoop ctx cs := by
  cases cs with
  | nil => exact .pure rfl
  | cons c rest =>
    obtain ⟨ls, b⟩ := c
    exact (labels_settles hctx rule ls).bind fun hl => (stmts_settles hctx b).bind fun hb =>
      (cases_settles hctx rule rest).bind fun hrest => .pure
        (congrArg₂ (· ++ ·) (congrArg₂ (· ++ ·) hl (hb.loops hctx).sift) hrest)
termination_by structural cs

theorem labels_settles {ctx : Context} (hctx : ctx.settings.forLoops = true) (rule : Option Rule)
    (ls : List (Option Expr)) : Settles (labels ctx rule ls) fun ls' =>
      Expr.siftLabels stepLoops ctx ls' = Expr.siftLabels stuckLoop ctx ls := by
  cases ls with
  | nil => exact .pure rfl
  | cons l rest =>
    cases l with
    | none => exact (labels_settles hctx rule rest).bind fun h => .pure h
    | some e =>
      exact (expr_settles hctx e).bind fun he => (settles_applyRule _ _).bind fun hrule =>
        (labels_settles hctx rule rest).bind fun hrest => .pure
          (congrArg₂ (· ++ ·) (hrule.sift.trans he.sift) hrest)
termination_by structural ls

end

theorem sift_dropExit (ctx : Context) (b : List Stmt) :
    Stmt.siftBlock stepLoops ctx (dropExit b) = Stmt.siftBlock stepLoops ctx b := by
  unfold dropExit
  split
  · rename_i h
    obtain ⟨rest, rfl⟩ := List.getLast?_eq_some_iff.mp h
    rw [List.dropLast_concat, Stmt.siftBlock_append]
    exact (List.append_nil _).symm
  · rfl

end Clean

open Clean in
/-- The loops that cleaning leaves with `continue`s to their steps, anywhere in the tree, are in
order those whose cleaned conditions do not read the variables that the steps change. None is left
exactly where the condition of each reads the step. -/
theorem stepLoops_cleanEntry (game : Game) {settings : Settings} (hfor : settings.forLoops = true)
    (entry : String) (body : List Stmt) :
    Stmt.siftBlock stepLoops (Context.enter game settings entry none)
        (cleanEntry game settings entry body).1 =
      Stmt.siftBlock stuckLoop (Context.enter game settings entry none) body := by
  have hctx : (Context.enter game settings entry none).settings.forLoops = true := hfor
  have hloops := ((stmts_settles hctx body).holds.loops hctx).sift
  have hdeclare := sift_declareLocals ignoresDeclare_stepLoops
    (Context.enter game settings entry none)
    (loopsOf (Context.enter game settings entry none)
      (Cleaner.result (stmts (Context.enter game settings entry none) body)))
  rw [← hloops, ← hdeclare]
  unfold cleanEntry
  dsimp only
  split
  rename_i cleaned enums hcleaned
  have hresult : Cleaner.result (stmts (Context.enter game settings entry none) body) = cleaned :=
    congrArg Prod.fst hcleaned
  rw [hresult]
  split
  · exact sift_dropExit _ _
  · rfl

/-- A loop with `continue`s to its step, as building gives it. -/
def stepLoopExample (condition : String) (step : Stmt) : Stmt :=
  .whileLoop (some (.ofVar (.ofScope condition .own)))
    [.cond (.ofVar (.ofScope "skip" .own)) [.continueJump] none,
      .expr (.ofKind (.call "g" []) .var), step] true

open Clean in
/-- Of `for (; a; a = 1)` and `for (; b; f())` the first is written as a `for` loop. -/
theorem stepLoops_cleanEntry_assignAndCall :
    let assign : Stmt := .assign (.ofScope "a" .own) (.ofKind (.int16 1 false) .int16) .normal false
    let call : Stmt := .expr (.ofKind (.call "f" []) .var)
    let body := [stepLoopExample "a" assign, stepLoopExample "b" call]
    ({} : Settings).forLoops = true ∧
      Stmt.siftBlock stepLoops (Context.enter {} {} "two_loops" none)
        (cleanEntry {} {} "two_loops" body).1 = [some (.ofVar (.ofScope "b" .own))] := by
  intro assign call body
  refine ⟨rfl, (stepLoops_cleanEntry {} rfl "two_loops" body).trans ?_⟩
  rfl

/-- `for (; a; f()) { if (b) continue; g(); }`. -/
def callStep : CodeEntry := .ofInstrs "call_step"
  [⟨0, .push, none, .var, .var, .var ⟨"a", -1, .normal⟩⟩, ⟨8, .conv, none, .var, .bool, .none⟩,
    ⟨12, .bf, none, .int32, .int32, .branch 52⟩,
    ⟨16, .push, none, .var, .var, .var ⟨"b", -1, .normal⟩⟩, ⟨24, .conv, none, .var, .bool, .none⟩,
    ⟨28, .bf, none, .int32, .int32, .branch 8⟩, ⟨32, .b, none, .int32, .int32, .branch 16⟩,
    ⟨36, .call, none, .int32, .int32, .call "g" 0⟩, ⟨44, .popz, none, .var, .var, .none⟩,
    ⟨48, .call, none, .int32, .int32, .call "f" 0⟩, ⟨56, .popz, none, .var, .var, .none⟩,
    ⟨60, .b, none, .int32, .int32, .branch (-60)⟩, ⟨64, .exit, none, .int32, .int32, .none⟩]

open Clean in
/-- The loop stays a `while` loop, and its `continue` leaves the call of `f` out. -/
theorem not_stepLoops_callStep : ∃ g body warnings,
    analyze callStep (Game.handlerLayout {}) = .ok g ∧
      buildStatements g {} {} = .ok (body, warnings) ∧
      Stmt.siftBlock stepLoops (Context.enter {} {} "call_step" none)
        (cleanEntry {} {} "call_step" body).1 ≠ [] := by
  have hrun : ((analyze callStep (Game.handlerLayout {})).toOption.any fun g =>
      (buildStatements g {} {}).toOption.any fun r =>
        !(Stmt.siftBlock stepLoops (Context.enter {} {} "call_step" none)
          (cleanEntry {} {} "call_step" r.1).1).isEmpty) = true := by decide +kernel
  obtain ⟨g, hg, hrun⟩ := ok_of_any hrun
  obtain ⟨⟨body, warnings⟩, hs, hrun⟩ := ok_of_any hrun
  exact ⟨g, body, warnings, hg, hs, by simpa using hrun⟩

end GmlLift
