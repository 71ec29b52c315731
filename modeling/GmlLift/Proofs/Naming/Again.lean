import GmlLift.Naming.Resolve
import Mathlib.Data.List.Basic

/-! # Applying a rule to its own result

Applied to its own result, a rule should do nothing more. What can go wrong is one thing: in a
union, another member than the one that gave the result takes it and changes it. `Shifts` says that
this happens somewhere in the rule; a rule does nothing more exactly where it does not happen. It
takes a union of two members that both go into arrays or calls, and an expression with items:
numbers, names and symbols never shift. -/
namespace GmlLift

/-- Whether rules may replace parts of the expression one by one. -/
def Expr.hasItems (e : Expr) : Bool := match e.kind with
  | .array _ | .call .. => true
  | _ => false

namespace Rule

/-- Whether the rule gives names to numbers and looks at nothing else. -/
def namesNumbers : Rule → Bool
  | .enumeration .. | .constants _ | .asset _ | .boolean | .instanceId | .color => true
  | .union _ | .intersect _ | .accepts .. | .refuses .. | .items _ | .arguments _ => false

theorem resolve_of_namesNumbers {rule : Rule} (h : rule.namesNumbers = true) (game : Game)
    (e : Expr) : resolve game rule e = resolveLiteral? game rule e := by
  cases rule <;> first | cases h; done | rw [resolve]

/-- Induction over the members of a rule. -/
theorem byMembers {P : Rule → Prop}
    (number : ∀ rule : Rule, rule.namesNumbers = true → P rule)
    (test : ∀ rule : Rule, rule.isTest = true → P rule)
    (union : ∀ members, (∀ m ∈ members, P m) → P (.union members))
    (intersect : ∀ members, (∀ m ∈ members, P m) → P (.intersect members))
    (items : ∀ element, P element → P (.items element))
    (arguments : ∀ rules, (∀ m, some m ∈ rules → P m) → P (.arguments rules)) (rule : Rule) :
    P rule := by
  refine @Rule.rec P (fun members => ∀ m ∈ members, P m) (fun rules => ∀ m, some m ∈ rules → P m)
    (fun rule => ∀ m, rule = some m → P m) (fun _ _ => number _ rfl) (fun _ => number _ rfl)
    (fun _ => number _ rfl) (number _ rfl) (number _ rfl) (number _ rfl) union intersect
    (fun _ _ => test _ rfl) (fun _ _ => test _ rfl) items arguments ?_ ?_ ?_ ?_ ?_ ?_ rule
  · simp
  · intro m rest hm hrest
    exact List.forall_mem_cons.mpr ⟨hm, hrest⟩
  · simp
  · intro rule rest hrule hrest m hmem
    rcases List.mem_cons.mp hmem with h | h
    · exact hrule m h.symm
    · exact hrest m h
  · simp
  · intro m hm m' h
    cases h
    exact hm

mutual

/-- Whether the rule may replace parts of arrays or calls. -/
def goesInside : Rule → Bool
  | .union members | .intersect members => goInside members
  | .items _ | .arguments _ => true
  | .enumeration .. | .constants _ | .asset _ | .boolean | .instanceId | .color | .accepts ..
  | .refuses .. => false
termination_by structural x => x

def goInside : List Rule → Bool
  | [] => false
  | m :: rest => m.goesInside || goInside rest
termination_by structural x => x

end

mutual

/-- No union has two members that may replace parts. -/
def separate : Rule → Bool
  | .union members =>
    decide (members.Pairwise fun m m' => (m.goesInside && m'.goesInside) = false)
      && allSeparate members
  | .intersect members => allSeparate members
  | .items element => separate element
  | .arguments rules => optionsSeparate rules
  | .enumeration .. | .constants _ | .asset _ | .boolean | .instanceId | .color | .accepts ..
  | .refuses .. => true
termination_by structural x => x

def allSeparate : List Rule → Bool
  | [] => true
  | m :: rest => separate m && allSeparate rest
termination_by structural x => x

def optionsSeparate : List (Option Rule) → Bool
  | [] => true
  | none :: rest => optionsSeparate rest
  | some m :: rest => separate m && optionsSeparate rest
termination_by structural x => x

end

theorem goInside_iff {members : List Rule} :
    goInside members = true ↔ ∃ m ∈ members, m.goesInside = true := by
  induction members with
  | nil => simp [goInside]
  | cons m rest ih => simp [goInside, ih]

theorem allSeparate_iff {members : List Rule} :
    allSeparate members = true ↔ ∀ m ∈ members, m.separate = true := by
  induction members with
  | nil => simp [allSeparate]
  | cons m rest ih => simp [allSeparate, ih]

theorem optionsSeparate_iff {rules : List (Option Rule)} :
    optionsSeparate rules = true ↔ ∀ m, some m ∈ rules → m.separate = true := by
  induction rules with
  | nil => simp [optionsSeparate]
  | cons rule rest ih => cases rule <;> simp [optionsSeparate, ih]

/-! ## What each sort of rule gives -/

/-- Which member of a union is the first to apply. -/
def firstAt? (game : Game) (members : List Rule) (e : Expr) : Option Nat :=
  members.findIdx? fun m => (resolve game m e).isSome

/-- The member that the result of an intersection comes from. -/
def lastMaker? (members : List Rule) : Option Rule :=
  (members.filter fun m => !m.isTest).getLast?

/-- The rule for an argument. -/
def ruleAt? (rules : List (Option Rule)) (i : Nat) : Option Rule := rules[i]?.join

variable {game : Game}

theorem resolveFirst_eq (members : List Rule) (e : Expr) :
    resolveFirst game members e =
      (firstAt? game members e).bind fun i => members[i]?.bind fun m => resolve game m e := by
  induction members with
  | nil => rfl
  | cons m rest ih =>
    rw [resolveFirst, firstAt?, List.findIdx?_cons]
    cases hm : resolve game m e with
    | some r => simp [hm]
    | none =>
      simp only [ih, firstAt?, Option.isSome_none, Bool.false_eq_true, ↓reduceIte]
      cases rest.findIdx? fun m => (resolve game m e).isSome <;> rfl

theorem exists_first {members : List Rule} {e r : Expr}
    (h : resolveFirst game members e = some r) :
    ∃ i m, firstAt? game members e = some i ∧ members[i]? = some m ∧ resolve game m e = some r := by
  rw [resolveFirst_eq] at h
  obtain ⟨i, hi, h⟩ := Option.bind_eq_some_iff.mp h
  obtain ⟨m, hm, h⟩ := Option.bind_eq_some_iff.mp h
  exact ⟨i, m, hi, hm, h⟩

theorem resolveFirst_of_firstAt? {members : List Rule} {e : Expr} {i : Nat} {m : Rule}
    (hi : firstAt? game members e = some i) (hm : members[i]? = some m) :
    resolveFirst game members e = resolve game m e := by
  rw [resolveFirst_eq, hi]
  simp [hm]

/-- Every member applies, and the last that is no test gives the result. -/
theorem resolveEach_eq_some_iff {members : List Rule} {e r : Expr} {result : Option Expr} :
    resolveEach game members e result = some r ↔
      (∀ m ∈ members, (resolve game m e).isSome = true) ∧
        ((lastMaker? members).elim result fun m => resolve game m e) = some r := by
  induction members generalizing result with
  | nil => simp [resolveEach, lastMaker?]
  | cons m rest ih =>
    rw [resolveEach]
    cases hm : resolve game m e with
    | none => simp [hm]
    | some r' =>
      have hlast : (lastMaker? (m :: rest)).elim result (fun m => resolve game m e) =
          (lastMaker? rest).elim (if m.isTest then result else some r')
            fun m => resolve game m e := by
        cases ht : m.isTest with
        | true => simp [lastMaker?, ht]
        | false =>
          simp only [lastMaker?, ht, Bool.not_false, List.filter_cons_of_pos, List.getLast?_cons]
          cases (rest.filter fun m => !m.isTest).getLast? <;> simp [hm]
      simp [ih, hlast, hm]

/-- The items, replaced where there is a replacement. -/
def replaced (f : Nat → Expr → Option Expr) (xs : List Expr) : List Expr :=
  xs.mapIdx fun i x => (f i x).getD x

/-- Some item has a replacement. -/
def Touched (f : Nat → Expr → Option Expr) (xs : List Expr) : Prop :=
  ∃ i x, xs[i]? = some x ∧ (f i x).isSome = true

theorem replaceSome?_eq_some_iff {f : Expr → Option Expr} {xs ys : List Expr} :
    replaceSome? f xs = some ys ↔ Touched (fun _ => f) xs ∧ replaced (fun _ => f) xs = ys := by
  have hany : (xs.any fun x => (f x).isSome) = true ↔ Touched (fun _ => f) xs := by
    simp only [List.any_eq_true, Touched, List.mem_iff_getElem?]
    exact ⟨fun ⟨x, ⟨i, hi⟩, hx⟩ => ⟨i, x, hi, hx⟩, fun ⟨i, x, hi, hx⟩ => ⟨x, ⟨i, hi⟩, hx⟩⟩
  have hmap : replaced (fun _ => f) xs = xs.map fun x => (f x).getD x := by
    refine List.ext_getElem? fun i => ?_
    simp [replaced]
  rw [replaceSome?, hmap]
  by_cases h : (xs.any fun x => (f x).isSome) = true
  · simp [h, hany.mp h]
  · simp [h, mt hany.mpr h]

theorem touched_cons {f : Nat → Expr → Option Expr} {x : Expr} {xs : List Expr} :
    Touched f (x :: xs) ↔ (f 0 x).isSome = true ∨ Touched (fun i => f (i + 1)) xs := by
  constructor
  · rintro ⟨i, y, hy, h⟩
    cases i with
    | zero =>
      cases hy
      exact .inl h
    | succ i => exact .inr ⟨i, y, hy, h⟩
  · rintro (h | ⟨i, y, hy, h⟩)
    · exact ⟨0, x, rfl, h⟩
    · exact ⟨i + 1, y, hy, h⟩

/-- What the rules by position make of an argument. -/
def resolveAt (game : Game) (rules : List (Option Rule)) (i : Nat) (x : Expr) : Option Expr :=
  (ruleAt? rules i).bind fun m => resolve game m x

theorem resolveArgs_eq (rules : List (Option Rule)) (args : List Expr) :
    ((resolveArgs game rules args).1 = true ↔ Touched (resolveAt game rules) args) ∧
      (resolveArgs game rules args).2 = replaced (resolveAt game rules) args := by
  induction rules generalizing args with
  | nil =>
    have hnone : resolveAt game [] = fun _ _ => none := rfl
    simp [resolveArgs, hnone, Touched, replaced, List.mapIdx_eq_zipIdx_map]
  | cons rule rest ih =>
    cases args with
    | nil => cases rule <;> simp [resolveArgs, Touched, replaced]
    | cons e args =>
      obtain ⟨htouched, hreplaced⟩ := ih args
      have hnext (i : Nat) : resolveAt game (rule :: rest) (i + 1) = resolveAt game rest i := rfl
      have htail : replaced (resolveAt game (rule :: rest)) (e :: args) =
          (resolveAt game (rule :: rest) 0 e).getD e :: replaced (resolveAt game rest) args := by
        simp [replaced, List.mapIdx_cons, hnext]
      rw [touched_cons, htail, ← hreplaced]
      simp only [hnext, ← htouched]
      cases rule with
      | none => simp [resolveArgs, resolveAt, ruleAt?]
      | some m =>
        have hhere : resolveAt game (some m :: rest) 0 e = resolve game m e := rfl
        rw [resolveArgs, hhere]
        cases resolve game m e <;> simp

theorem resolve_items_eq_some_iff {element : Rule} {e r : Expr} :
    resolve game (.items element) e = some r ↔
      ∃ xs, e.kind = .array xs ∧ Touched (fun _ => resolve game element) xs ∧
        r = .ofKind (.array (replaced (fun _ => resolve game element) xs)) e.stackType := by
  rw [resolve]
  split
  · rename_i xs hk
    simp only [Option.map_eq_some_iff, replaceSome?_eq_some_iff, hk, ExprKind.array.injEq]
    grind
  · rename_i hk
    simp only [reduceCtorEq, false_iff]
    rintro ⟨xs, hxs, -⟩
    exact hk xs hxs

theorem resolve_arguments_eq_some_iff {rules : List (Option Rule)} {e r : Expr} :
    resolve game (.arguments rules) e = some r ↔
      ∃ f args, e.kind = .call f args ∧ Touched (resolveAt game rules) args ∧
        r = .ofKind (.call f (replaced (resolveAt game rules) args)) e.stackType := by
  rw [resolve]
  split
  · rename_i f args hk
    obtain ⟨htouched, hreplaced⟩ := @resolveArgs_eq game rules args
    simp only [hk, ExprKind.call.injEq]
    grind
  · rename_i hk
    simp only [reduceCtorEq, false_iff]
    rintro ⟨f, args, hxs, -⟩
    exact hk f args hxs

/-! ## Results -/

/-- How the result of a rule is related to the expression. -/
inductive Outcome (m : Rule) (e r : Expr) : Prop where
  | same (h : r = e)
  | named (n : Int) (s : Symbol) (hn : e.intValue? = some n) (hr : r.kind = .symbol s)
  | inside (hm : m.goesInside = true) (he : e.hasItems = true) (hr : r.hasItems = true)

theorem Outcome.mono {m m' : Rule} {e r : Expr} (h : m.goesInside = true → m'.goesInside = true) :
    Outcome m e r → Outcome m' e r
  | same h' => same h'
  | named n s hn hr => named n s hn hr
  | inside hm he hr => inside (h hm) he hr

theorem resolve_of_isTest {m : Rule} {e r : Expr} (hm : m.isTest = true)
    (h : resolve game m e = some r) : r = e := by
  cases m <;> first | cases hm; done | (rw [resolve] at h; split at h <;> cases h; rfl)

theorem mem_of_ruleAt? {rules : List (Option Rule)} {i : Nat} {m : Rule}
    (h : ruleAt? rules i = some m) : some m ∈ rules :=
  List.mem_of_getElem? (Option.join_eq_some_iff.mp h)

theorem mem_of_lastMaker? {members : List Rule} {m : Rule} (h : lastMaker? members = some m) :
    m ∈ members :=
  List.mem_of_mem_filter (List.mem_of_getLast? h)

/-- A rule gives the expression itself, a name for a number, or an array or call with other
items. -/
theorem outcome_of_resolve {m : Rule} {e r : Expr} (h : resolve game m e = some r) :
    Outcome m e r := by
  induction m using byMembers generalizing e r with
  | number m hm =>
    rw [resolve_of_namesNumbers hm] at h
    obtain ⟨n, hn, h⟩ := Option.bind_eq_some_iff.mp h
    obtain ⟨s, -, h⟩ := Option.bind_eq_some_iff.mp h
    cases h
    exact .named n s hn rfl
  | test m hm => exact .same (resolve_of_isTest hm h)
  | union members ih =>
    rw [resolve] at h
    obtain ⟨i, m, -, hm, h⟩ := exists_first h
    have hmem := List.mem_of_getElem? hm
    exact (ih m hmem h).mono fun hin => by rw [goesInside, goInside_iff]; exact ⟨m, hmem, hin⟩
  | intersect members ih =>
    rw [resolve, resolveEach_eq_some_iff] at h
    obtain ⟨-, h⟩ := h
    cases hlast : lastMaker? members with
    | none => rw [hlast] at h; cases h
    | some m =>
      rw [hlast] at h
      have hmem := mem_of_lastMaker? hlast
      exact (ih m hmem h).mono fun hin => by rw [goesInside, goInside_iff]; exact ⟨m, hmem, hin⟩
  | items element _ =>
    obtain ⟨xs, hk, -, rfl⟩ := resolve_items_eq_some_iff.mp h
    exact .inside rfl (by rw [Expr.hasItems, hk]) rfl
  | arguments rules _ =>
    obtain ⟨f, args, hk, -, rfl⟩ := resolve_arguments_eq_some_iff.mp h
    exact .inside rfl (by rw [Expr.hasItems, hk]) rfl

theorem hasItems_of_intValue? {e : Expr} {n : Int} (h : e.intValue? = some n) :
    e.hasItems = false := by
  obtain ⟨k, d, t⟩ := e
  cases k <;> first | rfl | cases h

/-- An expression that is neither a number nor made of items is let through as it is. -/
theorem eq_of_resolve_of_fixed {m : Rule} {e r : Expr} (hn : e.intValue? = none)
    (hi : e.hasItems = false) (h : resolve game m e = some r) : r = e := by
  cases outcome_of_resolve h with
  | same h => exact h
  | named n s hn' _ => rw [hn] at hn'; cases hn'
  | inside _ he _ => rw [hi] at he; cases he

theorem eq_of_resolve_of_kind {m : Rule} {e r : Expr} {s : Symbol} (hk : e.kind = .symbol s)
    (h : resolve game m e = some r) : r = e := by
  refine eq_of_resolve_of_fixed ?_ ?_ h
  · rw [Expr.intValue?, hk]
  · rw [Expr.hasItems, hk]

/-! ## Shifts -/

/-- Applied to the result, another member of a union makes something else of it; or this happens to
the member that gives the result, to an item or to an argument. -/
inductive Shifts (game : Game) : Rule → Expr → Prop where
  | taken {members : List Rule} {e r r' : Expr} (hr : resolveFirst game members e = some r)
    (hother : firstAt? game members r ≠ firstAt? game members e)
    (hr' : resolveFirst game members r = some r') (hne : r' ≠ r) : Shifts game (.union members) e
  | first {members : List Rule} {i : Nat} {m : Rule} {e r : Expr}
    (hi : firstAt? game members e = some i) (hm : members[i]? = some m)
    (hr : resolve game m e = some r) (hsame : firstAt? game members r = some i)
    (h : Shifts game m e) : Shifts game (.union members) e
  | last {members : List Rule} {m : Rule} {e r : Expr}
    (hr : resolve game (.intersect members) e = some r) (hm : lastMaker? members = some m)
    (hall : ∀ m ∈ members, (resolve game m r).isSome = true) (h : Shifts game m e) :
    Shifts game (.intersect members) e
  | item {element : Rule} {e x : Expr} {xs : List Expr} (hk : e.kind = .array xs) (hx : x ∈ xs)
    (h : Shifts game element x) : Shifts game (.items element) e
  | argument {rules : List (Option Rule)} {i : Nat} {m : Rule} {e x : Expr} {f : String}
    {args : List Expr} (hk : e.kind = .call f args) (hx : args[i]? = some x)
    (hm : ruleAt? rules i = some m) (h : Shifts game m x) : Shifts game (.arguments rules) e

/-- A rule that shifts on an expression applies to it. -/
theorem Shifts.applies {m : Rule} {e : Expr} (h : Shifts game m e) :
    (resolve game m e).isSome = true := by
  induction h with
  | taken hr => rw [resolve, hr]; rfl
  | first hi hm hr => rw [resolve, resolveFirst_of_firstAt? hi hm, hr]; rfl
  | last hr => rw [hr]; rfl
  | item hk hx _ ih =>
    obtain ⟨i, hi⟩ := List.mem_iff_getElem?.mp hx
    exact Option.isSome_iff_exists.mpr
      ⟨_, resolve_items_eq_some_iff.mpr ⟨_, hk, ⟨i, _, hi, ih⟩, rfl⟩⟩
  | argument hk hx hm _ ih =>
    refine Option.isSome_iff_exists.mpr
      ⟨_, resolve_arguments_eq_some_iff.mpr ⟨_, _, hk, ⟨_, _, hx, ?_⟩, rfl⟩⟩
    rw [resolveAt, hm]
    exact ih

/-! ## The second application -/

theorem getElem?_replaced (f : Nat → Expr → Option Expr) (xs : List Expr) (i : Nat) :
    (replaced f xs)[i]? = xs[i]?.map fun x => (f i x).getD x := by
  simp [replaced]

theorem replaced_eq_self_iff {f : Nat → Expr → Option Expr} {xs : List Expr} :
    replaced f xs = xs ↔ ∀ i x, xs[i]? = some x → (f i x).getD x = x := by
  rw [List.ext_getElem?_iff]
  refine forall_congr' fun i => ?_
  rw [getElem?_replaced]
  cases xs[i]? <;> simp

theorem replaced_of_not_touched {f : Nat → Expr → Option Expr} {xs : List Expr}
    (h : ¬ Touched f xs) : replaced f xs = xs := by
  refine replaced_eq_self_iff.mpr fun i x hx => ?_
  have hf : f i x = none := Option.not_isSome_iff_eq_none.mp fun hf => h ⟨i, x, hx, hf⟩
  rw [hf, Option.getD_none]

/-- Replacing twice is replacing once if each replacement is replaced by itself or not at all. -/
theorem replaced_replaced_iff {f : Nat → Expr → Option Expr} {xs : List Expr} :
    replaced f (replaced f xs) = replaced f xs ↔
      ∀ i x y, xs[i]? = some x → f i x = some y → (f i y).getD y = y := by
  rw [replaced_eq_self_iff]
  constructor
  · intro h i x y hx hy
    refine h i y ?_
    rw [getElem?_replaced, hx, Option.map_some, hy, Option.getD_some]
  · intro h i z hz
    rw [getElem?_replaced] at hz
    obtain ⟨x, hx, rfl⟩ := Option.map_eq_some_iff.mp hz
    cases hy : f i x with
    | none => rw [Option.getD_none, hy, Option.getD_none]
    | some y => exact h i x y hx hy

theorem rests_items_iff {element : Rule} {ys : List Expr} {t : DataType} :
    (resolve game (.items element) (.ofKind (.array ys) t)).getD (.ofKind (.array ys) t) =
        .ofKind (.array ys) t ↔
      replaced (fun _ => resolve game element) ys = ys := by
  by_cases ht : Touched (fun _ => resolve game element) ys
  · have hk : (Expr.ofKind (.array ys) t).kind = .array ys := rfl
    rw [resolve_items_eq_some_iff.mpr ⟨ys, hk, ht, rfl⟩]
    simp [Expr.ofKind, Expr.stackType]
  · have hr : resolve game (.items element) (.ofKind (.array ys) t) = none := by
      refine Option.eq_none_iff_forall_ne_some.mpr fun r hr => ?_
      obtain ⟨xs, hk, htouched, -⟩ := resolve_items_eq_some_iff.mp hr
      cases hk
      exact ht htouched
    simp [hr, replaced_of_not_touched ht]

theorem rests_arguments_iff {rules : List (Option Rule)} {f : String} {ys : List Expr}
    {t : DataType} :
    (resolve game (.arguments rules) (.ofKind (.call f ys) t)).getD (.ofKind (.call f ys) t) =
        .ofKind (.call f ys) t ↔
      replaced (resolveAt game rules) ys = ys := by
  by_cases ht : Touched (resolveAt game rules) ys
  · have hk : (Expr.ofKind (.call f ys) t).kind = .call f ys := rfl
    rw [resolve_arguments_eq_some_iff.mpr ⟨f, ys, hk, ht, rfl⟩]
    simp [Expr.ofKind, Expr.stackType]
  · have hr : resolve game (.arguments rules) (.ofKind (.call f ys) t) = none := by
      refine Option.eq_none_iff_forall_ne_some.mpr fun r hr => ?_
      obtain ⟨g, xs, hk, htouched, -⟩ := resolve_arguments_eq_some_iff.mp hr
      cases hk
      exact ht htouched
    simp [hr, replaced_of_not_touched ht]

/-- Applied to a result of its own, the rule does nothing more unless it shifts. -/
def RestsUnlessShifts (game : Game) (rule : Rule) : Prop :=
  ∀ ⦃e r : Expr⦄, resolve game rule e = some r →
    ((resolve game rule r).getD r = r ↔ ¬ Shifts game rule e)

/-- What a union gives rests if the member that made it leaves it alone, or another takes it as it
is. -/
theorem rests_union {members : List Rule} (ih : ∀ m ∈ members, RestsUnlessShifts game m) :
    RestsUnlessShifts game (.union members) := by
  intro e r h
  rw [resolve] at h ⊢
  obtain ⟨i, m, hi, hm, hmr⟩ := exists_first h
  have ihm := ih m (List.mem_of_getElem? hm) hmr
  rw [← not_iff_not, not_not]
  constructor
  · intro hne
    obtain ⟨r', hr'⟩ : ∃ r', resolveFirst game members r = some r' :=
      Option.ne_none_iff_exists'.mp fun hnone => hne (by rw [hnone, Option.getD_none])
    rw [hr', Option.getD_some] at hne
    by_cases hsame : firstAt? game members r = some i
    · rw [resolveFirst_of_firstAt? hsame hm] at hr'
      have hshift : Shifts game m e := by
        refine Classical.not_not.mp (mt ihm.mpr ?_)
        rw [hr', Option.getD_some]
        exact hne
      exact .first hi hm hmr hsame hshift
    · exact .taken h (hi ▸ hsame) hr' hne
  · intro hshift
    cases hshift with
    | taken hr hother hr' hne =>
      cases h.symm.trans hr
      rw [hr', Option.getD_some]
      exact hne
    | first hi' hm' hr hsame hshift =>
      cases hi.symm.trans hi'
      cases hm.symm.trans hm'
      cases hmr.symm.trans hr
      rw [resolveFirst_of_firstAt? hsame hm]
      exact fun hrests => ihm.mp hrests hshift

theorem rests_intersect {members : List Rule} (ih : ∀ m ∈ members, RestsUnlessShifts game m) :
    RestsUnlessShifts game (.intersect members) := by
  intro e r h
  obtain ⟨m, hm, hmr⟩ : ∃ m, lastMaker? members = some m ∧ resolve game m e = some r := by
    rw [resolve, resolveEach_eq_some_iff] at h
    cases hm : lastMaker? members with
    | none => rw [hm] at h; cases h.2
    | some m => rw [hm] at h; exact ⟨m, rfl, h.2⟩
  have ihm := ih m (mem_of_lastMaker? hm) hmr
  have hsecond {r' : Expr} : resolve game (.intersect members) r = some r' ↔
      (∀ m ∈ members, (resolve game m r).isSome = true) ∧ resolve game m r = some r' := by
    rw [resolve, resolveEach_eq_some_iff, hm]
    rfl
  rw [← not_iff_not, not_not]
  constructor
  · intro hne
    obtain ⟨r', hr'⟩ : ∃ r', resolve game (.intersect members) r = some r' :=
      Option.ne_none_iff_exists'.mp fun hnone => hne (by rw [hnone, Option.getD_none])
    rw [hr', Option.getD_some] at hne
    obtain ⟨hall, hr'⟩ := hsecond.mp hr'
    refine .last h hm hall (Classical.not_not.mp (mt ihm.mpr ?_))
    rw [hr', Option.getD_some]
    exact hne
  · intro hshift
    cases hshift with
    | last hr hm' hall hshift =>
      cases hm.symm.trans hm'
      cases h.symm.trans hr
      obtain ⟨r', hr'⟩ := Option.isSome_iff_exists.mp (hall _ (mem_of_lastMaker? hm))
      have hne := mt ihm.mp (not_not_intro hshift)
      rw [hr', Option.getD_some] at hne
      rw [hsecond.mpr ⟨hall, hr'⟩, Option.getD_some]
      exact hne

/-- Applied to its own result, a rule does nothing more exactly if it does not shift. -/
theorem rests (game : Game) (rule : Rule) : RestsUnlessShifts game rule := by
  induction rule using byMembers with
  | number rule hrule =>
    intro e r h
    have hnone : resolve game rule r = none := by
      rw [resolve_of_namesNumbers hrule] at h ⊢
      obtain ⟨n, -, h⟩ := Option.bind_eq_some_iff.mp h
      obtain ⟨s, -, h⟩ := Option.bind_eq_some_iff.mp h
      cases h
      rfl
    refine iff_of_true (by rw [hnone, Option.getD_none]) fun hshift => ?_
    cases hshift <;> cases hrule
  | test rule hrule =>
    intro e r h
    cases resolve_of_isTest hrule h
    refine iff_of_true (by rw [h, Option.getD_some]) fun hshift => ?_
    cases hshift <;> cases hrule
  | union members ih => exact rests_union ih
  | intersect members ih => exact rests_intersect ih
  | items element ih =>
    intro e r h
    obtain ⟨xs, hk, -, rfl⟩ := resolve_items_eq_some_iff.mp h
    rw [rests_items_iff, replaced_replaced_iff]
    constructor
    · intro hrests hshift
      cases hshift with
      | item hk' hx hshift =>
        cases hk.symm.trans hk'
        obtain ⟨i, hi⟩ := List.mem_iff_getElem?.mp hx
        obtain ⟨y, hy⟩ := Option.isSome_iff_exists.mp hshift.applies
        exact (ih hy).mp (hrests i _ y hi hy) hshift
    · intro hshift i x y hx hy
      exact (ih hy).mpr fun hs => hshift (.item hk (List.mem_of_getElem? hx) hs)
  | arguments rules ih =>
    intro e r h
    obtain ⟨f, xs, hk, -, rfl⟩ := resolve_arguments_eq_some_iff.mp h
    rw [rests_arguments_iff, replaced_replaced_iff]
    constructor
    · intro hrests hshift
      cases hshift with
      | argument hk' hx hm hshift =>
        cases hk.symm.trans hk'
        obtain ⟨y, hy⟩ := Option.isSome_iff_exists.mp hshift.applies
        have hrests := hrests _ _ y hx (by rw [resolveAt, hm]; exact hy)
        rw [resolveAt, hm] at hrests
        exact (ih _ (mem_of_ruleAt? hm) hy).mp hrests hshift
    · intro hshift i x y hx hy
      obtain ⟨m, hm, hy⟩ := Option.bind_eq_some_iff.mp hy
      rw [resolveAt, hm]
      exact (ih m (mem_of_ruleAt? hm) hy).mpr fun hs => hshift (.argument hk hx hm hs)

/-! ## Rules and expressions that never shift -/

/-- What is neither an array nor a call is taken by no other member. -/
theorem not_shifts_of_no_items {rule : Rule} {e : Expr} (he : e.hasItems = false) :
    ¬ Shifts game rule e := by
  intro h
  induction h with
  | @taken members e r r' hr hother hr' hne =>
    have hunion : resolve game (.union members) e = some r := by rw [resolve, hr]
    have hunion' : resolve game (.union members) r = some r' := by rw [resolve, hr']
    cases outcome_of_resolve hunion with
    | same h => exact hother (by rw [h])
    | named n s _ hk => exact hne (eq_of_resolve_of_kind hk hunion')
    | inside _ he' _ => rw [he] at he'; cases he'
  | first _ _ _ _ _ ih => exact ih he
  | last _ _ _ _ ih => exact ih he
  | item hk => rw [Expr.hasItems, hk] at he; cases he
  | argument hk => rw [Expr.hasItems, hk] at he; cases he

/-- A union needs two members that go into arrays or calls to shift. -/
theorem not_shifts_of_separate {rule : Rule} {e : Expr} (hrule : rule.separate = true) :
    ¬ Shifts game rule e := by
  intro h
  induction h with
  | @taken members e r r' hr hother hr' hne =>
    obtain ⟨i, m, hi, hm, hmr⟩ := exists_first hr
    obtain ⟨j, m', hj, hm', hmr'⟩ := exists_first hr'
    cases outcome_of_resolve hmr with
    | same h => exact hother (by rw [h])
    | named n s _ hk => exact hne (eq_of_resolve_of_kind hk hmr')
    | inside hin _ hitems =>
      cases outcome_of_resolve hmr' with
      | same h => exact hne h
      | named n s hn _ => rw [hasItems_of_intValue? hn] at hitems; cases hitems
      | inside hin' _ _ =>
        rw [separate, Bool.and_eq_true, decide_eq_true_eq] at hrule
        have hij : i ≠ j := fun h => hother (by rw [hi, hj, h])
        obtain ⟨hi', rfl⟩ := List.getElem?_eq_some_iff.mp hm
        obtain ⟨hj', rfl⟩ := List.getElem?_eq_some_iff.mp hm'
        have hpair := List.pairwise_iff_getElem.mp hrule.1
        rcases Nat.lt_or_gt_of_ne hij with hlt | hlt
        · exact absurd (hpair i j hi' hj' hlt) (by simp [hin, hin'])
        · exact absurd (hpair j i hj' hi' hlt) (by simp [hin, hin'])
  | first _ hm _ _ _ ih =>
    rw [separate, Bool.and_eq_true] at hrule
    exact ih (allSeparate_iff.mp hrule.2 _ (List.mem_of_getElem? hm))
  | last _ hm _ _ ih =>
    rw [separate] at hrule
    exact ih (allSeparate_iff.mp hrule _ (mem_of_lastMaker? hm))
  | item _ _ _ ih =>
    rw [separate] at hrule
    exact ih hrule
  | argument _ _ hm _ ih =>
    rw [separate] at hrule
    exact ih (optionsSeparate_iff.mp hrule _ (mem_of_ruleAt? hm))

/-- Applied to its own result, a rule gives nothing or the same, exactly if it does not shift; it
never does without a union of two members that go into arrays or calls, nor on an expression that is
neither. A symbol stays as it is. -/
theorem resolve_again (game : Game) (rule : Rule) {e r : Expr} (h : resolve game rule e = some r) :
    ((resolve game rule r = none ∨ resolve game rule r = some r) ↔ ¬ Shifts game rule e) ∧
      (rule.separate = true ∨ e.hasItems = false → ¬ Shifts game rule e) ∧
        ∀ s, e.kind = .symbol s → r = e := by
  refine ⟨?_, ?_, fun s hk => eq_of_resolve_of_kind hk h⟩
  · rw [← rests game rule h]
    cases resolve game rule r <;> simp
  · rintro (hrule | he)
    · exact not_shifts_of_separate hrule
    · exact not_shifts_of_no_items he

/-! A union of two rules for arrays: the first gives `[true, 2]`, of which the second makes
`[true, two]`. A rule for arrays with a union inside names both numbers at once. -/

/-- An array with items of any type. -/
def arrayOf (items : List ExprKind) : Expr :=
  .ofKind (.array (items.map fun k => .ofKind k .var)) .var

/-- Booleans in an array, or else the constant two in an array. -/
def booleansOrTwos : Rule := .union [.items .boolean, .items (.constants (.ofList [(2, "two")]))]

/-- In each place of an array a boolean, or else the constant two. -/
def booleanOrTwoEach : Rule := .items (.union [.boolean, .constants (.ofList [(2, "two")])])

theorem resolve_again_booleanOrTwoEach :
    ∃ r, resolve {} booleanOrTwoEach (arrayOf [.int16 1 false, .int16 2 false]) = some r ∧
      r = arrayOf [.symbol (.constant "true"), .symbol (.constant "two")] ∧
      (resolve {} booleanOrTwoEach r = none ∨ resolve {} booleanOrTwoEach r = some r) := by
  have h : resolve {} booleanOrTwoEach (arrayOf [.int16 1 false, .int16 2 false]) =
      some (arrayOf [.symbol (.constant "true"), .symbol (.constant "two")]) := rfl
  have hagain := resolve_again {} booleanOrTwoEach h
  exact ⟨_, h, rfl, hagain.1.mpr (hagain.2.1 (.inl (by decide)))⟩

theorem not_resolve_again_booleansOrTwos :
    ¬ ∀ (game : Game) (rule : Rule) (e r : Expr), resolve game rule e = some r →
      resolve game rule r = none ∨ resolve game rule r = some r := by
  intro h
  rcases h {} booleansOrTwos (arrayOf [.int16 1 false, .int16 2 false]) _ rfl with hnone | hsame
  · cases hnone
  · cases hsame

end Rule

end GmlLift
