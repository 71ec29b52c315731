import Mathlib.Data.List.Forall2
import GmlLift.Naming.Resolve
import GmlLift.Proofs.Clean.EnumValues

/-! # What a rule makes of an expression

A rule keeps every enum value of the expression that it is applied to and brings in only values that
one of its enumerations names. It puts them outside the bodies of functions. -/
namespace GmlLift

namespace Rule

mutual

/-- The enumerations in a rule, with their names. -/
def enumerations : Rule → List (String × Table Int String)
  | .enumeration name values => [(name, values)]
  | .union members | .intersect members => enumerationsIn members
  | .items element => enumerations element
  | .arguments rules => enumerationsInOptions rules
  | .constants _ | .asset _ | .boolean | .instanceId | .color | .accepts .. | .refuses .. => []
termination_by structural x => x

def enumerationsIn : List Rule → List (String × Table Int String)
  | [] => []
  | m :: rest => enumerations m ++ enumerationsIn rest
termination_by structural x => x

def enumerationsInOptions : List (Option Rule) → List (String × Table Int String)
  | [] => []
  | none :: rest => enumerationsInOptions rest
  | some m :: rest => enumerations m ++ enumerationsInOptions rest
termination_by structural x => x

end

end Rule

/-- The enumeration gives the value this name. -/
def EnumValue.NamedBy (x : EnumValue) (p : String × Table Int String) : Prop :=
  p.1 = x.enumName ∧ p.2.get? x.value = some x.valueName

/-- One expression has all enum values of another and more that the enumerations name, none of them
inside the body of a function. -/
structure Expr.Extends (ps : List (String × Table Int String)) (e e' : Expr) : Prop where
  keeps : e.gather enumValueOf ⊆ e'.gather enumValueOf
  brings : ∀ x ∈ e'.gather enumValueOf,
    x ∈ e.gather enumValueOf ∨ x ∈ e'.gatherOpen enumValueOf ∧ ∃ p ∈ ps, x.NamedBy p

namespace Expr.Extends

variable {ps qs : List (String × Table Int String)} {e e' : Expr}

theorem refl (ps : List (String × Table Int String)) (e : Expr) : e.Extends ps e :=
  ⟨List.Subset.refl _, fun _ hx => .inl hx⟩

theorem mono (h : e.Extends ps e') (hsub : ps ⊆ qs) : e.Extends qs e' :=
  ⟨h.keeps, fun x hx => (h.brings x hx).imp_right fun ⟨hopen, p, hp, hn⟩ =>
    ⟨hopen, p, hsub hp, hn⟩⟩

/-- Items are replaced one by one, in an array or a call. -/
theorem of_items {xs ys : List Expr} (h : List.Forall₂ (Expr.Extends ps) xs ys)
    (hx : e.gather enumValueOf = Expr.gatherIn enumValueOf xs)
    (hy : e'.gather enumValueOf = Expr.gatherIn enumValueOf ys)
    (hw : Expr.walkList ys ⊆ e'.walk) : e.Extends ps e' := by
  have hopen : (Expr.walkList ys).flatMap (fun x => enumValueOf x.kind) ⊆
      e'.gatherOpen enumValueOf := by
    intro x hx
    obtain ⟨y, hy, hx⟩ := List.mem_flatMap.mp hx
    exact List.mem_flatMap.mpr ⟨y, hw hy, hx⟩
  clear hw
  constructor
  · rw [hx, hy]
    clear hx hy hopen
    induction h with
    | nil => exact fun _ h => h
    | cons hxy _ ih => exact append_subset_append hxy.keeps ih
  · rw [hx, hy]
    clear hx hy
    induction h with
    | nil => exact fun _ h => absurd h List.not_mem_nil
    | @cons x y xs ys hxy _ ih =>
      rw [Expr.walkList, List.flatMap_append] at hopen
      obtain ⟨hhere, hrest⟩ := List.append_subset.mp hopen
      intro v hv
      rcases List.mem_append.mp hv with hv | hv
      · exact (hxy.brings v hv).imp (List.mem_append_left _) (And.imp_left (hhere ·))
      · exact (ih hrest v hv).imp_left (List.mem_append_right _)

end Expr.Extends

namespace Rule

/-- Only an enumeration names a number by an enum value; the other rules give constants and
assets. -/
theorem enumeration_of_symbolOf? {game : Game} {n : Int} {rule : Rule} {s : Symbol} {x : EnumValue}
    (hs : symbolOf? game n rule = some s) (hx : s.enumValue? = some x) :
    ∃ p ∈ rule.enumerations, x.NamedBy p := by
  have habsurd {α : Type} {o : Option α} {f : α → Symbol} (hf : ∀ a, (f a).enumValue? = none)
      (h : o.map f = some s) : False := by
    obtain ⟨a, -, rfl⟩ := Option.map_eq_some_iff.mp h
    rw [hf] at hx
    cases hx
  unfold symbolOf? at hs
  split at hs
  · rename_i name values
    obtain ⟨v, hv, rfl⟩ := Option.map_eq_some_iff.mp hs
    cases hx
    exact ⟨(name, values), List.mem_cons_self, rfl, hv⟩
  · exact (habsurd (fun _ => rfl) hs).elim
  · split at hs
    · cases hs
    · exact (habsurd (fun _ => rfl) hs).elim
  · split at hs
    · cases hs
      cases hx
    · split at hs
      · cases hs
        cases hx
      · cases hs
  · split at hs
    · split at hs
      · cases hs
      · exact (habsurd (fun _ => rfl) hs).elim
    · exact (habsurd (fun _ => rfl) hs).elim
  · exact (habsurd (fun _ => rfl) hs).elim
  all_goals cases hs

theorem resolveLiteral?_extends {game : Game} {rule : Rule} {e e' : Expr}
    (h : resolveLiteral? game rule e = some e') : e.Extends rule.enumerations e' := by
  obtain ⟨n, hn, h⟩ := Option.bind_eq_some_iff.mp h
  obtain ⟨s, hs, h⟩ := Option.bind_eq_some_iff.mp h
  cases h
  constructor
  · rw [Expr.gather_of_intValue? hn]
    exact List.nil_subset _
  · intro x hx
    rw [Expr.ofKind, Expr.gather, ExprKind.gather, List.append_nil] at hx
    have hs' : s.enumValue? = some x := Option.mem_toList.mp hx
    exact .inr ⟨List.mem_flatMap.mpr ⟨_, List.mem_cons_self, hx⟩,
      enumeration_of_symbolOf? hs hs'⟩

theorem extends_replaceSome? {ps : List (String × Table Int String)} {resolve : Expr → Option Expr}
    {xs ys : List Expr} (hr : ∀ e e', resolve e = some e' → e.Extends ps e')
    (h : replaceSome? resolve xs = some ys) : List.Forall₂ (Expr.Extends ps) xs ys := by
  unfold replaceSome? at h
  split at h
  · cases h
    refine List.forall₂_map_right_iff.mpr (List.forall₂_same.mpr fun x _ => ?_)
    cases hx : resolve x with
    | none => exact .refl ps x
    | some y => exact hr x y hx
  · cases h

mutual

/-- A rule keeps the enum values of an expression and brings in values of its enumerations alone. -/
theorem resolve_extends (game : Game) (rule : Rule) {e e' : Expr}
    (h : resolve game rule e = some e') : e.Extends rule.enumerations e' := by
  cases rule with
  | union members => exact resolveFirst_extends game members h
  | intersect members => 
    exact resolveEach_extends game members (List.Subset.refl _) (fun _ h => by cases h) h
  | accepts type value =>
    rw [resolve] at h
    split at h
    · cases h
      exact .refl _ e
    · cases h
  | refuses type value =>
    rw [resolve] at h
    split at h
    · cases h
    · cases h
      exact .refl _ e
  | items element =>
    rw [resolve] at h
    split at h
    · rename_i xs hk
      obtain ⟨ys, hys, heq⟩ := Option.map_eq_some_iff.mp h
      cases heq
      have hitems := extends_replaceSome? (fun _ _ => resolve_extends game element) hys
      refine .of_items hitems ?_ ?_ ?_
      · rw [Expr.gather_eq, hk]
        rfl
      · rfl
      · exact List.subset_cons_self _ _
    · cases h
  | arguments rules =>
    rw [resolve] at h
    split at h
    · rename_i f args hk
      dsimp only at h
      split at h
      · cases h
        refine .of_items (resolveArgs_extends game rules args) ?_ ?_ ?_
        · rw [Expr.gather_eq, hk]
          rfl
        · rfl
        · exact List.subset_cons_self _ _
      · cases h
    · cases h
  | _ => exact resolveLiteral?_extends h
termination_by structural rule

theorem resolveFirst_extends (game : Game) (members : List Rule) {e e' : Expr}
    (h : resolveFirst game members e = some e') : e.Extends (enumerationsIn members) e' := by
  cases members with
  | nil => cases h
  | cons m rest =>
    rw [resolveFirst] at h
    split at h
    · rename_i r hr
      cases h
      exact (resolve_extends game m hr).mono (List.subset_append_left _ _)
    · exact (resolveFirst_extends game rest h).mono (List.subset_append_right _ _)
termination_by structural members

/-- The result so far stays, or a later member puts its own in its place. -/
theorem resolveEach_extends (game : Game) (members : List Rule)
    {ps : List (String × Table Int String)} {e e' : Expr} {result : Option Expr}
    (hsub : enumerationsIn members ⊆ ps) (hresult : ∀ r, result = some r → e.Extends ps r)
    (h : resolveEach game members e result = some e') : e.Extends ps e' := by
  cases members with
  | nil => exact hresult e' h
  | cons m rest =>
    obtain ⟨hm, hrest⟩ := List.append_subset.mp hsub
    rw [resolveEach] at h
    split at h
    · rename_i r hr
      refine resolveEach_extends game rest hrest (fun r' hr' => ?_) h
      split at hr'
      · exact hresult r' hr'
      · cases hr'
        exact (resolve_extends game m hr).mono hm
    · cases h
termination_by structural members

theorem resolveArgs_extends (game : Game) (rules : List (Option Rule)) (args : List Expr) :
    List.Forall₂ (Expr.Extends (enumerationsInOptions rules)) args
      (resolveArgs game rules args).2 := by
  cases rules with
  | nil =>
    rw [resolveArgs]
    exact List.forall₂_same.mpr fun x _ => .refl _ x
    · simp
    · simp
  | cons rule rest =>
    cases args with
    | nil => cases rule <;> exact .nil
    | cons e args =>
      have hrest := resolveArgs_extends game rest args
      cases rule with
      | none => exact .cons (.refl _ e) hrest
      | some m =>
        have hrest := hrest.imp fun _ _ h => h.mono (List.subset_append_right (enumerations m) _)
        rw [resolveArgs]
        dsimp only
        split
        · rename_i r hr
          exact .cons ((resolve_extends game m hr).mono (List.subset_append_left _ _)) hrest
        · exact .cons (.refl _ e) hrest
termination_by structural rules

end

end Rule

end GmlLift
