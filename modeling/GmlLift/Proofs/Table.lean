import GmlLift.Table
import Mathlib.Data.List.Induction
import Mathlib.Data.List.Nodup
import Mathlib.Data.List.Perm.Basic

/-! # Look-ups in a table

What a look-up gives after an insertion, and that a table is known by its look-ups. -/
namespace GmlLift.Table

variable {κ ν : Type} [Ord κ]

@[simp] theorem get?_empty (k : κ) : (∅ : Table κ ν).get? k = none := rfl

theorem find_insertIn [Std.LawfulEqOrd κ] (k : κ) (v : ν) (x : κ) (l : List (κ × ν)) :
    find x (insertIn k v l) = if compare x k = .eq then some v else find x l := by
  induction l with
  | nil => simp [insertIn, find]
  | cons a rest ih =>
    simp only [insertIn]
    split
    · simp [find]
    · rename_i heq
      have hk : k = a.1 := Std.compare_eq_iff_eq.mp heq
      by_cases hx : compare x k = .eq <;> simp [find, hx, ← hk]
    · rename_i hgt
      by_cases hx : compare x a.1 = .eq
      · have hne : compare x k ≠ .eq := by
          intro h
          rw [Std.compare_eq_iff_eq.mp h] at hx
          rw [hx] at hgt
          cases hgt
        simp [find, hx, hne]
      · simp [find, hx, ih]

theorem find_eq_none_iff {k : κ} {l : List (κ × ν)} :
    find k l = none ↔ ∀ e ∈ l, compare k e.1 ≠ .eq := by
  induction l with
  | nil => simp [find]
  | cons e rest ih => by_cases h : compare k e.1 = .eq <;> simp [find, h, ih]

theorem nodup_items [Std.TransOrd κ] (t : Table κ ν) : t.items.Nodup := by
  refine t.ordered.imp fun {a b} h e => ?_
  subst e
  exact Std.OrientedCmp.not_lt_of_lt h h

variable [Std.TransOrd κ] [Std.LawfulEqOrd κ]

theorem find_eq_some_iff {l : List (κ × ν)} (h : l.Pairwise fun a b => compare a.1 b.1 = .lt)
    {k : κ} {v : ν} : find k l = some v ↔ (k, v) ∈ l := by
  induction l with
  | nil => simp [find]
  | cons a rest ih =>
    obtain ⟨hd, tl⟩ := List.pairwise_cons.mp h
    by_cases hk : k = a.1
    · have hrest : (k, v) ∉ rest := by
        intro hm
        have hlt := hd _ hm
        rw [← hk] at hlt
        exact Std.OrientedCmp.not_lt_of_lt hlt hlt
      have hhead : (k, v) = a ↔ a.2 = v := by simp [Prod.ext_iff, hk, eq_comm]
      rw [List.mem_cons, hhead]
      simp [find, Std.compare_eq_iff_eq.mpr hk, hrest]
    · have hne : (k, v) ≠ a := fun e => hk (congrArg Prod.fst e)
      simp [find, mt Std.compare_eq_iff_eq.mp hk, ih tl, hne]

theorem get?_eq_some_iff {t : Table κ ν} {k : κ} {v : ν} :
    t.get? k = some v ↔ (k, v) ∈ t.items :=
  find_eq_some_iff t.ordered

@[simp] theorem get?_insert_self (t : Table κ ν) (k : κ) (v : ν) :
    (t.insert k v).get? k = some v := by
  rw [get?, insert, find_insertIn, if_pos (Std.compare_eq_iff_eq.mpr rfl)]

theorem get?_insert_of_ne (t : Table κ ν) {k x : κ} (v : ν) (h : x ≠ k) :
    (t.insert k v).get? x = t.get? x := by
  rw [get?, insert, find_insertIn, if_neg (mt Std.compare_eq_iff_eq.mp h), get?]

theorem get?_insertNew (t : Table κ ν) (k x : κ) (v : ν) :
    (t.insertNew k v).get? x = (t.get? x).or (if compare x k = .eq then some v else none) := by
  unfold insertNew contains
  by_cases hx : x = k
  · subst hx
    cases h : t.get? x <;> simp [h]
  · rw [if_neg (mt Std.compare_eq_iff_eq.mp hx), Option.or_none]
    split
    · rfl
    · rw [get?_insert_of_ne _ _ hx]

theorem get?_of_erase {t : Table κ ν} {k x : κ} {v : ν} (h : (t.erase k).get? x = some v) :
    t.get? x = some v :=
  get?_eq_some_iff.mpr (List.mem_of_mem_filter (get?_eq_some_iff.mp h))

/-- Tables that answer every look-up alike are equal. -/
theorem ext_get? {t u : Table κ ν} (h : ∀ k, t.get? k = u.get? k) : t = u := by
  have hmem (p : κ × ν) : p ∈ t.items ↔ p ∈ u.items := by
    rw [← get?_eq_some_iff (t := t) (k := p.1) (v := p.2), h, get?_eq_some_iff]
  have hperm : t.items.Perm u.items :=
    (List.perm_ext_iff_of_nodup t.nodup_items u.nodup_items).mpr hmem
  have hanti (a b : κ × ν) (_ : a ∈ t.items) (_ : b ∈ u.items) (hab : compare a.1 b.1 = .lt)
      (hba : compare b.1 a.1 = .lt) : a = b :=
    (Std.OrientedCmp.not_lt_of_lt hab hba).elim
  have heq : t.items = u.items := hperm.eq_of_pairwise hanti t.ordered u.ordered
  cases t
  cases u
  congr

/-- Entries with distinct keys are found again, whatever the order they are put in. -/
theorem get?_foldl_insert {α : Type} (key : α → κ) (value : α → ν) {l : List α}
    (hl : (l.map key).Nodup) (t : Table κ ν) (k : κ) (v : ν) :
    (l.foldl (fun t a => t.insert (key a) (value a)) t).get? k = some v ↔
      (∃ a ∈ l, key a = k ∧ value a = v) ∨ k ∉ l.map key ∧ t.get? k = some v := by
  induction l generalizing t with
  | nil => simp
  | cons a rest ih =>
    obtain ⟨hfresh, hrest⟩ := List.nodup_cons.mp (List.map_cons ▸ hl)
    rw [List.foldl_cons, ih hrest]
    by_cases hk : k = key a
    · subst hk
      have hno : ¬ ∃ b ∈ rest, key b = key a ∧ value b = v := fun ⟨b, hb, e, _⟩ =>
        hfresh (e ▸ List.mem_map_of_mem hb)
      simp [hno, hfresh]
    · simp [get?_insert_of_ne t (value a) hk, Ne.symm hk, hk]

/-- Of the entries with one key, the last one put in is found. -/
theorem get?_foldl_insert_empty {α : Type} (key : α → κ) (value : α → ν) (l : List α) (k : κ)
    (v : ν) :
    (l.foldl (fun t a => t.insert (key a) (value a)) (∅ : Table κ ν)).get? k = some v ↔
      ∃ before a after, l = before ++ a :: after ∧ key a = k ∧ value a = v ∧
        k ∉ after.map key := by
  induction l using List.reverseRecOn with
  | nil => simp
  | append_singleton rest x ih =>
    rw [List.foldl_append, List.foldl_cons, List.foldl_nil]
    constructor
    · intro h
      by_cases hk : k = key x
      · subst hk
        rw [get?_insert_self, Option.some_inj] at h
        exact ⟨rest, x, [], rfl, rfl, h, List.not_mem_nil⟩
      · rw [get?_insert_of_ne _ _ hk, ih] at h
        obtain ⟨before, a, after, rfl, ha, hv, hlast⟩ := h
        have hstill : k ∉ (after ++ [x]).map key := by simpa [hk] using hlast
        exact ⟨before, a, after ++ [x], List.append_assoc .., ha, hv, hstill⟩
    · rintro ⟨before, a, after, hl, ha, hv, hlast⟩
      obtain rfl | ⟨after, y, rfl⟩ := List.eq_nil_or_concat' after
      · obtain ⟨-, hx⟩ := List.append_inj' hl rfl
        obtain rfl : x = a := List.singleton_inj.mp hx
        rw [← ha, get?_insert_self, hv]
      · have hends : rest ++ [x] = (before ++ a :: after) ++ [y] := by
          rw [hl, List.append_assoc, List.cons_append]
        obtain ⟨hrest, hx⟩ := List.append_inj' hends rfl
        obtain rfl : x = y := List.singleton_inj.mp hx
        simp only [List.map_append, List.map_cons, List.map_nil, List.mem_append,
          List.mem_singleton, not_or] at hlast
        rw [get?_insert_of_ne _ _ hlast.2, ih]
        exact ⟨before, a, after, hrest, ha, hv, hlast.1⟩

/-- Entries with ascending keys that are put in one after the other each see what the table held
for their key before. -/
theorem get?_foldl_update {μ : Type} (f : Option ν → μ → ν) {l : List (κ × μ)}
    (hl : l.Pairwise fun a b => compare a.1 b.1 = .lt) (t : Table κ ν) (k : κ) :
    (l.foldl (fun t e => t.insert e.1 (f (t.get? e.1) e.2)) t).get? k =
      ((find k l).map (f (t.get? k))).or (t.get? k) := by
  induction l generalizing t with
  | nil => rfl
  | cons e rest ih =>
    obtain ⟨hd, tl⟩ := List.pairwise_cons.mp hl
    rw [List.foldl_cons, ih tl]
    by_cases hk : k = e.1
    · have hrest : find k rest = none := by
        refine find_eq_none_iff.mpr fun x hx heq => ?_
        have hlt := hd x hx
        rw [← hk, heq] at hlt
        cases hlt
      rw [hrest, hk, get?_insert_self, find, if_pos (Std.compare_eq_iff_eq.mpr rfl)]
      rfl
    · rw [get?_insert_of_ne _ _ hk, find, if_neg (mt Std.compare_eq_iff_eq.mp hk)]

end GmlLift.Table
