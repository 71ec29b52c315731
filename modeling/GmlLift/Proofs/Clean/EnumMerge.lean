import GmlLift.EnumTable
import GmlLift.Proofs.Table

/-! # Merging enum tables

Merging is the union of two tables in which the first one wins. What is proved about it comes from
what it does to look-ups. -/
namespace GmlLift

namespace EnumTable

/-- The name of a value in an enum. -/
def nameOf? (t : EnumTable) (enumName : String) (value : Int) : Option String :=
  (t.valuesOf enumName).get? value

theorem get?_addMissing (values : Table Int String) (more : List (Int × String)) (value : Int) :
    (addMissing values more).get? value = (values.get? value).or (Table.find value more) := by
  induction more generalizing values with
  | nil => exact (Option.or_none ..).symm
  | cons e rest ih =>
    rw [addMissing, List.foldl_cons]
    refine (ih (values.insertNew e.1 e.2)).trans ?_
    rw [Table.get?_insertNew, Option.or_assoc, Table.find]
    split <;> rfl

theorem get?_merge (t other : EnumTable) (enumName : String) :
    (t.merge other).enums.get? enumName =
      ((other.enums.get? enumName).map fun values =>
        addMissing (t.valuesOf enumName) values.items).or (t.enums.get? enumName) :=
  Table.get?_foldl_update
    (fun known (values : Table Int String) => addMissing (known.getD ∅) values.items)
    other.enums.ordered t.enums enumName

theorem contains_merge (t other : EnumTable) (enumName : String) :
    (t.merge other).enums.contains enumName =
      (t.enums.contains enumName || other.enums.contains enumName) := by
  unfold Table.contains
  rw [get?_merge]
  cases other.enums.get? enumName <;> simp

theorem nameOf?_merge (t other : EnumTable) (enumName : String) (value : Int) :
    (t.merge other).nameOf? enumName value =
      (t.nameOf? enumName value).or (other.nameOf? enumName value) := by
  unfold nameOf? valuesOf
  rw [get?_merge]
  cases other.enums.get? enumName with
  | none => simp
  | some values =>
    rw [Option.map_some, Option.some_or, Option.getD_some, Option.getD_some, get?_addMissing,
      valuesOf]
    rfl

/-- A table is known by the enums in it and the names of their values. -/
theorem ext_nameOf? {t u : EnumTable}
    (hc : ∀ enumName, t.enums.contains enumName = u.enums.contains enumName)
    (hn : ∀ enumName value, t.nameOf? enumName value = u.nameOf? enumName value) : t = u := by
  have h : t.enums = u.enums := by
    refine Table.ext_get? fun enumName => ?_
    have hd := hc enumName
    unfold Table.contains at hd
    have he := hn enumName
    unfold nameOf? valuesOf at he
    cases ht : t.enums.get? enumName with
    | none =>
      rw [ht] at hd
      exact (Option.isSome_eq_false_iff.mp hd.symm |> Option.isNone_iff_eq_none.mp).symm
    | some a =>
      rw [ht] at hd he
      obtain ⟨b, hb⟩ := Option.isSome_iff_exists.mp hd.symm
      rw [hb] at he ⊢
      exact congrArg some (Table.ext_get? he)
  cases t
  cases u
  exact congrArg EnumTable.mk h

theorem merge_assoc (a b c : EnumTable) : (a.merge b).merge c = a.merge (b.merge c) :=
  ext_nameOf? (fun _ => by simp [contains_merge, Bool.or_assoc])
    fun _ _ => by simp [nameOf?_merge, Option.or_assoc]

theorem merge_self (t : EnumTable) : t.merge t = t :=
  ext_nameOf? (fun _ => by simp [contains_merge]) fun _ _ => by simp [nameOf?_merge]

theorem merge_empty (t : EnumTable) : t.merge {} = t := rfl

theorem empty_merge (t : EnumTable) : ({} : EnumTable).merge t = t :=
  ext_nameOf? (fun n => by rw [contains_merge]; rfl) fun n v => by rw [nameOf?_merge]; rfl

/-- The union of tables in which the first one wins: a value keeps the name it has in the first
table, and gets the one of the second table if it has none. -/
structure LeftBiasedUnion (combine : EnumTable → EnumTable → EnumTable) : Prop where
  contains (a b : EnumTable) (enumName : String) : (combine a b).enums.contains enumName =
    (a.enums.contains enumName || b.enums.contains enumName)
  nameOf (a b : EnumTable) (enumName : String) (value : Int) :
    (combine a b).nameOf? enumName value =
      (a.nameOf? enumName value).or (b.nameOf? enumName value)
  assoc (a b c : EnumTable) : combine (combine a b) c = combine a (combine b c)
  self (t : EnumTable) : combine t t = t
  empty_right (t : EnumTable) : combine t {} = t
  empty_left (t : EnumTable) : combine {} t = t

theorem leftBiasedUnion_merge : LeftBiasedUnion merge where
  contains := contains_merge
  nameOf := nameOf?_merge
  assoc := merge_assoc
  self := merge_self
  empty_right := merge_empty
  empty_left := empty_merge

end EnumTable
end GmlLift
