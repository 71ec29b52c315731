import GmlLift.Proofs.Lift.Prescan

/-! # Names and entries, both ways

Each insertion is written in two directions, and what a name or an entry was bound to before is
overwritten in one of them only. So the directions agree exactly if a pair always loses its name and
its entry together. -/
namespace GmlLift.FunctionTable

/-- Both directions of the table hold the same pairs. -/
def Bidirectional (t : FunctionTable) : Prop :=
  ∀ name entry, t.entryOf? name = some entry ↔ t.nameOf? entry = some name

theorem entryOf?_insertAll (pairs : List (String × String)) (name entry : String) :
    (insertAll {} pairs).entryOf? name = some entry ↔
      ∃ before after, pairs = before ++ (name, entry) :: after ∧ name ∉ after.map Prod.fst := by
  rw [entryOf?, insertAll_byName, Table.get?_foldl_insert_empty Prod.fst Prod.snd]
  constructor
  · rintro ⟨before, ⟨n, e⟩, after, hl, rfl, rfl, hlast⟩
    exact ⟨before, after, hl, hlast⟩
  · rintro ⟨before, after, hl, hlast⟩
    exact ⟨before, (name, entry), after, hl, rfl, rfl, hlast⟩

theorem nameOf?_insertAll (pairs : List (String × String)) (name entry : String) :
    (insertAll {} pairs).nameOf? entry = some name ↔
      ∃ before after, pairs = before ++ (name, entry) :: after ∧ entry ∉ after.map Prod.snd := by
  rw [nameOf?, insertAll_byEntry, Table.get?_foldl_insert_empty Prod.snd Prod.fst]
  constructor
  · rintro ⟨before, ⟨n, e⟩, after, hl, rfl, rfl, hlast⟩
    exact ⟨before, after, hl, hlast⟩
  · rintro ⟨before, after, hl, hlast⟩
    exact ⟨before, (name, entry), after, hl, rfl, rfl, hlast⟩

/-- There is one place where a pair stands for the last time. -/
theorem eq_of_last {α : Type} {p : α} {before after before' after' : List α}
    (h : before ++ p :: after = before' ++ p :: after') (hp : p ∉ after) (hp' : p ∉ after') :
    after = after' := by
  obtain ⟨l, hl, hr⟩ | ⟨l, hl, hr⟩ := List.append_eq_append_iff.mp h
  · cases l with
    | nil => exact (List.cons.inj hr).2
    | cons a rest =>
      rw [(List.cons.inj hr).2] at hp
      exact (hp (List.mem_append_right _ List.mem_cons_self)).elim
  · cases l with
    | nil => exact (List.cons.inj hr).2.symm
    | cons a rest =>
      rw [(List.cons.inj hr).2] at hp'
      exact (hp' (List.mem_append_right _ List.mem_cons_self)).elim

/-- The two directions agree exactly if each pair loses its name to a later pair just when it loses
its entry to one. -/
theorem bidirectional_iff_rebound (pairs : List (String × String)) :
    (insertAll {} pairs).Bidirectional ↔
      ∀ before p after, pairs = before ++ p :: after →
        (p.1 ∈ after.map Prod.fst ↔ p.2 ∈ after.map Prod.snd) := by
  constructor
  · rintro h before ⟨name, entry⟩ after hl
    rw [← not_iff_not]
    constructor
    · intro hname
      have hfound := (entryOf?_insertAll ..).mpr ⟨before, after, hl, hname⟩
      obtain ⟨before', after', hl', hentry⟩ := (nameOf?_insertAll ..).mp ((h name entry).mp hfound)
      rwa [eq_of_last (hl ▸ hl') (fun hp => hname (List.mem_map_of_mem hp))
        fun hp => hentry (List.mem_map_of_mem hp)]
    · intro hentry
      have hfound := (nameOf?_insertAll ..).mpr ⟨before, after, hl, hentry⟩
      obtain ⟨before', after', hl', hname⟩ := (entryOf?_insertAll ..).mp ((h name entry).mpr hfound)
      rwa [eq_of_last (hl ▸ hl') (fun hp => hentry (List.mem_map_of_mem hp))
        fun hp => hname (List.mem_map_of_mem hp)]
  · intro h name entry
    rw [entryOf?_insertAll, nameOf?_insertAll]
    constructor
    · rintro ⟨before, after, hl, hname⟩
      exact ⟨before, after, hl, mt (h before (name, entry) after hl).mpr hname⟩
    · rintro ⟨before, after, hl, hentry⟩
      exact ⟨before, after, hl, mt (h before (name, entry) after hl).mp hentry⟩

/-- A name that is bound again leaves its first entry behind. -/
theorem not_bidirectional_rebound :
    ¬ (insertAll {} [("f", "a"), ("f", "b")]).Bidirectional := by
  intro h
  have hfirst : (insertAll {} [("f", "a"), ("f", "b")]).nameOf? "a" = some "f" := by decide
  have hlast : (insertAll {} [("f", "a"), ("f", "b")]).entryOf? "f" = some "b" := by decide
  rw [(h "f" "a").mpr hfirst] at hlast
  exact absurd hlast (by decide)

end GmlLift.FunctionTable
