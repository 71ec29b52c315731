import GmlLift.Lift.GlobalScript
import GmlLift.Proofs.Except
import GmlLift.Proofs.Table
import Mathlib.Logic.Relation

/-! # Scanning scripts side by side

Workers take scripts in any order, scan them side by side and put what they find into one table
under a lock, each script's functions at once. The table at the end is the one that scanning script
by script gives, whatever the schedule, when no two scripts bind a name or an entry twice. -/
namespace GmlLift

namespace FunctionTable

/-- Names to entries, as both directions of a table hold them. -/
structure Holds (t : FunctionTable) (pairs : List (String × String)) : Prop where
  entryOf (name entry : String) : t.entryOf? name = some entry ↔ (name, entry) ∈ pairs
  nameOf (name entry : String) : t.nameOf? entry = some name ↔ (name, entry) ∈ pairs

theorem insertAll_byName (t : FunctionTable) (pairs : List (String × String)) :
    (t.insertAll pairs).byName = pairs.foldl (fun b p => b.insert p.1 p.2) t.byName := by
  induction pairs generalizing t with
  | nil => rfl
  | cons p rest ih => exact ih (t.insert p.1 p.2)

theorem insertAll_byEntry (t : FunctionTable) (pairs : List (String × String)) :
    (t.insertAll pairs).byEntry = pairs.foldl (fun b p => b.insert p.2 p.1) t.byEntry := by
  induction pairs generalizing t with
  | nil => rfl
  | cons p rest ih => exact ih (t.insert p.1 p.2)

theorem insertAll_append (t : FunctionTable) (a b : List (String × String)) :
    t.insertAll (a ++ b) = (t.insertAll a).insertAll b := List.foldl_append

theorem holds_insertAll {pairs : List (String × String)} (hn : (pairs.map Prod.fst).Nodup)
    (he : (pairs.map Prod.snd).Nodup) : (insertAll {} pairs).Holds pairs where
  entryOf name entry := by
    rw [entryOf?, insertAll_byName, Table.get?_foldl_insert Prod.fst Prod.snd hn]
    simp
  nameOf name entry := by
    rw [nameOf?, insertAll_byEntry, Table.get?_foldl_insert Prod.snd Prod.fst he]
    simp

/-- A table is known by the pairs that it holds. -/
theorem Holds.unique {t u : FunctionTable} {a b : List (String × String)} (ht : t.Holds a)
    (hu : u.Holds b) (h : ∀ p, p ∈ a ↔ p ∈ b) : t = u := by
  have hn : t.byName = u.byName := Table.ext_get? fun name => Option.ext fun entry => by
    rw [← entryOf?, ← entryOf?, ht.entryOf, hu.entryOf, h]
  have he : t.byEntry = u.byEntry := Table.ext_get? fun entry => Option.ext fun name => by
    rw [← nameOf?, ← nameOf?, ht.nameOf, hu.nameOf, h]
  cases t
  cases u
  congr

end FunctionTable

namespace Prescan

/-- A scan under way. -/
structure State where
  /-- Scripts that no worker has scanned yet. -/
  waiting : List CodeEntry
  /-- What workers have found and not put into the table yet, one batch a script. -/
  batches : List (List (String × String)) := []
  table : FunctionTable := {}
  failures : List LiftError := []

/-- One worker does the next thing: it scans any script that waits, or it puts any batch that it
found into the table while no other worker can. -/
inductive Step : State → State → Prop
  | scan {before after : List CodeEntry} {code : CodeEntry} {batch : List (String × String)}
      {s : State} (hs : s.waiting = before ++ code :: after)
      (h : GlobalScript.functions code = .ok batch) :
      Step s { s with waiting := before ++ after, batches := batch :: s.batches }
  | fail {before after : List CodeEntry} {code : CodeEntry} {e : FlowError} {s : State}
      (hs : s.waiting = before ++ code :: after) (h : GlobalScript.functions code = .error e) :
      Step s { s with
        waiting := before ++ after
        failures := ⟨code.name, .flow e⟩ :: s.failures }
  | insert {before after : List (List (String × String))} {batch : List (String × String)}
      {s : State} (hs : s.batches = before ++ batch :: after) :
      Step s { s with batches := before ++ after, table := s.table.insertAll batch }

/-- The states that workers can bring a scan of the scripts to. -/
def Reaches (scripts : List CodeEntry) (s : State) : Prop :=
  Relation.ReflTransGen Step { waiting := scripts } s

/-- What a scan of the scripts may give. It gives the table when all work is done without a
failure. Once there is a failure, it may stop with it at any time. -/
inductive Gives (scripts : List CodeEntry) : Except LiftError FunctionTable → Prop
  | table {s : State} (h : Reaches scripts s) (hw : s.waiting = []) (hb : s.batches = [])
      (hf : s.failures = []) : Gives scripts (.ok s.table)
  | failure {s : State} {e : LiftError} (h : Reaches scripts s) (he : e ∈ s.failures) :
      Gives scripts (.error e)

/-- The functions of a script, none if it cannot be scanned. -/
def batchOf (code : CodeEntry) : List (String × String) :=
  (GlobalScript.functions code).toOption.getD []

/-- Every function found is in the table, in a batch on its way to it, or in a script that waits;
a script that cannot be scanned waits or has left a failure. -/
structure Accounts (scripts : List CodeEntry) (s : State) : Prop where
  found : ∃ stored, s.table = .insertAll {} stored ∧
    (stored ++ s.batches.flatten ++ s.waiting.flatMap batchOf).Perm (scripts.flatMap batchOf)
  failed : ∀ e ∈ s.failures, ∃ code ∈ scripts, ∃ f, GlobalScript.functions code = .error f
  scanned : ∀ code ∈ scripts, code ∈ s.waiting ∨ s.failures ≠ [] ∨
    ∃ batch, GlobalScript.functions code = .ok batch
  waits : ∀ code ∈ s.waiting, code ∈ scripts

theorem batchOf_of_ok {code : CodeEntry} {batch : List (String × String)}
    (h : GlobalScript.functions code = .ok batch) : batchOf code = batch := by
  simp [batchOf, h, Except.toOption]

theorem batchOf_of_error {code : CodeEntry} {e : FlowError}
    (h : GlobalScript.functions code = .error e) : batchOf code = [] := by
  simp [batchOf, h, Except.toOption]

theorem Accounts.start (scripts : List CodeEntry) : Accounts scripts { waiting := scripts } where
  found := ⟨[], rfl, by simp⟩
  failed := by simp
  scanned code h := .inl h
  waits code h := h

/-- One step moves functions on and loses none. -/
theorem Accounts.step {scripts : List CodeEntry} {s s' : State} (a : Accounts scripts s)
    (h : Step s s') : Accounts scripts s' := by
  obtain ⟨stored, ht, hp⟩ := a.found
  cases h with
  | @scan before after code batch _ hs h =>
    refine ⟨⟨stored, ht, .trans ?_ hp⟩, a.failed, fun c hc => ?_, fun c hc => a.waits c ?_⟩
    · simp only [hs, List.flatten_cons, List.flatMap_append, List.flatMap_cons, batchOf_of_ok h]
      grind
    · have := a.scanned c hc
      grind
    · grind
  | @fail before after code e _ hs h =>
    refine ⟨⟨stored, ht, .trans ?_ hp⟩, ?_, fun c hc => .inr (.inl (by simp)), fun c hc => a.waits c ?_⟩
    · simp [hs, batchOf_of_error h]
    · rintro f hf
      rcases List.mem_cons.mp hf with rfl | hf
      · exact ⟨code, a.waits code (by simp [hs]), e, h⟩
      · exact a.failed f hf
    · grind
  | @insert before after batch _ hs =>
    refine ⟨⟨stored ++ batch, ?_, .trans ?_ hp⟩, a.failed, a.scanned, a.waits⟩
    · rw [FunctionTable.insertAll_append, ← ht]
    · simp only [hs, List.flatten_append, List.flatten_cons]
      grind

theorem Reaches.accounts {scripts : List CodeEntry} {s : State} (h : Reaches scripts s) :
    Accounts scripts s := by
  induction h with
  | refl => exact .start scripts
  | tail _ h ih => exact ih.step h

/-- Whatever has happened so far, the work that is left can be done. -/
theorem exists_drained (s : State) : ∃ s', Relation.ReflTransGen Step s s' ∧ s'.waiting = [] ∧
    s'.batches = [] := by
  obtain ⟨waiting, batches, table, failures⟩ := s
  induction waiting generalizing batches table failures with
  | nil =>
    induction batches generalizing table with
    | nil => exact ⟨_, .refl, rfl, rfl⟩
    | cons batch rest ih =>
      obtain ⟨s', hs', h⟩ := ih (table.insertAll batch)
      exact ⟨s', .head (@Step.insert [] rest batch _ rfl) hs', h⟩
  | cons code rest ih =>
    cases hc : GlobalScript.functions code with
    | ok batch =>
      obtain ⟨s', hs', h⟩ := ih (batch :: batches) table failures
      exact ⟨s', .head (@Step.scan [] rest code batch _ rfl hc) hs', h⟩
    | error e =>
      obtain ⟨s', hs', h⟩ := ih batches table (⟨code.name, .flow e⟩ :: failures)
      exact ⟨s', .head (@Step.fail [] rest code e _ rfl hc) hs', h⟩

/-- Every script can be scanned. -/
def Scannable (scripts : List CodeEntry) : Prop :=
  ∀ code ∈ scripts, ∃ batch, GlobalScript.functions code = .ok batch

/-- The functions of all scripts with their names, in the order of the scripts. -/
def allFound (scripts : List CodeEntry) : List (String × String) := scripts.flatMap batchOf

theorem ofScripts_of_scannable {scripts : List CodeEntry} (h : Scannable scripts) :
    FunctionTable.ofScripts scripts = .ok (.insertAll {} (allFound scripts)) := by
  have hmap : (scripts.mapM fun code => (GlobalScript.functions code).mapError fun e =>
      (⟨code.name, .flow e⟩ : LiftError)) = .ok (scripts.map batchOf) := by
    induction scripts with
    | nil => rfl
    | cons code rest ih =>
      obtain ⟨batch, hb⟩ := h code List.mem_cons_self
      rw [List.mapM_cons, hb, ih fun c hc => h c (List.mem_cons_of_mem _ hc), List.map_cons,
        batchOf_of_ok hb]
      rfl
  rw [FunctionTable.ofScripts, hmap]
  rfl

/-- Scanning script by script succeeds exactly when every script can be scanned. -/
theorem exists_ofScripts_iff (scripts : List CodeEntry) :
    (∃ t, FunctionTable.ofScripts scripts = .ok t) ↔ Scannable scripts := by
  refine ⟨fun ⟨t, h⟩ code hc => ?_, fun h => ⟨_, ofScripts_of_scannable h⟩⟩
  obtain ⟨found, hfound, -⟩ := ok_of_bind h
  obtain ⟨batch, -, hb⟩ := exists_of_mem_left (ok_of_mapM hfound) hc
  exact ⟨batch, ok_of_mapError hb⟩

theorem exists_gives_ok_iff (scripts : List CodeEntry) :
    (∃ t, Gives scripts (.ok t)) ↔ Scannable scripts := by
  constructor
  · rintro ⟨t, h⟩ code hc
    cases h with
    | table h hw hb hf =>
      rcases h.accounts.scanned code hc with hwait | hfail | hok
      · rw [hw] at hwait
        cases hwait
      · exact absurd hf hfail
      · exact hok
  · intro h
    obtain ⟨s, hs, hw, hb⟩ := exists_drained { waiting := scripts }
    have hf : s.failures = [] := List.eq_nil_iff_forall_not_mem.mpr fun e he => by
      obtain ⟨code, hc, f, hcf⟩ := (Reaches.accounts hs).failed e he
      obtain ⟨batch, hb⟩ := h code hc
      rw [hb] at hcf
      cases hcf
    exact ⟨s.table, .table hs hw hb hf⟩

theorem exists_gives_error_iff (scripts : List CodeEntry) :
    (∃ e, Gives scripts (.error e)) ↔ ¬ Scannable scripts := by
  constructor
  · rintro ⟨e, h⟩ hscan
    cases h with
    | failure h he =>
      obtain ⟨code, hc, f, hcf⟩ := h.accounts.failed e he
      obtain ⟨batch, hb⟩ := hscan code hc
      rw [hb] at hcf
      cases hcf
  · intro h
    obtain ⟨code, hc, hno⟩ : ∃ code ∈ scripts, ∀ b, GlobalScript.functions code ≠ .ok b := by
      simpa [Scannable] using h
    obtain ⟨s, hs, hw, -⟩ := exists_drained { waiting := scripts }
    rcases (Reaches.accounts hs).scanned code hc with hwait | hfail | ⟨b, hb⟩
    · rw [hw] at hwait
      cases hwait
    · obtain ⟨e, he⟩ := List.exists_mem_of_ne_nil _ hfail
      exact ⟨e, .failure hs he⟩
    · exact absurd hb (hno b)

/-- Whatever the schedule, the table of a scan holds the functions found in all scripts. -/
theorem Gives.holds {scripts : List CodeEntry} {t : FunctionTable} (h : Gives scripts (.ok t))
    (hn : ((allFound scripts).map Prod.fst).Nodup) (he : ((allFound scripts).map Prod.snd).Nodup) :
    t.Holds (allFound scripts) := by
  cases h with
  | table h hw hb hf =>
    obtain ⟨stored, ht, hp⟩ := h.accounts.found
    have hperm : stored.Perm (allFound scripts) := by simpa [hw, hb, allFound] using hp
    have hstored := FunctionTable.holds_insertAll ((hperm.map _).nodup_iff.mpr hn)
      ((hperm.map _).nodup_iff.mpr he)
    rw [ht]
    exact ⟨fun name entry => by rw [hstored.entryOf, hperm.mem_iff],
      fun name entry => by rw [hstored.nameOf, hperm.mem_iff]⟩

/-- A scan of any scripts ends with a table exactly when every script can be scanned, and else with
a failure. If no two of the functions found share a name or an entry, every schedule ends with the
table of the scan script by script, which holds the functions found and nothing else. -/
theorem scan_any_schedule (scripts : List CodeEntry) :
    ((∃ t, FunctionTable.ofScripts scripts = .ok t) ↔ Scannable scripts) ∧
    ((∃ t, Gives scripts (.ok t)) ↔ Scannable scripts) ∧
    ((∃ e, Gives scripts (.error e)) ↔ ¬ Scannable scripts) ∧
    (Scannable scripts → ((allFound scripts).map Prod.fst).Nodup →
      ((allFound scripts).map Prod.snd).Nodup →
      ∃ table, FunctionTable.ofScripts scripts = .ok table ∧ table.Holds (allFound scripts) ∧
        ∀ r, Gives scripts r ↔ r = .ok table) := by
  refine ⟨exists_ofScripts_iff scripts, exists_gives_ok_iff scripts,
    exists_gives_error_iff scripts, fun h hn he => ?_⟩
  have hholds := FunctionTable.holds_insertAll hn he
  refine ⟨_, ofScripts_of_scannable h, hholds, fun r => ⟨fun hr => ?_, ?_⟩⟩
  · cases r with
    | ok t => rw [(hr.holds hn he).unique hholds fun _ => .rfl]
    | error e => exact absurd h ((exists_gives_error_iff scripts).mp ⟨e, hr⟩)
  · rintro rfl
    obtain ⟨t, ht⟩ := (exists_gives_ok_iff scripts).mpr h
    rwa [← (ht.holds hn he).unique hholds fun _ => .rfl]

/-- A script that declares one function with an empty body, as the compiler lays it out. -/
def declaring (entry name : String) : CodeEntry :=
  { CodeEntry.ofInstrs ("gml_GlobalScript_" ++ name)
      [⟨0, .b, none, .double, .double, .branch 8⟩, ⟨4, .exit, none, .int32, .double, .none⟩,
        ⟨8, .push, none, .int32, .double, .function entry⟩,
        ⟨16, .conv, none, .int32, .var, .none⟩, ⟨20, .pushI, none, .int16, .double, .int16 (-1)⟩,
        ⟨24, .conv, none, .int32, .var, .none⟩, ⟨28, .call, none, .int32, .double, .call "method" 2⟩,
        ⟨36, .dup, none, .var, .double, .dup 0 0⟩, ⟨40, .pushI, none, .int16, .double, .int16 (-6)⟩,
        ⟨44, .pop, none, .var, .var, .var ⟨name, -1, .stackTop⟩⟩,
        ⟨52, .popz, none, .var, .double, .none⟩, ⟨56, .exit, none, .int32, .double, .none⟩] with
    children := [{ name := entry, start := 4 }] }

theorem scan_any_schedule_twoScripts :
    let scripts := [declaring "gml_Script_add" "add", declaring "gml_Script_sub" "sub"]
    Scannable scripts ∧ ((allFound scripts).map Prod.fst).Nodup ∧
      ((allFound scripts).map Prod.snd).Nodup ∧
      ∃ table, FunctionTable.ofScripts scripts = .ok table ∧ table.Holds (allFound scripts) ∧
        ∀ r, Gives scripts r ↔ r = .ok table := by
  intro scripts
  have hadd : GlobalScript.functions (declaring "gml_Script_add" "add") =
      .ok [("add", "gml_Script_add")] := by rfl
  have hsub : GlobalScript.functions (declaring "gml_Script_sub" "sub") =
      .ok [("sub", "gml_Script_sub")] := by rfl
  have hscan : Scannable scripts := by
    intro code hc
    rcases List.mem_pair.mp hc with rfl | rfl
    · exact ⟨_, hadd⟩
    · exact ⟨_, hsub⟩
  have hfound : allFound scripts = [("add", "gml_Script_add"), ("sub", "gml_Script_sub")] := by
    simp [allFound, scripts, batchOf_of_ok hadd, batchOf_of_ok hsub]
  have hn : ((allFound scripts).map Prod.fst).Nodup := by rw [hfound]; decide
  have he : ((allFound scripts).map Prod.snd).Nodup := by rw [hfound]; decide
  exact ⟨hscan, hn, he, (scan_any_schedule scripts).2.2.2 hscan hn he⟩

end Prescan

end GmlLift
