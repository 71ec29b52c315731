import GmlLift.Naming.Load
import GmlLift.Proofs.Except
import Mathlib.Logic.Basic
import Mathlib.Tactic.Choose

/-! # Descriptions of rules and the names they refer to

Reading a description looks names up one after the other and puts the rules it finds together. That
is a `Plan`: which names are asked for and whether the description is well-formed does not depend on
how names are looked up. -/
namespace GmlLift.RuleLoad

open Json (Value)

/-! ## Well-formed descriptions -/

/-- What an object describes, by its kind. -/
inductive Parts where
  | values (v : Value)
  | members (xs : List Value)
  | element (x : Value)
  | test

def partsOf? (kind : String) (fields : List (String × Value)) : Option Parts :=
  if kind ∈ ["Enum", "Constants"] then (fields.lookup "Values").map .values
  else if kind ∈ ["Union", "Intersect"] then
    ((fields.lookup "Types").bind Value.array?).map .members
  else if kind = "ArrayInit" then (fields.lookup "Type").map .element
  else if kind ∈ ["Match", "MatchNot"] then some .test
  else none

def parts? (fields : List (String × Value)) : Option Parts :=
  ((fields.lookup "MacroType").bind Value.string?).bind fun kind => partsOf? kind fields

/-- The named numbers of an object: in its field `Values` or in itself. -/
def valueFields? (v : Value) : Option (List (String × Value)) :=
  v.object?.bind fun fields => match fields.lookup "Values" with
    | none => some fields
    | some inner => inner.object?

/-- A number has a name, or a name has a number. -/
def NamesNumber (key : String) (x : Value) : Prop :=
  if (Text.readInt 64 key.toList).isSome then x.string?.isSome = true else x.int?.isSome = true

def NamesNumbers (v : Value) : Prop :=
  ∃ fields, valueFields? v = some fields ∧ ∀ f ∈ fields, NamesNumber f.1 f.2

/-- The description says what it describes, in all its parts. -/
inductive WellFormed : Value → Prop where
  | name (n : String) : WellFormed (.string n)
  | arguments {xs : List Value} (h : ∀ x ∈ xs, x ≠ .null → WellFormed x) : WellFormed (.array xs)
  | values {fields : List (String × Value)} {v : Value} (hp : parts? fields = some (.values v))
    (h : NamesNumbers v) : WellFormed (.object fields)
  | members {fields : List (String × Value)} {xs : List Value}
    (hp : parts? fields = some (.members xs)) (h : ∀ x ∈ xs, WellFormed x) :
    WellFormed (.object fields)
  | element {fields : List (String × Value)} {x : Value}
    (hp : parts? fields = some (.element x)) (h : WellFormed x) : WellFormed (.object fields)
  | test {fields : List (String × Value)} (hp : parts? fields = some .test) :
    WellFormed (.object fields)

/-- The description refers to the rule of a name. -/
inductive Refers : Value → String → Prop where
  | name (n : String) : Refers (.string n) n
  | argument {xs : List Value} {x : Value} {n : String} (hx : x ∈ xs) (h : Refers x n) :
    Refers (.array xs) n
  | member {fields : List (String × Value)} {xs : List Value} {x : Value} {n : String}
    (hp : parts? fields = some (.members xs)) (hx : x ∈ xs) (h : Refers x n) :
    Refers (.object fields) n
  | element {fields : List (String × Value)} {x : Value} {n : String}
    (hp : parts? fields = some (.element x)) (h : Refers x n) : Refers (.object fields) n

/-! ## Plans -/

/-- A computation that asks for the rules of names, one after the other. -/
inductive Plan (α : Type) where
  | done (a : α)
  | fail (error : RuleError)
  | ask (name : String) (next : Rule → Plan α)

namespace Plan

variable {α β : Type}

def bind : Plan α → (α → Plan β) → Plan β
  | done a, f => f a
  | fail error, _ => fail error
  | ask name next, f => ask name fun rule => (next rule).bind f

/-- Carry the plan out. -/
def run (refer : String → Load Rule) : Plan α → Load α
  | done a => pure a
  | fail error => throw error
  | ask name next => do run refer (next (← refer name))

/-- What comes of the plan when names are looked up in a finished table. -/
def answer (look : String → Option Rule) : Plan α → Option α
  | done a => some a
  | fail _ => none
  | ask name next => (look name).bind fun rule => answer look (next rule)

/-- The plan may ask for the name. -/
inductive Asks : Plan α → String → Prop where
  | now {name : String} {next : Rule → Plan α} : Asks (ask name next) name
  | later {name n : String} {next : Rule → Plan α} (rule : Rule) (h : Asks (next rule) n) :
    Asks (ask name next) n

/-- The plan does not fail by itself. -/
def Total : Plan α → Prop
  | done _ => True
  | fail _ => False
  | ask _ next => ∀ rule, Total (next rule)

theorem run_bind (refer : String → Load Rule) (p : Plan α) (f : α → Plan β) :
    (p.bind f).run refer = p.run refer >>= fun a => (f a).run refer := by
  induction p with
  | done a => rw [bind, run, pure_bind]
  | fail error => rfl
  | ask name next ih => simp only [bind, run, bind_assoc, ih]

theorem answer_bind (look : String → Option Rule) (p : Plan α) (f : α → Plan β) :
    (p.bind f).answer look = (p.answer look).bind fun a => (f a).answer look := by
  induction p with
  | done a => rfl
  | fail error => rfl
  | ask name next ih => simp only [bind, answer, ih, Option.bind_assoc]

theorem asks_bind {p : Plan α} {f : α → Plan β} {n : String} (h : (p.bind f).Asks n) :
    p.Asks n ∨ ∃ a, (f a).Asks n := by
  induction p with
  | done a => exact .inr ⟨a, h⟩
  | fail error => cases h
  | ask name next ih =>
    cases h with
    | now => exact .inl .now
    | later rule h => exact (ih rule h).imp_left (.later rule)

theorem Total.bind {p : Plan α} {f : α → Plan β} (hp : p.Total) (hf : ∀ a, (f a).Total) :
    (p.bind f).Total := by
  induction p with
  | done a => exact hf a
  | fail error => cases hp
  | ask name next ih => exact fun rule => ih rule (hp rule)

/-- The plan is what a computation in a context does, which asks for the names that something refers
to and fails by itself unless this is well-formed. -/
structure Describes (context : String) (p : Plan α)
    (x : (String → String → Load Rule) → Load α) (formed : Prop) (refers : String → Prop) :
    Prop where
  run_eq : ∀ refer, x refer = p.run (refer context)
  asks : ∀ n, p.Asks n → refers n
  answered : ∀ look a, p.answer look = some a → formed ∧ ∀ n, refers n → (look n).isSome = true
  total : formed → p.Total

end Plan

/-- Some plan describes the computation. -/
def Planned {α : Type} (context : String) (x : (String → String → Load Rule) → Load α)
    (formed : Prop) (refers : String → Prop) : Prop :=
  ∃ p : Plan α, p.Describes context x formed refers

namespace Planned

variable {α β : Type} {context : String} {x : (String → String → Load Rule) → Load α}
  {formed formed' : Prop} {refers refers' : String → Prop}

theorem done (a : α) (hf : formed) (hr : ∀ n, ¬ refers n) :
    Planned context (fun _ => pure a) formed refers :=
  ⟨.done a, ⟨fun _ => rfl, fun _ h => (by cases h), fun _ _ _ => ⟨hf, fun n h => (hr n h).elim⟩,
    fun _ => trivial⟩⟩

theorem fail (error : RuleError) (hf : ¬ formed) :
    Planned context (fun _ => (throw error : Load α)) formed refers :=
  ⟨.fail error, ⟨fun _ => rfl, fun _ h => (by cases h), fun _ _ h => (by cases h),
    fun h => (hf h).elim⟩⟩

theorem ask (name : String) :
    Planned context (fun refer => refer context name) True (· = name) := by
  refine ⟨.ask name .done, ⟨fun refer => ?_, ?_, ?_, fun _ _ => trivial⟩⟩
  · simp [Plan.run]
  · intro n h
    cases h with
    | now => rfl
    | later rule h => cases h
  · intro look a h
    refine ⟨trivial, fun n hn => ?_⟩
    obtain ⟨rule, hrule, -⟩ := Option.bind_eq_some_iff.mp h
    rw [hn, hrule]
    rfl

theorem congr (h : Planned context x formed refers) (hf : formed ↔ formed')
    (hr : ∀ n, refers n ↔ refers' n) : Planned context x formed' refers' := by
  obtain ⟨p, hp⟩ := h
  exact ⟨p, ⟨hp.run_eq, fun n h => (hr n).mp (hp.asks n h),
    fun look a h => ⟨hf.mp (hp.answered look a h).1,
      fun n hn => (hp.answered look a h).2 n ((hr n).mpr hn)⟩, fun h => hp.total (hf.mpr h)⟩⟩

theorem bind {y : α → (String → String → Load Rule) → Load β}
    (hx : Planned context x formed refers) (hy : ∀ a, Planned context (y a) formed' refers') :
    Planned context (fun refer => x refer >>= fun a => y a refer) (formed ∧ formed')
      fun n => refers n ∨ refers' n := by
  obtain ⟨p, hp⟩ := hx
  choose q hq using hy
  refine ⟨p.bind q, ⟨fun refer => ?_, ?_, ?_, ?_⟩⟩
  · simp only [Plan.run_bind, hp.run_eq, fun a => (hq a).run_eq]
  · intro n h
    rcases Plan.asks_bind h with h | ⟨a, h⟩
    · exact .inl (hp.asks n h)
    · exact .inr ((hq a).asks n h)
  · intro look b h
    rw [Plan.answer_bind] at h
    obtain ⟨a, ha, hb⟩ := Option.bind_eq_some_iff.mp h
    obtain ⟨hf, hr⟩ := hp.answered look a ha
    obtain ⟨hf', hr'⟩ := (hq a).answered look b hb
    exact ⟨⟨hf, hf'⟩, fun n hn => hn.elim (hr n) (hr' n)⟩
  · exact fun ⟨hf, hf'⟩ => (hp.total hf).bind fun a => (hq a).total hf'

theorem map (f : α → β) (h : Planned context x formed refers) :
    Planned context (fun refer => x refer >>= fun a => pure (f a)) formed refers :=
  (h.bind fun a => done (f a) trivial fun _ => not_false).congr (and_iff_left trivial)
    fun _ => or_iff_left not_false

/-- Something that is there is put to use, or an error is reported. -/
theorem need {o : Option α} {error : RuleError} {y : α → (String → String → Load Rule) → Load β}
    (hnone : o = none → ¬ formed) (hsome : ∀ a, o = some a → Planned context (y a) formed refers) :
    Planned context (fun refer => RuleLoad.need error o >>= fun a => y a refer) formed refers := by
  cases o with
  | none => exact fail error (hnone rfl)
  | some a => exact hsome a rfl

end Planned

theorem members_planned {context : String} {xs : List Value}
    (h : ∀ x ∈ xs, Planned context (fun refer => description refer context x) (WellFormed x)
      (Refers x)) :
    Planned context (fun refer => members refer context xs) (∀ x ∈ xs, WellFormed x)
      fun n => ∃ x ∈ xs, Refers x n := by
  induction xs with
  | nil => exact .done [] (by simp) (by simp)
  | cons x xs ih =>
    obtain ⟨hx, hxs⟩ := List.forall_mem_cons.mp h
    simp only [members]
    exact (hx.bind fun rule => (ih hxs).map fun rest => rule :: rest).congr
      List.forall_mem_cons.symm fun n => by simp

theorem optional_planned {context : String} {xs : List Value}
    (h : ∀ x ∈ xs, Planned context (fun refer => description refer context x) (WellFormed x)
      (Refers x)) :
    Planned context (fun refer => optional refer context xs) (∀ x ∈ xs, x ≠ .null → WellFormed x)
      fun n => ∃ x ∈ xs, Refers x n := by
  induction xs with
  | nil => exact .done [] (by simp) (by simp)
  | cons x xs ih =>
    obtain ⟨hx, hxs⟩ := List.forall_mem_cons.mp h
    by_cases hnull : x = .null
    · subst hnull
      simp only [optional]
      refine ((ih hxs).map fun rest => none :: rest).congr (by simp) fun n => ?_
      have hno : ¬ Refers .null n := fun h => by cases h
      simp [hno]
    · have heq (refer : String → String → Load Rule) : optional refer context (x :: xs) =
          description refer context x >>= fun rule => optional refer context xs >>= fun rest =>
            pure (some rule :: rest) := by
        rw [optional]
        exact fun h => hnull h
      simp only [heq]
      exact (hx.bind fun rule => (ih hxs).map fun rest => some rule :: rest).congr
        (by simp [hnull]) fun n => by simp

theorem exists_entry_iff {context key : String} {x : Value} :
    (∃ e, entry context key x = .ok e) ↔ NamesNumber key x := by
  rw [entry, NamesNumber]
  cases Text.readInt 64 key.toList with
  | some n => cases x.string? <;> simp
  | none => cases x.int? <;> simp

theorem exists_values_iff {context : String} {v : Value} :
    (∃ t, values context v = .ok t) ↔ NamesNumbers v := by
  have hentries (fields : List (String × Value)) :
      (∃ t, (fields.mapM (fun f => entry context f.1 f.2) >>= fun entries =>
        (pure (Table.ofList entries) : Except RuleError (Table Int String))) = .ok t) ↔
        ∀ f ∈ fields, NamesNumber f.1 f.2 := by
    simp only [← @exists_entry_iff context, ← exists_mapM_iff]
    constructor
    · rintro ⟨t, h⟩
      obtain ⟨entries, hentries, -⟩ := ok_of_bind h
      exact ⟨entries, hentries⟩
    · rintro ⟨entries, hentries⟩
      exact ⟨Table.ofList entries, by rw [hentries]; rfl⟩
  have hno (e : RuleError) : ¬ ∃ t : Table Int String, (throw e : Except RuleError _) = .ok t :=
    fun ⟨_, h⟩ => by cases h
  rw [values, NamesNumbers, valueFields?]
  cases v.object? with
  | none => exact iff_of_false (hno _) fun ⟨_, h, _⟩ => by cases h
  | some fields =>
    dsimp only
    rw [Option.bind_some]
    cases fields.lookup "Values" with
    | none => simpa using hentries fields
    | some inner =>
      dsimp only
      cases inner.object? with
      | none => exact iff_of_false (hno _) fun ⟨_, h, _⟩ => by cases h
      | some fields => simpa using hentries fields

theorem values_planned {context : String} (v : Value) :
    Planned context (fun _ => (liftM (values context v) : Load (Table Int String)))
      (NamesNumbers v) fun _ => False := by
  cases h : values context v with
  | ok t => exact .done t (exists_values_iff.mp ⟨t, h⟩) fun _ => not_false
  | error e =>
    refine .fail e fun hv => ?_
    obtain ⟨t, ht⟩ := exists_values_iff.mpr hv
    cases h.symm.trans ht

/-! ## The plan of a description -/

theorem membersIn_eq {refer : String → String → Load Rule} {context : String}
    {fields : List (String × Value)} {v : Value} (h : fields.lookup "Types" = some v) :
    membersIn refer context fields = match v.array? with
      | some xs => members refer context xs
      | none => throw (.malformed context .membersNotArray) := by
  induction fields with
  | nil => cases h
  | cons f fields ih =>
    obtain ⟨key, x⟩ := f
    by_cases hkey : key = "Types"
    · subst hkey
      cases (List.lookup_cons_self ..).symm.trans h
      cases v with
      | array xs => rw [membersIn, if_pos rfl]; rfl
      | _ => simp [membersIn, Value.array?]
    · rw [List.lookup_cons, beq_false_of_ne (Ne.symm hkey)] at h
      rw [← ih h]
      cases x <;> simp only [membersIn, if_neg hkey]

theorem elementIn_eq {refer : String → String → Load Rule} {context : String}
    {fields : List (String × Value)} {v : Value} (h : fields.lookup "Type" = some v) :
    elementIn refer context fields = description refer context v := by
  induction fields with
  | nil => cases h
  | cons f fields ih =>
    obtain ⟨key, x⟩ := f
    by_cases hkey : key = "Type"
    · subst hkey
      cases (List.lookup_cons_self ..).symm.trans h
      rw [elementIn, if_pos rfl]
    · rw [List.lookup_cons, beq_false_of_ne (Ne.symm hkey)] at h
      rw [elementIn, if_neg hkey, ih h]

theorem wellFormed_object_iff {fields : List (String × Value)} :
    WellFormed (.object fields) ↔ ∃ ps, parts? fields = some ps ∧ match ps with
      | .values v => NamesNumbers v
      | .members xs => ∀ x ∈ xs, WellFormed x
      | .element x => WellFormed x
      | .test => True := by
  constructor
  · intro h
    cases h with
    | values hp h | members hp h | element hp h => exact ⟨_, hp, h⟩
    | test hp => exact ⟨_, hp, trivial⟩
  · rintro ⟨ps, hp, h⟩
    cases ps with
    | values v => exact .values hp h
    | members xs => exact .members hp h
    | element x => exact .element hp h
    | test => exact .test hp

theorem refers_object_iff {fields : List (String × Value)} {n : String} :
    Refers (.object fields) n ↔ ∃ ps, parts? fields = some ps ∧ match ps with
      | .values _ | .test => False
      | .members xs => ∃ x ∈ xs, Refers x n
      | .element x => Refers x n := by
  constructor
  · intro h
    cases h with
    | member hp hx h => exact ⟨_, hp, _, hx, h⟩
    | element hp h => exact ⟨_, hp, h⟩
  · rintro ⟨ps, hp, h⟩
    cases ps with
    | values v | test => cases h
    | members xs => obtain ⟨x, hx, h⟩ := h; exact .member hp hx h
    | element x => exact .element hp h

theorem sizeOf_lookup_lt {fields : List (String × Value)} {key : String} {v : Value}
    (h : fields.lookup key = some v) : sizeOf v < sizeOf (Value.object fields) := by
  induction fields with
  | nil => cases h
  | cons f fields ih =>
    obtain ⟨k, x⟩ := f
    rw [List.lookup_cons] at h
    simp only [Value.object.sizeOf_spec, List.cons.sizeOf_spec, Prod.mk.sizeOf_spec] at ih ⊢
    split at h
    · cases h
      omega
    · have := ih h
      omega

section

variable {context : String} {fields : List (String × Value)}

theorem not_wellFormed_of_parts? (h : parts? fields = none) : ¬ WellFormed (.object fields) := by
  rw [wellFormed_object_iff, h]
  rintro ⟨ps, hps, -⟩
  cases hps

theorem values_parts_planned {α : Type} {x : (String → String → Load Rule) → Load α} {v : Value}
    (hp : parts? fields = some (.values v))
    (h : Planned context x (NamesNumbers v) fun _ => False) :
    Planned context x (WellFormed (.object fields)) (Refers (.object fields)) :=
  h.congr (by simp [wellFormed_object_iff, hp]) fun n => by simp [refers_object_iff, hp]

theorem members_parts_planned {f : List Rule → Rule} {v : Value}
    (hv : fields.lookup "Types" = some v)
    (hp : parts? fields = v.array?.map .members)
    (h : ∀ x, sizeOf x < sizeOf (Value.object fields) →
      Planned context (fun refer => description refer context x) (WellFormed x) (Refers x)) :
    Planned context (fun refer => membersIn refer context fields >>= fun ms => pure (f ms))
      (WellFormed (.object fields)) (Refers (.object fields)) := by
  simp only [membersIn_eq hv]
  cases hxs : v.array? with
  | none => exact .fail _ (not_wellFormed_of_parts? (by rw [hp, hxs]; rfl))
  | some xs =>
    rw [hxs, Option.map_some] at hp
    have hsize (x : Value) (hx : x ∈ xs) : sizeOf x < sizeOf (Value.object fields) := by
      have hv' : v = .array xs := by cases v <;> cases hxs; rfl
      have h1 := sizeOf_lookup_lt hv
      have h2 := List.sizeOf_lt_of_mem hx
      rw [hv', Value.array.sizeOf_spec] at h1
      omega
    exact ((members_planned fun x hx => h x (hsize x hx)).map f).congr
      (by simp [wellFormed_object_iff, hp]) fun n => by simp [refers_object_iff, hp]

/-- An object is read by its kind: its parts are read, or it is not well-formed. -/
theorem object_planned
    (h : ∀ x, sizeOf x < sizeOf (Value.object fields) →
      Planned context (fun refer => description refer context x) (WellFormed x) (Refers x)) :
    Planned context (fun refer => description refer context (.object fields))
      (WellFormed (.object fields)) (Refers (.object fields)) := by
  simp only [description]
  refine .need (fun hk => not_wellFormed_of_parts? (by rw [parts?, hk]; rfl)) fun kind hk => ?_
  have hparts : parts? fields = partsOf? kind fields := by rw [parts?, hk]; rfl
  split_ifs with h1 h2 h3 h4 h5 h6 h7
  · refine .need (fun hv => not_wellFormed_of_parts? (by simp [hparts, partsOf?, h1, hv]))
      fun v hv => ?_
    exact values_parts_planned (by simp [hparts, partsOf?, h1, hv]) ((values_planned v).map _)
  · refine .need (fun hv => not_wellFormed_of_parts? (by simp [hparts, partsOf?, h2, hv]))
      fun v hv => ?_
    exact values_parts_planned (by simp [hparts, partsOf?, h2, hv]) ((values_planned v).map _)
  · refine .need (fun hv => not_wellFormed_of_parts? (by simp [hparts, partsOf?, h3, hv]))
      fun v hv => ?_
    exact members_parts_planned hv (by simp [hparts, partsOf?, h3, hv]) h
  · refine .need (fun hv => not_wellFormed_of_parts? (by simp [hparts, partsOf?, h4, hv]))
      fun v hv => ?_
    exact members_parts_planned hv (by simp [hparts, partsOf?, h4, hv]) h
  · refine .need (fun hv => not_wellFormed_of_parts? (by simp [hparts, partsOf?, h5, hv]))
      fun x hx => ?_
    have hp : parts? fields = some (.element x) := by simp [hparts, partsOf?, h5, hx]
    simp only [elementIn_eq hx]
    exact ((h x (sizeOf_lookup_lt hx)).map Rule.items).congr (by simp [wellFormed_object_iff, hp])
      fun n => by simp [refers_object_iff, hp]
  · have hp : parts? fields = some .test := by simp [hparts, partsOf?, h6]
    exact .done _ (.test hp) fun n => by simp [refers_object_iff, hp]
  · have hp : parts? fields = some .test := by simp [hparts, partsOf?, h7]
    exact .done _ (.test hp) fun n => by simp [refers_object_iff, hp]
  · exact .fail _ (not_wellFormed_of_parts?
      (by simp [hparts, partsOf?, h1, h2, h3, h4, h5, h6, h7]))

end

theorem refers_array_iff {xs : List Value} {n : String} :
    Refers (.array xs) n ↔ ∃ x ∈ xs, Refers x n :=
  ⟨fun h => by cases h with | argument hx h => exact ⟨_, hx, h⟩,
    fun ⟨_, hx, h⟩ => .argument hx h⟩

theorem wellFormed_array_iff {xs : List Value} :
    WellFormed (.array xs) ↔ ∀ x ∈ xs, x ≠ .null → WellFormed x :=
  ⟨fun h => by cases h with | arguments h => exact h, .arguments⟩

/-- What reading a description does: it asks for the names that the description refers to and fails
by itself unless the description is well-formed. -/
theorem description_planned (context : String) (v : Value) :
    Planned context (fun refer => description refer context v) (WellFormed v) (Refers v) := by
  induction h : sizeOf v using Nat.strongRecOn generalizing v with
  | ind size ih =>
    subst h
    have ih (x : Value) (hx : sizeOf x < sizeOf v) := ih _ hx x rfl
    cases v with
    | string n =>
      simp only [description]
      refine (Planned.ask n).congr (iff_of_true trivial (.name n)) fun m => ?_
      exact ⟨fun h => h ▸ .name n, fun h => by cases h; rfl⟩
    | array xs =>
      simp only [description]
      have hsize (x : Value) (hx : x ∈ xs) : sizeOf x < sizeOf (Value.array xs) := by
        have := List.sizeOf_lt_of_mem hx
        rw [Value.array.sizeOf_spec]
        omega
      exact ((optional_planned fun x hx => ih x (hsize x hx)).map Rule.arguments).congr
        wellFormed_array_iff.symm fun n => refers_array_iff.symm
    | object fields => exact object_planned ih
    | null | bool b | number n =>
      simp only [description]
      exact .fail _ fun h => by cases h

end GmlLift.RuleLoad
