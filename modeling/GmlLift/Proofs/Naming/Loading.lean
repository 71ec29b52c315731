import GmlLift.Proofs.Naming.Descriptions
import GmlLift.Proofs.Table
import Mathlib.Data.List.Perm.Subperm
import Mathlib.Logic.Relation
import Mathlib.Order.WellFounded

/-! # Loading descriptions that refer to each other

The names may be visited in any order. Loading succeeds exactly if every description is well-formed,
refers to names that there are and does not come back to itself; the rules are then the same in
every order. The bound on the depth of references is never what ends a search. -/
namespace GmlLift.RuleLoad

open Json (Value)

variable {raw : Table String Value} {known : Table String Rule}

/-- The name has a description, and no rule from before hides it. -/
def Described (raw : Table String Value) (known : Table String Rule) (name : String) (v : Value) :
    Prop :=
  raw.get? name = some v ∧ known.get? name = none

/-- The description of one name refers to another name that is described. -/
def Leads (raw : Table String Value) (known : Table String Rule) (a b : String) : Prop :=
  ∃ v w, Described raw known a v ∧ Refers v b ∧ Described raw known b w

/-- What descriptions must be to be loaded. -/
structure Resolvable (raw : Table String Value) (known : Table String Rule) : Prop where
  formed : ∀ {name v}, Described raw known name v → WellFormed v
  closed : ∀ {name v n}, Described raw known name v → Refers v n →
    (known.get? n).isSome = true ∨ (raw.get? n).isSome = true
  acyclic : ∀ name, ¬ Relation.TransGen (Leads raw known) name name

/-! ## Plans carried out on a state -/

/-- The plan by which a description is read. -/
noncomputable def planOf (context : String) (v : Value) : Plan Rule :=
  (description_planned context v).choose

theorem planOf_describes (context : String) (v : Value) :
    (planOf context v).Describes context (fun refer => description refer context v)
      (WellFormed v) (Refers v) :=
  (description_planned context v).choose_spec

/-- One table has all rules of another. -/
def Within (t u : Table String Rule) : Prop := ∀ n r, t.get? n = some r → u.get? n = some r

theorem Within.trans {t u v : Table String Rule} (h : Within t u) (h' : Within u v) : Within t v :=
  fun n r hr => h' n r (h n r hr)

namespace Plan

variable {α : Type}

theorem answer_mono {p : Plan α} {t u : Table String Rule} {a : α} (h : Within t u)
    (ha : p.answer t.get? = some a) : p.answer u.get? = some a := by
  induction p with
  | done b => exact ha
  | fail error => cases ha
  | ask name next ih =>
    obtain ⟨rule, hrule, ha⟩ := Option.bind_eq_some_iff.mp ha
    exact Option.bind_eq_some_iff.mpr ⟨rule, h name rule hrule, ih rule ha⟩

theorem answer_congr {p : Plan α} {look look' : String → Option Rule}
    (h : ∀ n, p.Asks n → look n = look' n) : p.answer look = p.answer look' := by
  induction p with
  | done b => rfl
  | fail error => rfl
  | ask name next ih =>
    rw [answer, answer, h name .now]
    exact Option.bind_congr fun rule _ => ih rule fun n hn => h n (.later rule hn)

/-- A run in which every look-up keeps an invariant keeps it, and its result is the answer in the
table that it ends with. -/
theorem run_ok {p : Plan α} {refer : String → Load Rule} {I : State → Prop}
    (hstep : ∀ n s r s', I s → refer n s = .ok (r, s') →
      I s' ∧ Within s.resolved s'.resolved ∧ s'.resolved.get? n = some r)
    {s s' : State} {a : α} (hs : I s) (h : p.run refer s = .ok (a, s')) :
    I s' ∧ Within s.resolved s'.resolved ∧ p.answer s'.resolved.get? = some a := by
  induction p generalizing s with
  | done b =>
    cases h
    exact ⟨hs, fun _ _ h => h, rfl⟩
  | fail error => cases h
  | ask name next ih =>
    obtain ⟨⟨r, s₁⟩, hr, h⟩ := ok_of_bind h
    obtain ⟨hs₁, hin, hget⟩ := hstep name s r s₁ hs hr
    obtain ⟨hs', hin', ha⟩ := ih r hs₁ h
    exact ⟨hs', hin.trans hin', Option.bind_eq_some_iff.mpr ⟨r, hin' name r hget, ha⟩⟩

/-- A plan that does not fail by itself succeeds if its look-ups do. -/
theorem exists_run {p : Plan α} (hp : p.Total) {refer : String → Load Rule} {I : State → Prop}
    (hstep : ∀ n s, p.Asks n → I s → ∃ r s', refer n s = .ok (r, s') ∧ I s') {s : State}
    (hs : I s) : ∃ a s', p.run refer s = .ok (a, s') := by
  induction p generalizing s with
  | done b => exact ⟨b, s, rfl⟩
  | fail error => cases hp
  | ask name next ih =>
    obtain ⟨r, s₁, hr, hs₁⟩ := hstep name s .now hs
    obtain ⟨a, s', h⟩ := ih r (hp r) (fun n s hn => hstep n s (.later r hn)) hs₁
    refine ⟨a, s', ?_⟩
    change (refer name s >>= fun x => (next x.1).run refer x.2) = _
    rw [hr]
    exact h

/-- Look-ups that agree make plans agree. -/
theorem run_congr {p : Plan α} {refer refer' : String → Load Rule} {I : State → Prop}
    (hstep : ∀ n s, I s → refer n s = refer' n s ∧ ∀ r s', refer n s = .ok (r, s') → I s')
    {s : State} (hs : I s) : p.run refer s = p.run refer' s := by
  induction p generalizing s with
  | done b => rfl
  | fail error => rfl
  | ask name next ih =>
    obtain ⟨heq, hkeeps⟩ := hstep name s hs
    change (refer name s >>= fun x => (next x.1).run refer x.2) =
      (refer' name s >>= fun x => (next x.1).run refer' x.2)
    rw [← heq]
    cases hr : refer name s with
    | error e => rfl
    | ok x => exact ih x.1 (hkeeps x.1 x.2 hr)

end Plan

/-! ## Looking a name up -/

/-- The state in which the description of a name is read. -/
def State.enter (s : State) (name : String) : State := { s with resolving := name :: s.resolving }

/-- The state after the description of a name has been read. -/
def State.leave (s : State) (name : String) (rule : Rule) : State :=
  { resolved := s.resolved.insert name rule, resolving := s.resolving.erase name }

theorem get_bind {α : Type} (f : State → Load α) (s : State) :
    ((get : Load State) >>= f) s = f s s := rfl

theorem named_of_resolved {fuel : Nat} {context name : String} {s : State} {r : Rule}
    (h : s.resolved.get? name = some r) : named raw fuel context name s = .ok (r, s) := by
  cases fuel with
  | zero => rw [named, get_bind, h]; rfl
  | succ fuel => rw [named, get_bind, h]; rfl

theorem named_of_unresolved {fuel : Nat} {context name : String} {s : State}
    (h : s.resolved.get? name = none) : named raw fuel context name s =
      match raw.get? name with
      | none => .error (.unknownReference context name)
      | some v => if s.resolving.contains name then .error (.unknownReference context name) else
        match fuel with
        | 0 => .error (.unknownReference context name)
        | fuel + 1 => description (named raw fuel) name v (s.enter name) >>= fun x =>
          .ok (x.1, x.2.leave name x.1) := by
  cases fuel with
  | zero =>
    rw [named, get_bind, h]
    cases raw.get? name with
    | none => rfl
    | some v => cases hc : s.resolving.contains name <;> rfl
  | succ fuel =>
    rw [named, get_bind, h]
    cases raw.get? name with
    | none => rfl
    | some v =>
      cases hc : s.resolving.contains name <;> rfl

/-! ## What loading keeps -/

/-- A table of rules that have been there from the start or are what their descriptions say. No
chain of references from one of them goes on forever. -/
structure Loaded (raw : Table String Value) (known t : Table String Rule) : Prop where
  keeps : Within known t
  read : ∀ n r, t.get? n = some r → known.get? n = none →
    ∃ v, raw.get? n = some v ∧ (planOf n v).answer t.get? = some r
  grounded : ∀ n r, t.get? n = some r → Acc (flip (Leads raw known)) n

/-- Names whose descriptions are being read have descriptions, but no rules yet. -/
structure Valid (raw : Table String Value) (known : Table String Rule) (s : State) : Prop where
  loaded : Loaded raw known s.resolved
  unread : ∀ n ∈ s.resolving, s.resolved.get? n = none
  described : ∀ n ∈ s.resolving, (raw.get? n).isSome = true
  nodup : s.resolving.Nodup

theorem loaded_known (raw : Table String Value) (known : Table String Rule) :
    Loaded raw known known where
  keeps _ _ h := h
  read n r h hn := by rw [hn] at h; cases h
  grounded n r h := ⟨n, fun m hm => by
    obtain ⟨v, w, hv, -, -⟩ := hm
    cases hv.2.symm.trans h⟩

theorem valid_start (raw : Table String Value) (known : Table String Rule) :
    Valid raw known { resolved := known } :=
  ⟨loaded_known raw known, by simp, by simp, .nil⟩

/-- What a rule that has been read says of its description. -/
theorem Loaded.formed {t : Table String Rule} (h : Loaded raw known t) {n : String} {r : Rule}
    {v : Value} (hr : t.get? n = some r) (hv : Described raw known n v) :
    WellFormed v ∧ ∀ m, Refers v m → (t.get? m).isSome = true := by
  obtain ⟨w, hw, ha⟩ := h.read n r hr hv.2
  cases hv.1.symm.trans hw
  exact (planOf_describes n v).answered _ _ ha

theorem within_insert {t : Table String Rule} {name : String} (r : Rule)
    (h : t.get? name = none) : Within t (t.insert name r) := by
  intro n r' hn
  rwa [Table.get?_insert_of_ne]
  rintro rfl
  cases h.symm.trans hn

theorem Loaded.insert {t : Table String Rule} (h : Loaded raw known t) {name : String} {r : Rule}
    {v : Value} (hnone : t.get? name = none) (hv : raw.get? name = some v)
    (ha : (planOf name v).answer t.get? = some r) : Loaded raw known (t.insert name r) := by
  have hin := within_insert r hnone
  have hcases {n : String} {r' : Rule} (hn : (t.insert name r).get? n = some r') :
      n = name ∧ r' = r ∨ t.get? n = some r' := by
    by_cases hname : n = name
    · subst hname
      rw [Table.get?_insert_self] at hn
      cases hn
      exact .inl ⟨rfl, rfl⟩
    · exact .inr (by rwa [Table.get?_insert_of_ne _ _ hname] at hn)
  refine ⟨h.keeps.trans hin, fun n r' hn hknown => ?_, fun n r' hn => ?_⟩
  · rcases hcases hn with ⟨rfl, rfl⟩ | hn
    · exact ⟨v, hv, Plan.answer_mono hin ha⟩
    · obtain ⟨w, hw, ha⟩ := h.read n r' hn hknown
      exact ⟨w, hw, Plan.answer_mono hin ha⟩
  · rcases hcases hn with ⟨rfl, rfl⟩ | hn
    · refine ⟨n, fun m hm => ?_⟩
      obtain ⟨w, u, hw, hrefers, -⟩ := hm
      cases hv.symm.trans hw.1
      obtain ⟨-, hrules⟩ := (planOf_describes n v).answered _ _ ha
      obtain ⟨r, hr⟩ := Option.isSome_iff_exists.mp (hrules m hrefers)
      exact h.grounded m r hr
    · exact h.grounded n r' hn

theorem Valid.enter {s : State} (h : Valid raw known s) {name : String} {v : Value}
    (hnone : s.resolved.get? name = none) (hv : raw.get? name = some v)
    (hfree : name ∉ s.resolving) : Valid raw known (s.enter name) where
  loaded := h.loaded
  unread := List.forall_mem_cons.mpr ⟨hnone, h.unread⟩
  described := List.forall_mem_cons.mpr ⟨by rw [hv]; rfl, h.described⟩
  nodup := List.nodup_cons.mpr ⟨hfree, h.nodup⟩

/-- A name without a rule, whose description is not being read, gets one from its description. -/
theorem named_of_described {fuel : Nat} {context name : String} {s : State} {v : Value}
    (hname : s.resolved.get? name = none) (hv : raw.get? name = some v)
    (hfree : name ∉ s.resolving) : named raw (fuel + 1) context name s =
      (planOf name v).run (named raw fuel name) (s.enter name) >>= fun x =>
        .ok (x.1, x.2.leave name x.1) := by
  rw [named_of_unresolved hname, hv, ← (planOf_describes name v).run_eq]
  simp [hfree]

/-- A look-up that succeeds found the rule or has read the description. -/
theorem named_cases {fuel : Nat} {context name : String} {s s' : State} {r : Rule}
    (h : named raw fuel context name s = .ok (r, s')) :
    (s.resolved.get? name = some r ∧ s' = s) ∨
      ∃ fuel' v s₁, fuel = fuel' + 1 ∧ s.resolved.get? name = none ∧ raw.get? name = some v ∧
        name ∉ s.resolving ∧
        description (named raw fuel') name v (s.enter name) = .ok (r, s₁) ∧
        s' = s₁.leave name r := by
  cases hname : s.resolved.get? name with
  | some r' =>
    rw [named_of_resolved hname] at h
    cases h
    exact .inl ⟨rfl, rfl⟩
  | none =>
    rw [named_of_unresolved hname] at h
    split at h
    · cases h
    · rename_i v hv
      split at h
      · cases h
      · rename_i hfree
        cases fuel with
        | zero => cases h
        | succ fuel =>
          obtain ⟨x, hx, h⟩ := ok_of_bind h
          cases h
          exact .inr ⟨fuel, v, x.2, rfl, rfl, hv, by simpa using hfree, hx, rfl⟩

/-- A look-up that succeeds has the rule in the table, and the names being read are the same as
before. -/
theorem named_ok {fuel : Nat} {context name : String} {s s' : State} {r : Rule}
    (hs : Valid raw known s) (h : named raw fuel context name s = .ok (r, s')) :
    (Valid raw known s' ∧ s'.resolving = s.resolving) ∧ Within s.resolved s'.resolved ∧
      s'.resolved.get? name = some r := by
  induction fuel generalizing context name s s' r with
  | zero =>
    rcases named_cases h with ⟨hname, rfl⟩ | ⟨fuel', _, _, hfuel, -⟩
    · exact ⟨⟨hs, rfl⟩, fun _ _ h => h, hname⟩
    · cases hfuel
  | succ fuel ih =>
    rcases named_cases h with ⟨hname, rfl⟩ | ⟨fuel', v, s₁, hfuel, hname, hv, hfree, hd, rfl⟩
    · exact ⟨⟨hs, rfl⟩, fun _ _ h => h, hname⟩
    · cases hfuel
      rw [(planOf_describes name v).run_eq] at hd
      have hstep (n : String) (s₂ : State) (r₂ : Rule) (s₃ : State)
          (hs₂ : Valid raw known s₂ ∧ s₂.resolving = name :: s.resolving)
          (h : named raw fuel name n s₂ = .ok (r₂, s₃)) :
          (Valid raw known s₃ ∧ s₃.resolving = name :: s.resolving) ∧
            Within s₂.resolved s₃.resolved ∧ s₃.resolved.get? n = some r₂ := by
        obtain ⟨⟨hs₃, heq⟩, hin, hget⟩ := ih hs₂.1 h
        exact ⟨⟨hs₃, heq.trans hs₂.2⟩, hin, hget⟩
      obtain ⟨⟨hs₁, heq⟩, hin, ha⟩ := Plan.run_ok hstep ⟨hs.enter hname hv hfree, rfl⟩ hd
      have hunread := hs₁.unread name (by rw [heq]; exact List.mem_cons_self)
      have hnext : Within s.resolved (s₁.leave name r).resolved :=
        Within.trans hin (within_insert r hunread)
      have hleave : (s₁.leave name r).resolving = s.resolving := by
        rw [State.leave, heq, List.erase_cons_head]
      refine ⟨⟨⟨hs₁.loaded.insert hunread hv ha, ?_, ?_, ?_⟩, hleave⟩, hnext,
        Table.get?_insert_self _ _ _⟩
      · intro n hn
        rw [hleave] at hn
        have hne : n ≠ name := fun h => hfree (h ▸ hn)
        rw [State.leave, Table.get?_insert_of_ne _ _ hne]
        exact hs₁.unread n (by rw [heq]; exact List.mem_cons_of_mem _ hn)
      · rw [hleave]
        exact hs.described
      · rw [hleave]
        exact hs.nodup

/-! ## When loading succeeds -/

/-- There are no more names being read than descriptions. -/
theorem Valid.resolving_length {s : State} (h : Valid raw known s) :
    s.resolving.length ≤ raw.size := by
  have hsub : s.resolving ⊆ raw.keys := by
    intro n hn
    obtain ⟨v, hv⟩ := Option.isSome_iff_exists.mp (h.described n hn)
    exact List.mem_map.mpr ⟨(n, v), Table.get?_eq_some_iff.mp hv, rfl⟩
  have hlength := (h.nodup.subperm hsub).length_le
  rwa [Table.keys, List.length_map] at hlength

/-- With enough depth left, a name that comes back to none of those being read is found. -/
theorem exists_named (hr : Resolvable raw known) {fuel : Nat} {context name : String} {s : State}
    (hs : Valid raw known s) (hfuel : raw.size < fuel + s.resolving.length)
    (hname : (known.get? name).isSome = true ∨ (raw.get? name).isSome = true)
    (hleads : ∀ n ∈ s.resolving, known.get? name = none →
      Relation.TransGen (Leads raw known) n name) :
    ∃ r s', named raw fuel context name s = .ok (r, s') := by
  induction fuel generalizing context name s with
  | zero => exact absurd hs.resolving_length (by omega)
  | succ fuel ih =>
    cases hres : s.resolved.get? name with
    | some r => exact ⟨r, s, named_of_resolved hres⟩
    | none =>
      have hknown : known.get? name = none := by
        refine Option.eq_none_iff_forall_ne_some.mpr fun r h => ?_
        cases hres.symm.trans (hs.loaded.keeps name r h)
      rw [hknown] at hname
      obtain ⟨v, hv⟩ := Option.isSome_iff_exists.mp (hname.resolve_left (by simp))
      have hfree : name ∉ s.resolving := fun h => hr.acyclic name (hleads name h hknown)
      have hdescribed : Described raw known name v := ⟨hv, hknown⟩
      have hplan := planOf_describes name v
      have hstep (n : String) (s₁ : State) (hn : (planOf name v).Asks n)
          (hs₁ : Valid raw known s₁ ∧ s₁.resolving = name :: s.resolving) :
          ∃ r s₂, named raw fuel name n s₁ = .ok (r, s₂) ∧ Valid raw known s₂ ∧
            s₂.resolving = name :: s.resolving := by
        have hrefers := hplan.asks n hn
        have hthere := hr.closed hdescribed hrefers
        have hleads' (m : String) (hm : m ∈ s₁.resolving) (hn : known.get? n = none) :
            Relation.TransGen (Leads raw known) m n := by
          obtain ⟨w, hw⟩ := Option.isSome_iff_exists.mp (hthere.resolve_left (by simp [hn]))
          have hlast : Leads raw known name n := ⟨v, w, hdescribed, hrefers, hw, hn⟩
          rw [hs₁.2] at hm
          rcases List.mem_cons.mp hm with rfl | hm
          · exact .single hlast
          · exact (hleads m hm hknown).tail hlast
        have hfuel' : raw.size < fuel + s₁.resolving.length := by
          rw [hs₁.2, List.length_cons]
          omega
        obtain ⟨r, s₂, h⟩ := ih hs₁.1 hfuel' hthere hleads'
        obtain ⟨⟨hs₂, heq⟩, -⟩ := named_ok hs₁.1 h
        exact ⟨r, s₂, h, hs₂, heq.trans hs₁.2⟩
      obtain ⟨r, s₁, h⟩ := Plan.exists_run (hplan.total (hr.formed hdescribed)) hstep
        ⟨hs.enter hres hv hfree, rfl⟩
      exact ⟨r, s₁.leave name r, by rw [named_of_described hres hv hfree, h, ok_bind]⟩

/-- With enough depth left, more depth changes nothing. -/
theorem named_congr {fuel fuel' : Nat} {context name : String} {s : State}
    (hs : Valid raw known s) (hfuel : raw.size < fuel + s.resolving.length)
    (hfuel' : raw.size < fuel' + s.resolving.length) :
    named raw fuel context name s = named raw fuel' context name s := by
  induction fuel generalizing fuel' context name s with
  | zero => exact absurd hs.resolving_length (by omega)
  | succ fuel ih =>
    cases fuel' with
    | zero => exact absurd hs.resolving_length (by omega)
    | succ fuel' =>
      cases hres : s.resolved.get? name with
      | some r => rw [named_of_resolved hres, named_of_resolved hres]
      | none =>
        cases hv : raw.get? name with
        | none => rw [named_of_unresolved hres, named_of_unresolved hres, hv]
        | some v =>
          by_cases hfree : name ∈ s.resolving
          · rw [named_of_unresolved hres, named_of_unresolved hres, hv]
            simp [hfree]
          · rw [named_of_described hres hv hfree, named_of_described hres hv hfree]
            have hstep (n : String) (s₁ : State)
                (hs₁ : Valid raw known s₁ ∧ s₁.resolving = name :: s.resolving) :
                named raw fuel name n s₁ = named raw fuel' name n s₁ ∧
                  ∀ r s₂, named raw fuel name n s₁ = .ok (r, s₂) →
                    Valid raw known s₂ ∧ s₂.resolving = name :: s.resolving := by
              refine ⟨ih hs₁.1 ?_ ?_, fun r s₂ h => ?_⟩
              · rw [hs₁.2, List.length_cons]
                omega
              · rw [hs₁.2, List.length_cons]
                omega
              · obtain ⟨⟨hs₂, heq⟩, -⟩ := named_ok hs₁.1 h
                exact ⟨hs₂, heq.trans hs₁.2⟩
            rw [Plan.run_congr hstep ⟨hs.enter hres hv hfree, rfl⟩]

/-! ## All names -/

/-- The list has exactly the names that have descriptions. -/
def Visits (raw : Table String Value) (order : List String) : Prop :=
  ∀ n, n ∈ order ↔ (raw.get? n).isSome = true

theorem visits_of_perm {order : List String} (h : order.Perm raw.keys) : Visits raw order := by
  intro n
  rw [h.mem_iff, Table.keys, List.mem_map]
  constructor
  · rintro ⟨⟨_, v⟩, hv, rfl⟩
    rw [Table.get?_eq_some_iff.mpr hv]
    rfl
  · intro hn
    obtain ⟨v, hv⟩ := Option.isSome_iff_exists.mp hn
    exact ⟨(n, v), Table.get?_eq_some_iff.mp hv, rfl⟩

/-- Read the descriptions of the names in order, with so much depth for each. -/
def readWithin (raw : Table String Value) (fuel : Nat) : List String → Load Unit
  | [] => return ()
  | name :: rest => do
    let _ ← named raw fuel name name
    readWithin raw fuel rest

theorem readAll_eq (order : List String) :
    readAll raw order = readWithin raw (raw.size + 1) order := by
  induction order with
  | nil => rfl
  | cons name rest ih => rw [readAll, readWithin, ih]; rfl

theorem readWithin_cons (fuel : Nat) (name : String) (rest : List String) (s : State) :
    readWithin raw fuel (name :: rest) s =
      named raw fuel name name s >>= fun x => readWithin raw fuel rest x.2 := rfl

theorem readWithin_ok {fuel : Nat} {order : List String} {s s' : State} (hs : Valid raw known s)
    (h : readWithin raw fuel order s = .ok ((), s')) :
    Valid raw known s' ∧ Within s.resolved s'.resolved ∧
      ∀ n ∈ order, (s'.resolved.get? n).isSome = true := by
  induction order generalizing s with
  | nil =>
    cases h
    exact ⟨hs, fun _ _ h => h, by simp⟩
  | cons name rest ih =>
    rw [readWithin_cons] at h
    obtain ⟨⟨r, s₁⟩, hr, h⟩ := ok_of_bind h
    obtain ⟨⟨hs₁, -⟩, hin, hget⟩ := named_ok hs hr
    obtain ⟨hs', hin', hrest⟩ := ih hs₁ h
    refine ⟨hs', hin.trans hin', List.forall_mem_cons.mpr ⟨?_, hrest⟩⟩
    rw [hin' name r hget]
    rfl

theorem exists_readWithin (hr : Resolvable raw known) {fuel : Nat} (hfuel : raw.size < fuel)
    {order : List String} (horder : ∀ n ∈ order, (raw.get? n).isSome = true) {s : State}
    (hs : Valid raw known s) (hidle : s.resolving = []) :
    ∃ s', readWithin raw fuel order s = .ok ((), s') := by
  induction order generalizing s with
  | nil => exact ⟨s, rfl⟩
  | cons name rest ih =>
    obtain ⟨hname, hrest⟩ := List.forall_mem_cons.mp horder
    have hnamed : ∃ r s₁, named raw fuel name name s = .ok (r, s₁) :=
      exists_named hr hs (Nat.lt_add_right _ hfuel) (.inr hname) (by rw [hidle]; simp)
    obtain ⟨r, s₁, h⟩ := hnamed
    obtain ⟨⟨hs₁, heq⟩, -⟩ := named_ok hs h
    obtain ⟨s', h'⟩ := ih hrest hs₁ (heq.trans hidle)
    exact ⟨s', by rw [readWithin_cons, h]; exact h'⟩

theorem readWithin_congr {fuel fuel' : Nat} (hfuel : raw.size < fuel) (hfuel' : raw.size < fuel')
    (order : List String) {s : State} (hs : Valid raw known s) :
    readWithin raw fuel order s = readWithin raw fuel' order s := by
  induction order generalizing s with
  | nil => rfl
  | cons name rest ih =>
    have hsame : named raw fuel name name s = named raw fuel' name name s :=
      named_congr hs (Nat.lt_add_right _ hfuel) (Nat.lt_add_right _ hfuel')
    rw [readWithin_cons, readWithin_cons, ← hsame]
    cases h : named raw fuel name name s with
    | error e => rfl
    | ok x => exact ih (named_ok hs h).1.1

theorem not_transGen_of_acc {α : Type} {r : α → α → Prop} {a : α} (h : Acc (flip r) a) :
    ¬ Relation.TransGen r a a := by
  induction h with
  | intro a _ ih =>
    intro hcycle
    obtain ⟨b, hab, hba⟩ := Relation.TransGen.head'_iff.mp hcycle
    exact ih b hab (Relation.TransGen.tail' hba hab)

/-- Where all names have rules, the descriptions are resolvable. -/
theorem Loaded.resolvable {t : Table String Rule} (h : Loaded raw known t)
    (hall : ∀ n, (raw.get? n).isSome = true → (t.get? n).isSome = true) :
    Resolvable raw known := by
  have hrule {n : String} {v : Value} (hv : Described raw known n v) : ∃ r, t.get? n = some r :=
    Option.isSome_iff_exists.mp (hall n (by rw [hv.1]; rfl))
  refine ⟨fun hv => ?_, fun {name v n} hv hn => ?_, fun name hcycle => ?_⟩
  · obtain ⟨r, hr⟩ := hrule hv
    exact (h.formed hr hv).1
  · obtain ⟨r, hr⟩ := hrule hv
    obtain ⟨r', hr'⟩ := Option.isSome_iff_exists.mp ((h.formed hr hv).2 n hn)
    cases hknown : known.get? n with
    | some r => exact .inl rfl
    | none =>
      obtain ⟨w, hw, -⟩ := h.read n r' hr' hknown
      exact .inr (by rw [hw]; rfl)
  · obtain ⟨b, ⟨v, -, hv, -⟩, -⟩ := Relation.TransGen.head'_iff.mp hcycle
    obtain ⟨r, hr⟩ := hrule hv
    exact not_transGen_of_acc (h.grounded name r hr) hcycle

/-- Rules for all names can be read in one way only. -/
theorem Loaded.unique {t u : Table String Rule} (ht : Loaded raw known t) (hu : Loaded raw known u)
    (hallt : ∀ n, (raw.get? n).isSome = true → (t.get? n).isSome = true)
    (hallu : ∀ n, (raw.get? n).isSome = true → (u.get? n).isSome = true) : t = u := by
  have hplain (n : String) (hn : ∀ v, ¬ Described raw known n v) : t.get? n = u.get? n := by
    cases hknown : known.get? n with
    | some r => rw [ht.keeps n r hknown, hu.keeps n r hknown]
    | none =>
      have hnone {t : Table String Rule} (ht : Loaded raw known t) : t.get? n = none := by
        refine Option.eq_none_iff_forall_ne_some.mpr fun r hr => ?_
        obtain ⟨v, hv, -⟩ := ht.read n r hr hknown
        exact hn v ⟨hv, hknown⟩
      rw [hnone ht, hnone hu]
  have hgrounded (n : String) (hacc : Acc (flip (Leads raw known)) n) :
      t.get? n = u.get? n := by
    induction hacc with
    | intro n _ ih =>
      by_cases hn : ∃ v, Described raw known n v
      · obtain ⟨v, hv⟩ := hn
        have hthere : (raw.get? n).isSome = true := by rw [hv.1]; rfl
        obtain ⟨r, hr⟩ := Option.isSome_iff_exists.mp (hallt n hthere)
        obtain ⟨r', hr'⟩ := Option.isSome_iff_exists.mp (hallu n hthere)
        obtain ⟨w, hw, ha⟩ := ht.read n r hr hv.2
        obtain ⟨w', hw', ha'⟩ := hu.read n r' hr' hv.2
        cases hv.1.symm.trans hw
        cases hv.1.symm.trans hw'
        have hlooks : (planOf n v).answer t.get? = (planOf n v).answer u.get? := by
          refine Plan.answer_congr fun m hm => ?_
          by_cases hm' : ∃ w, Described raw known m w
          · obtain ⟨w, hw⟩ := hm'
            exact ih m ⟨v, w, hv, (planOf_describes n v).asks m hm, hw⟩
          · exact hplain m (not_exists.mp hm')
        rw [hr, hr', ← ha, ← ha', hlooks]
      · exact hplain n (not_exists.mp hn)
  refine Table.ext_get? fun n => ?_
  by_cases hn : ∃ v, Described raw known n v
  · obtain ⟨v, hv⟩ := hn
    obtain ⟨r, hr⟩ := Option.isSome_iff_exists.mp (hallt n (by rw [hv.1]; rfl))
    exact hgrounded n (ht.grounded n r hr)
  · exact hplain n (not_exists.mp hn)

/-- In whatever order the names are visited, loading succeeds exactly if the descriptions are
resolvable, and the table of rules is the same. Any depth beyond the number of descriptions gives
the same result. -/
theorem readAll_orders (raw : Table String Value) (known : Table String Rule) :
    (∀ order, Visits raw order →
      ((∃ s, readAll raw order { resolved := known } = .ok ((), s)) ↔ Resolvable raw known)) ∧
    (∀ order order' s s', Visits raw order → Visits raw order' →
      readAll raw order { resolved := known } = .ok ((), s) →
      readAll raw order' { resolved := known } = .ok ((), s') → s.resolved = s'.resolved) ∧
    ∀ order fuel, raw.size < fuel →
      readWithin raw fuel order { resolved := known } =
        readAll raw order { resolved := known } := by
  have hstart := valid_start raw known
  have hloaded {order : List String} {s : State} (horder : Visits raw order)
      (h : readAll raw order { resolved := known } = .ok ((), s)) :
      Loaded raw known s.resolved ∧
        ∀ n, (raw.get? n).isSome = true → (s.resolved.get? n).isSome = true := by
    rw [readAll_eq] at h
    obtain ⟨hs, -, hall⟩ := readWithin_ok hstart h
    exact ⟨hs.loaded, fun n hn => hall n ((horder n).mpr hn)⟩
  refine ⟨fun order horder => ⟨?_, fun hr => ?_⟩, ?_, ?_⟩
  · rintro ⟨s, h⟩
    obtain ⟨hs, hall⟩ := hloaded horder h
    exact hs.resolvable hall
  · rw [readAll_eq]
    exact exists_readWithin hr (Nat.lt_succ_self _) (fun n hn => (horder n).mp hn) hstart rfl
  · intro order order' s s' horder horder' h h'
    obtain ⟨hs, hall⟩ := hloaded horder h
    obtain ⟨hs', hall'⟩ := hloaded horder' h'
    exact hs.unique hs' hall hall'
  · intro order fuel hfuel
    rw [readAll_eq, readWithin_congr hfuel (Nat.lt_succ_self _) order hstart]

/-- Two descriptions refer to one that refers to a rule from before. -/
def diamond : Table String Value :=
  .ofList [
    ("Both", .object [("MacroType", .string "Union"),
      ("Types", .array [.string "Flags", .string "Call"])]),
    ("Call", .array [.null, .string "Flag"]),
    ("Flags", .object [("MacroType", .string "ArrayInit"), ("Type", .string "Flag")]),
    ("Flag", .string "Bool")]

/-- The rule from before. -/
def boolOnly : Table String Rule := .ofList [("Bool", .boolean)]

theorem readAll_orders_diamond :
    ∃ s s',
      readAll diamond ["Both", "Call", "Flag", "Flags"] { resolved := boolOnly } = .ok ((), s) ∧
      readAll diamond ["Flag", "Flags", "Call", "Both"] { resolved := boolOnly } = .ok ((), s') ∧
      s.resolved = s'.resolved ∧ Resolvable diamond boolOnly ∧
      readWithin diamond 20 ["Flag"] { resolved := boolOnly } =
        readAll diamond ["Flag"] { resolved := boolOnly } := by
  obtain ⟨hiff, hsame, hdepth⟩ := readAll_orders diamond boolOnly
  have horder : Visits diamond ["Both", "Call", "Flag", "Flags"] := visits_of_perm (by decide)
  have horder' : Visits diamond ["Flag", "Flags", "Call", "Both"] := visits_of_perm (by decide)
  have hrun : (readAll diamond ["Both", "Call", "Flag", "Flags"]
      { resolved := boolOnly }).toOption.any (fun _ => true) = true := by decide +kernel
  obtain ⟨⟨_, s⟩, h, -⟩ := ok_of_any hrun
  have hr := (hiff _ horder).mp ⟨s, h⟩
  obtain ⟨s', h'⟩ := (hiff _ horder').mpr hr
  exact ⟨s, s', h, h', hsame _ _ s s' horder horder' h h', hr, hdepth ["Flag"] 20 (by decide)⟩

end GmlLift.RuleLoad
