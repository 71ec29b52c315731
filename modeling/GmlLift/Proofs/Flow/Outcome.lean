import GmlLift.Flow.Pass
import GmlLift.Proofs.Except

/-! # How a pass ends

A pass returns a value or stops with an error, and leaves a graph in either case. `Ends` states both
cases at once, with one rule for each way a pass is put together. -/
namespace GmlLift

namespace Pass

variable {α β : Type}

/-- The graph that a pass leaves, whether it returns or stops. -/
def after (p : Pass α) (g : Graph) : Graph := match p.run g with
  | .ok _ g' => g'
  | .error _ g' => g'

theorem after_bind (p : Pass α) (f : α → Pass β) (g : Graph) :
    (p >>= f).after g = match p.run g with
      | .ok a g' => (f a).after g'
      | .error _ g' => g' := by
  rw [after, EStateM.run_bind]
  cases p.run g <;> rfl

/-- On a graph, a pass returns with `Q` or stops with `E`. -/
def Ends (p : Pass α) (g : Graph) (Q : α → Graph → Prop) (E : Graph → Prop) : Prop :=
  match p.run g with
  | .ok a g' => Q a g'
  | .error _ g' => E g'

variable {g : Graph} {Q : α → Graph → Prop} {E : Graph → Prop}

theorem ends_bind {p : Pass α} {f : α → Pass β} {Q : β → Graph → Prop} :
    Ends (p >>= f) g Q E ↔ Ends p g (fun a g' => Ends (f a) g' Q E) E := by
  simp only [Ends, EStateM.run, bind, EStateM.bind]
  cases p g <;> rfl

theorem ends_pure {a : α} : Ends (pure a) g Q E ↔ Q a g := Iff.rfl

theorem ends_map {p : Pass α} {f : α → β} {Q : β → Graph → Prop} :
    Ends (f <$> p) g Q E ↔ Ends p g (fun a g' => Q (f a) g') E := by
  simp only [Ends, EStateM.run, Functor.map, EStateM.map]
  cases p g <;> rfl

theorem ends_get {Q : Graph → Graph → Prop} : Ends get g Q E ↔ Q g g := Iff.rfl

theorem ends_modify {f : Graph → Graph} {Q : PUnit → Graph → Prop} :
    Ends (modify f) g Q E ↔ Q ⟨⟩ (f g) := Iff.rfl

theorem ends_throw {e : FlowError} : Ends (throw e : Pass α) g Q E ↔ E g := Iff.rfl

theorem ends_require {e : FlowError} {o : Option α} :
    Ends (require e o) g Q E ↔ (∀ a, o = some a → Q a g) ∧ (o = none → E g) := by
  cases o with
  | none => simp [require, ends_throw]
  | some a => simp [require, ends_pure]

theorem ends_ofExcept {r : Except FlowError α} :
    Ends (ofExcept r) g Q E ↔ (∀ a, r = .ok a → Q a g) ∧ (∀ e, r = .error e → E g) := by
  cases r with
  | ok a => simp [ofExcept, ends_pure]
  | error e => simp [ofExcept, ends_throw]

theorem ends_add {n : Node} {Q : NodeId → Graph → Prop} :
    Ends (add n) g Q E ↔ Q g.nodes.size (g.add n) := Iff.rfl

theorem Ends.mono {p : Pass α} {Q' : α → Graph → Prop} {E' : Graph → Prop} (h : Ends p g Q E)
    (hQ : ∀ a g', Q a g' → Q' a g') (hE : ∀ g', E g' → E' g') : Ends p g Q' E' := by
  unfold Ends at *
  split
  · rename_i hp; rw [hp] at h; exact hQ _ _ h
  · rename_i hp; rw [hp] at h; exact hE _ h

/-- Two accounts of how a pass ends hold of the same end. -/
theorem Ends.and {p : Pass α} {Q' : α → Graph → Prop} {E' : Graph → Prop} (h : Ends p g Q E)
    (h' : Ends p g Q' E') : Ends p g (fun a g' => Q a g' ∧ Q' a g') (fun g' => E g' ∧ E' g') := by
  unfold Ends at *
  split <;> rename_i hp <;> rw [hp] at h h' <;> exact ⟨h, h'⟩

theorem Ends.of_ok {p : Pass α} {a : α} {g' : Graph} (h : Ends p g Q E) (hr : p.run g = .ok a g') :
    Q a g' := by
  rw [Ends, hr] at h
  exact h

theorem Ends.of_error {p : Pass α} {e : FlowError} {g' : Graph} (h : Ends p g Q E)
    (hr : p.run g = .error e g') : E g' := by
  rw [Ends, hr] at h
  exact h

/-- A pass that cannot stop with an error returns. -/
theorem Ends.exists_ok {p : Pass α} (h : Ends p g Q fun _ => False) :
    ∃ a g', p.run g = .ok a g' ∧ Q a g' := by
  unfold Ends at h
  split at h
  · exact ⟨_, _, ‹_›, h⟩
  · exact h.elim

theorem Ends.after {p : Pass α} (h : Ends p g (fun _ => E) E) : E (p.after g) := by
  unfold Ends at h
  unfold Pass.after
  split <;> rename_i hp <;> rw [hp] at h <;> exact h

/-! ## Repeated steps -/

/-- Visiting nodes in order keeps what each visit keeps. -/
theorem ends_collect {I : Graph → Prop} {visit : NodeId → Pass (Option NodeId)}
    {ns : List NodeId} (h : ∀ n ∈ ns, ∀ g, I g → Ends (visit n) g (fun _ => I) I) (hg : I g) :
    Ends (collect visit ns) g (fun _ => I) I := by
  induction ns generalizing g with
  | nil => exact hg
  | cons n ns ih =>
    simp only [collect, ends_bind]
    refine (h n (by simp) g hg).mono (fun found g' hg' => ?_) fun _ he => he
    exact (ih (fun m hm => h m (by simp [hm])) hg').mono (fun _ _ h => h) fun _ he => he

theorem ends_each {I E : Graph → Prop} {visit : NodeId → Pass Unit} {ns : List NodeId}
    (h : ∀ n ∈ ns, ∀ g, I g → Ends (visit n) g (fun _ => I) E) (hg : I g) :
    Ends (each visit ns) g (fun _ => I) E := by
  induction ns generalizing g with
  | nil => exact hg
  | cons n ns ih =>
    simp only [each, ends_bind]
    refine (h n (by simp) g hg).mono (fun found g' hg' => ?_) fun _ he => he
    exact (ih (fun m hm => h m (by simp [hm])) hg').mono (fun _ _ h => h) fun _ he => he

/-- As long as each step keeps `I` and what `R` says of earlier results, all results satisfy `R` in
the end. -/
theorem ends_mapM {I E : Graph → Prop} {R : β → Graph → Prop} {f : α → Pass β} {as : List α}
    (h : ∀ a ∈ as, ∀ g, I g →
      Ends (f a) g (fun b g' => I g' ∧ R b g' ∧ ∀ b', R b' g → R b' g') E) (hg : I g) :
    Ends (as.mapM f) g
      (fun bs g' => I g' ∧ (∀ b ∈ bs, R b g') ∧ ∀ b', R b' g → R b' g') E := by
  induction as generalizing g with
  | nil => exact ⟨hg, by simp, fun _ h => h⟩
  | cons a as ih =>
    rw [List.mapM_cons]
    simp only [ends_bind, ends_pure]
    refine (h a (by simp) g hg).mono (fun b g₁ ⟨h₁, hb, hkeep⟩ => ?_) fun _ he => he
    refine (ih (fun a ha => h a (by simp [ha])) h₁).mono (fun bs g₂ ⟨h₂, hbs, hkeep'⟩ => ?_)
      fun _ he => he
    refine ⟨h₂, fun x hx => ?_, fun x hx => hkeep' x (hkeep x hx)⟩
    rcases List.mem_cons.mp hx with rfl | hx
    · exact hkeep' _ hb
    · exact hbs x hx

end Pass

end GmlLift
