import GmlLift.Frame.Call
import GmlLift.Proofs.Tree.Gather

/-! # The functions that a tree declares

A function is an expression of its own or a statement. The names of those in a tree are compared
with the names that the functions of a script should have, by the entries of their code. -/
namespace GmlLift

/-- The function that an expression is, as a list to gather. -/
def functionOf : ExprKind → List FunctionDecl
  | .function d => [d]
  | _ => []

/-- Every function has the name that goes with its entry, or none where none does. -/
def Faithful (names : String → Option String) (ds : List FunctionDecl) : Prop :=
  ∀ d ∈ ds, d.name = names d.entry

section

variable {names : String → Option String}

@[simp] theorem faithful_nil : Faithful names [] := fun _ hd => (List.not_mem_nil hd).elim

@[simp] theorem faithful_cons {d : FunctionDecl} {ds : List FunctionDecl} :
    Faithful names (d :: ds) ↔ d.name = names d.entry ∧ Faithful names ds :=
  List.forall_mem_cons

@[simp] theorem faithful_append {ds ds' : List FunctionDecl} :
    Faithful names (ds ++ ds') ↔ Faithful names ds ∧ Faithful names ds' :=
  List.forall_mem_append

theorem faithful_gatherIn {es : List Expr} :
    Faithful names (Expr.gatherIn functionOf es) ↔
      ∀ e ∈ es, Faithful names (e.gather functionOf) := by
  induction es with
  | nil => simp
  | cons e rest ih => simp [ih]

@[simp] theorem faithful_body_append {body body' : List Stmt} :
    Faithful names (Stmt.gatherIn functionOf (body ++ body')) ↔
      Faithful names (Stmt.gatherIn functionOf body) ∧
        Faithful names (Stmt.gatherIn functionOf body') := by
  induction body with
  | nil => simp
  | cons s rest ih => simp [ih, and_assoc]

/-! ## Replacing the parts of an expression -/

/-- The function changes an expression without giving a function a wrong name. -/
def KeepsFaithful (names : String → Option String) (f : Expr → Expr) : Prop :=
  ∀ e, Faithful names (e.gather functionOf) → Faithful names ((f e).gather functionOf)

variable {f : Expr → Expr}

mutual

theorem Expr.faithful_mapUpM (hf : KeepsFaithful names f) (e : Expr)
    (h : Faithful names (e.gather functionOf)) :
    Faithful names (Expr.gather functionOf (Id.run (e.mapUpM fun x => pure (f x)))) := by
  obtain ⟨k, d, t⟩ := e
  exact hf _ (k.faithful_mapUpM hf h)
termination_by structural e

theorem ExprKind.faithful_mapUpM (hf : KeepsFaithful names f) (k : ExprKind)
    (h : Faithful names (k.gatherAll functionOf)) :
    Faithful names (ExprKind.gatherAll functionOf (Id.run (k.mapUpM fun x => pure (f x)))) := by
  have hparts := (faithful_append.mp h).2
  cases k with
  | var v => exact v.faithful_mapUpM hf hparts
  | step v s i => exact v.faithful_mapUpM hf hparts
  | binary o l r | compare o l r | nullish l r =>
    obtain ⟨hl, hr⟩ := faithful_append.mp hparts
    have hboth := faithful_append.mpr ⟨l.faithful_mapUpM hf hl, r.faithful_mapUpM hf hr⟩
    exact faithful_append.mpr ⟨faithful_nil, hboth⟩
  | unary o e | throw e => exact e.faithful_mapUpM hf hparts
  | call f args | array args | logic o args => exact Expr.faithful_mapUpListM hf args hparts
  | callValue f i args =>
    obtain ⟨hfi, hargs⟩ := faithful_append.mp hparts
    obtain ⟨hf', hi⟩ := faithful_append.mp hfi
    have hboth := faithful_append.mpr ⟨f.faithful_mapUpM hf hf', i.faithful_mapUpM hf hi⟩
    have hall := faithful_append.mpr ⟨hboth, Expr.faithful_mapUpListM hf args hargs⟩
    exact faithful_append.mpr ⟨faithful_nil, hall⟩
  | new c args =>
    obtain ⟨hc, hargs⟩ := faithful_append.mp hparts
    have hboth := faithful_append.mpr ⟨c.faithful_mapUpM hf hc, Expr.faithful_mapUpListM hf args hargs⟩
    exact faithful_append.mpr ⟨faithful_nil, hboth⟩
  | struct fs => exact Expr.faithful_mapUpFieldsM hf fs hparts
  | ternary c t f' =>
    obtain ⟨hct, hf'⟩ := faithful_append.mp hparts
    obtain ⟨hc, ht⟩ := faithful_append.mp hct
    have hboth := faithful_append.mpr ⟨c.faithful_mapUpM hf hc, t.faithful_mapUpM hf ht⟩
    have hall := faithful_append.mpr ⟨hboth, f'.faithful_mapUpM hf hf'⟩
    exact faithful_append.mpr ⟨faithful_nil, hall⟩
  | _ => exact h
termination_by structural k

theorem Expr.faithful_mapUpListM (hf : KeepsFaithful names f) (es : List Expr)
    (h : Faithful names (Expr.gatherIn functionOf es)) :
    Faithful names (Expr.gatherIn functionOf
      (Id.run (Expr.mapUpListM (fun x => pure (f x)) es))) := by
  cases es with
  | nil => exact h
  | cons e rest =>
    obtain ⟨he, hrest⟩ := faithful_append.mp h
    exact faithful_append.mpr ⟨e.faithful_mapUpM hf he, Expr.faithful_mapUpListM hf rest hrest⟩
termination_by structural es

theorem Expr.faithful_mapUpFieldsM (hf : KeepsFaithful names f) (fs : List (String × Expr))
    (h : Faithful names (Expr.gatherInFields functionOf fs)) :
    Faithful names (Expr.gatherInFields functionOf
      (Id.run (Expr.mapUpFieldsM (fun x => pure (f x)) fs))) := by
  cases fs with
  | nil => exact h
  | cons p rest =>
    obtain ⟨n, e⟩ := p
    obtain ⟨he, hrest⟩ := faithful_append.mp h
    exact faithful_append.mpr ⟨e.faithful_mapUpM hf he, Expr.faithful_mapUpFieldsM hf rest hrest⟩
termination_by structural fs

theorem Holder.faithful_mapUpM (hf : KeepsFaithful names f) (i : Holder)
    (h : Faithful names (i.gather functionOf)) :
    Faithful names (Holder.gather functionOf (Id.run (i.mapUpM fun x => pure (f x)))) := by
  cases i with
  | expr e => exact e.faithful_mapUpM hf h
  | scope s => exact h
  | object id name => exact h
termination_by structural i

theorem Var.faithful_mapUpM (hf : KeepsFaithful names f) (v : Var)
    (h : Faithful names (v.gather functionOf)) :
    Faithful names (Var.gather functionOf (Id.run (v.mapUpM fun x => pure (f x)))) := by
  obtain ⟨n, i, indices, l⟩ := v
  obtain ⟨hi, hindices⟩ := faithful_append.mp h
  exact faithful_append.mpr ⟨i.faithful_mapUpM hf hi, Expr.faithful_mapUpListM hf indices hindices⟩
termination_by structural v

end

/-! ## Struct literals -/

/-- Arguments take the place of parameters. -/
theorem faithful_substitute {args : List Expr} {e : Expr}
    (hargs : ∀ a ∈ args, Faithful names (a.gather functionOf))
    (h : Faithful names (e.gather functionOf)) :
    Faithful names ((Call.substitute args e).gather functionOf) := by
  refine Expr.faithful_mapUpM (fun x hx => ?_) e h
  split
  · rename_i arg harg
    obtain ⟨i, -, hi⟩ := Option.bind_eq_some_iff.mp harg
    exact hargs arg (List.mem_of_getElem? hi)
  · exact hx

theorem faithful_structFields? {args : List Expr} {body : List Stmt}
    {fields : List (String × Expr)} (hargs : ∀ a ∈ args, Faithful names (a.gather functionOf))
    (hbody : Faithful names (Stmt.gatherIn functionOf body))
    (h : Call.structFields? args body = some fields) :
    Faithful names (Expr.gatherInFields functionOf fields) := by
  induction body generalizing fields with
  | nil =>
    cases h
    exact faithful_nil
  | cons s rest ih =>
    unfold Call.structFields? at h
    split at h
    · rename_i heq
      cases heq
    · rename_i target value declare rest' heq
      cases heq
      obtain ⟨more, hmore, rfl⟩ := Option.map_eq_some_iff.mp h
      obtain ⟨hs, hrest⟩ := faithful_append.mp hbody
      exact faithful_append.mpr ⟨faithful_substitute hargs (faithful_append.mp hs).2,
        ih hrest hmore⟩
    · cases h

/-- What `new` makes of a constructor has the functions of its body and of the arguments. -/
theorem faithful_construct {maker : Expr} {args : List Expr}
    (hmaker : Faithful names (maker.gather functionOf))
    (hargs : ∀ a ∈ args, Faithful names (a.gather functionOf)) :
    Faithful names ((Call.construct maker args).gatherAll functionOf) := by
  have hnew : Faithful names ((ExprKind.new maker args).gatherAll functionOf) :=
    faithful_append.mpr ⟨faithful_nil, faithful_append.mpr ⟨hmaker, faithful_gatherIn.mpr hargs⟩⟩
  unfold Call.construct
  dsimp only
  split
  · rename_i fields hfields
    split at hfields
    · rename_i decl hk
      split at hfields
      · rw [Expr.gather_eq, hk] at hmaker
        obtain ⟨-, hbody⟩ := faithful_append.mp hmaker
        obtain ⟨entry, name, arguments, isConstructor, body⟩ := decl
        exact faithful_structFields? hargs hbody hfields
      · cases hfields
    · cases hfields
  · exact hnew

end

end GmlLift
