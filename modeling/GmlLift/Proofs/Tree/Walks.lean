import GmlLift.Tree.Walk
import Mathlib.Data.List.Perm.Basic
import Mathlib.Logic.Relation

/-! # Two ways through an expression

`walk` lists the expressions below one, and `mapUpM` visits them with an effect. What both go
through is said by the parts that stand right below an expression: `walk` takes an expression before
its parts, `mapUpM` after them, and nothing else is different. -/
namespace GmlLift

/-! ## Parts -/

def Holder.parts : Holder → List Expr
  | .expr e => [e]
  | .scope _ | .object .. => []

/-- The instance of a variable, then its indices. -/
def Var.parts (v : Var) : List Expr := v.holder.parts ++ v.indices

/-- The expressions that stand right below one of this kind, from left to right. A function has
none: its body consists of statements of their own. -/
def ExprKind.parts : ExprKind → List Expr
  | .var v | .step v _ _ => v.parts
  | .binary _ l r | .compare _ l r | .nullish l r => [l, r]
  | .unary _ e | .throw e => [e]
  | .call _ es | .array es | .logic _ es => es
  | .callValue f h es => f :: h :: es
  | .new c es => c :: es
  | .struct fs => fs.map Prod.snd
  | .ternary c t f => [c, t, f]
  | .int16 .. | .int32 _ | .int64 _ | .double _ | .string _ | .bool _ | .functionRef _
  | .function _ | .scope _ | .asset .. | .symbol _ => []

def Expr.parts (e : Expr) : List Expr := e.kind.parts

theorem Var.sizeOf_lt_of_mem_parts {v : Var} {x : Expr} (h : x ∈ v.parts) :
    sizeOf x < sizeOf v := by
  obtain ⟨n, holder, indices, l⟩ := v
  simp only [Var.mk.sizeOf_spec]
  rcases List.mem_append.mp h with hx | hx
  · cases holder with
    | expr e =>
      obtain rfl := List.mem_singleton.mp hx
      simp only [Holder.expr.sizeOf_spec]
      omega
    | scope s => cases hx
    | object i n => cases hx
  · have hlt : sizeOf x < sizeOf indices := List.sizeOf_lt_of_mem hx
    omega

theorem ExprKind.sizeOf_lt_of_mem_parts {k : ExprKind} {x : Expr} (h : x ∈ k.parts) :
    sizeOf x < sizeOf k := by
  cases k with
  | var v | step v s i =>
    have hlt : sizeOf x < sizeOf v := Var.sizeOf_lt_of_mem_parts h
    simp only [ExprKind.var.sizeOf_spec, ExprKind.step.sizeOf_spec]
    omega
  | binary o l r | compare o l r | nullish l r =>
    have hx : x = l ∨ x = r := List.mem_pair.mp h
    simp only [ExprKind.binary.sizeOf_spec, ExprKind.compare.sizeOf_spec,
      ExprKind.nullish.sizeOf_spec]
    rcases hx with rfl | rfl <;> omega
  | unary o e | throw e =>
    obtain rfl := List.mem_singleton.mp h
    simp only [ExprKind.unary.sizeOf_spec, ExprKind.throw.sizeOf_spec]
    omega
  | call g es | array es | logic o es =>
    have hlt : sizeOf x < sizeOf es := List.sizeOf_lt_of_mem h
    simp only [ExprKind.call.sizeOf_spec, ExprKind.array.sizeOf_spec, ExprKind.logic.sizeOf_spec]
    omega
  | callValue f g es =>
    simp only [ExprKind.callValue.sizeOf_spec]
    rcases List.mem_cons.mp h with rfl | h
    · omega
    · rcases List.mem_cons.mp h with rfl | h
      · omega
      · have hlt := List.sizeOf_lt_of_mem h
        omega
  | new c es =>
    simp only [ExprKind.new.sizeOf_spec]
    rcases List.mem_cons.mp h with rfl | h
    · omega
    · have hlt := List.sizeOf_lt_of_mem h
      omega
  | struct fs =>
    obtain ⟨⟨n, e⟩, hf, rfl⟩ := List.mem_map.mp h
    have hlt := List.sizeOf_lt_of_mem hf
    simp only [Prod.mk.sizeOf_spec, ExprKind.struct.sizeOf_spec] at hlt ⊢
    omega
  | ternary c t e =>
    have hx : x = c ∨ x = t ∨ x = e := (List.mem_cons.mp h).imp_right List.mem_pair.mp
    simp only [ExprKind.ternary.sizeOf_spec]
    rcases hx with rfl | rfl | rfl <;> omega
  | _ => exact (List.not_mem_nil h).elim

theorem Expr.sizeOf_lt_of_mem_parts {e x : Expr} (h : x ∈ e.parts) : sizeOf x < sizeOf e := by
  obtain ⟨k, d, t⟩ := e
  have hlt : sizeOf x < sizeOf k := ExprKind.sizeOf_lt_of_mem_parts h
  simp only [Expr.mk.sizeOf_spec]
  omega

/-- What holds of an expression if it holds of its parts holds of every expression. -/
theorem Expr.parts_induction {P : Expr → Prop} (h : ∀ e : Expr, (∀ x ∈ e.parts, P x) → P e)
    (e : Expr) : P e :=
  h e fun x _ => parts_induction h x
termination_by sizeOf e
decreasing_by exact sizeOf_lt_of_mem_parts ‹_›

/-- The expression and everything below it, each after its parts. -/
def Expr.postorder (e : Expr) : List Expr :=
  (e.parts.attach.flatMap fun x => x.1.postorder) ++ [e]
termination_by sizeOf e
decreasing_by exact sizeOf_lt_of_mem_parts x.2

theorem Expr.postorder_eq (e : Expr) : e.postorder = e.parts.flatMap Expr.postorder ++ [e] := by
  rw [Expr.postorder, List.flatMap_def, List.attach_map_val, ← List.flatMap_def]

/-! ## Going through an expression -/

theorem Expr.walkList_eq (es : List Expr) : Expr.walkList es = es.flatMap Expr.walk := by
  induction es with
  | nil => rfl
  | cons e rest ih => rw [Expr.walkList, ih, List.flatMap_cons]

theorem Expr.walkFields_eq (fs : List (String × Expr)) :
    Expr.walkFields fs = (fs.map Prod.snd).flatMap Expr.walk := by
  induction fs with
  | nil => rfl
  | cons f rest ih =>
    obtain ⟨n, e⟩ := f
    rw [Expr.walkFields, ih, List.map_cons, List.flatMap_cons]

theorem Var.walk_eq (v : Var) : v.walk = v.parts.flatMap Expr.walk := by
  obtain ⟨n, holder, indices, l⟩ := v
  have hholder : holder.walk = holder.parts.flatMap Expr.walk := by
    cases holder with
    | expr e => exact (List.flatMap_singleton ..).symm
    | scope s => rfl
    | object i n => rfl
  rw [Var.walk, hholder, Expr.walkList_eq, ← List.flatMap_append]
  rfl

theorem Expr.walk_eq (e : Expr) : e.walk = e :: e.parts.flatMap Expr.walk := by
  obtain ⟨k, d, t⟩ := e
  refine congrArg (⟨k, d, t⟩ :: ·) (show k.walk = k.parts.flatMap Expr.walk from ?_)
  cases k with
  | var v | step v s i => exact v.walk_eq
  | call g es | array es | logic o es => exact Expr.walkList_eq es
  | callValue f g es | new c es => simp [ExprKind.walk, ExprKind.parts, Expr.walkList_eq]
  | struct fs => exact Expr.walkFields_eq fs
  | _ => simp [ExprKind.walk, ExprKind.parts]

section

variable {m : Type → Type} [Monad m] {f g : Expr → m Expr}

theorem Expr.mapUpListM_congr {es : List Expr} (h : ∀ x ∈ es, x.mapUpM f = x.mapUpM g) :
    Expr.mapUpListM f es = Expr.mapUpListM g es := by
  induction es with
  | nil => rfl
  | cons e rest ih =>
    rw [Expr.mapUpListM, Expr.mapUpListM, h e List.mem_cons_self,
      ih fun x hx => h x (List.mem_cons_of_mem _ hx)]

theorem Expr.mapUpFieldsM_congr {fs : List (String × Expr)}
    (h : ∀ x ∈ fs.map Prod.snd, x.mapUpM f = x.mapUpM g) :
    Expr.mapUpFieldsM f fs = Expr.mapUpFieldsM g fs := by
  induction fs with
  | nil => rfl
  | cons field rest ih =>
    obtain ⟨n, e⟩ := field
    rw [Expr.mapUpFieldsM, Expr.mapUpFieldsM, h e List.mem_cons_self,
      ih fun x hx => h x (List.mem_cons_of_mem _ hx)]

theorem Var.mapUpM_congr {v : Var} (h : ∀ x ∈ v.parts, x.mapUpM f = x.mapUpM g) :
    v.mapUpM f = v.mapUpM g := by
  obtain ⟨n, holder, indices, l⟩ := v
  have hholder : holder.mapUpM f = holder.mapUpM g := by
    cases holder with
    | expr e => rw [Holder.mapUpM, Holder.mapUpM, h e List.mem_cons_self]
    | scope s => rfl
    | object i n => rfl
  have hindices : Expr.mapUpListM f indices = Expr.mapUpListM g indices :=
    Expr.mapUpListM_congr fun x hx => h x (List.mem_append_right _ hx)
  rw [Var.mapUpM, Var.mapUpM, hholder, hindices]

/-- Visitors that make the same of the parts of an expression make the same of its kind. -/
theorem ExprKind.mapUpM_congr {k : ExprKind} (h : ∀ x ∈ k.parts, x.mapUpM f = x.mapUpM g) :
    k.mapUpM f = k.mapUpM g := by
  cases k with
  | var v | step v s i =>
    have hv : v.mapUpM f = v.mapUpM g := Var.mapUpM_congr h
    simp only [ExprKind.mapUpM, hv]
  | call c es | array es | logic o es =>
    have hes : Expr.mapUpListM f es = Expr.mapUpListM g es := Expr.mapUpListM_congr h
    simp only [ExprKind.mapUpM, hes]
  | struct fs =>
    have hfs : Expr.mapUpFieldsM f fs = Expr.mapUpFieldsM g fs := Expr.mapUpFieldsM_congr h
    simp only [ExprKind.mapUpM, hfs]
  | callValue c d es =>
    have hc := h c List.mem_cons_self
    have hd := h d (List.mem_cons_of_mem _ List.mem_cons_self)
    have hes : Expr.mapUpListM f es = Expr.mapUpListM g es := Expr.mapUpListM_congr fun x hx =>
      h x (List.mem_cons_of_mem _ (List.mem_cons_of_mem _ hx))
    simp only [ExprKind.mapUpM, hc, hd, hes]
  | new c es =>
    have hc := h c List.mem_cons_self
    have hes : Expr.mapUpListM f es = Expr.mapUpListM g es := Expr.mapUpListM_congr fun x hx =>
      h x (List.mem_cons_of_mem _ hx)
    simp only [ExprKind.mapUpM, hc, hes]
  | binary o l r | compare o l r | nullish l r =>
    have hl := h l List.mem_cons_self
    have hr := h r (List.mem_cons_of_mem _ List.mem_cons_self)
    simp only [ExprKind.mapUpM, hl, hr]
  | unary o e | throw e =>
    have he : e.mapUpM f = e.mapUpM g := h e List.mem_cons_self
    simp only [ExprKind.mapUpM, he]
  | ternary c t e =>
    have hc := h c List.mem_cons_self
    have ht := h t (List.mem_cons_of_mem _ List.mem_cons_self)
    have he := h e (List.mem_cons_of_mem _ (List.mem_cons_of_mem _ List.mem_cons_self))
    simp only [ExprKind.mapUpM, hc, ht, he]
  | _ => rfl

end

/-- A visitor that leaves expressions as they are and notes what it sees. -/
def noting {σ : Type} (note : Expr → σ → σ) (x : Expr) : StateM σ Expr :=
  modifyGet fun s => (x, note x s)

/-- The computation gives this value and notes these expressions, in this order. -/
def Notes {σ : Type} (note : Expr → σ → σ) {α : Type} (c : StateM σ α) (a : α)
    (xs : List Expr) : Prop :=
  ∀ s, c.run s = (a, xs.foldl (fun s x => note x s) s)

section

variable {σ : Type} {note : Expr → σ → σ} {α β : Type}

theorem Notes.pure (a : α) : Notes note (Pure.pure a : StateM σ α) a [] := fun _ => rfl

theorem Notes.bind {c : StateM σ α} {f : α → StateM σ β} {a : α} {b : β} {xs ys : List Expr}
    (hc : Notes note c a xs) (hf : Notes note (f a) b ys) :
    Notes note (c >>= f) b (xs ++ ys) := by
  intro s
  rw [StateT.run_bind, hc s]
  exact (hf _).trans (by rw [List.foldl_append])

theorem Notes.map {c : StateM σ α} {a : α} {xs : List Expr} (hc : Notes note c a xs)
    (f : α → β) : Notes note (c >>= fun a => Pure.pure (f a)) (f a) xs := by
  have h := hc.bind (f := fun a => Pure.pure (f a)) (Notes.pure (f a))
  rwa [List.append_nil] at h

theorem noting_notes (x : Expr) : Notes note (noting note x) x [x] := fun _ => rfl

theorem Expr.mapUpListM_notes {es : List Expr}
    (h : ∀ x ∈ es, Notes note (x.mapUpM (noting note)) x x.postorder) :
    Notes note (Expr.mapUpListM (noting note) es) es (es.flatMap Expr.postorder) := by
  induction es with
  | nil => exact .pure []
  | cons e rest ih =>
    exact (h e List.mem_cons_self).bind
      ((ih fun x hx => h x (List.mem_cons_of_mem _ hx)).map (e :: ·))

theorem Expr.mapUpFieldsM_notes {fs : List (String × Expr)}
    (h : ∀ x ∈ fs.map Prod.snd, Notes note (x.mapUpM (noting note)) x x.postorder) :
    Notes note (Expr.mapUpFieldsM (noting note) fs) fs
      ((fs.map Prod.snd).flatMap Expr.postorder) := by
  induction fs with
  | nil => exact .pure []
  | cons f rest ih =>
    obtain ⟨n, e⟩ := f
    exact (h e List.mem_cons_self).bind
      ((ih fun x hx => h x (List.mem_cons_of_mem _ hx)).map ((n, e) :: ·))

theorem Var.mapUpM_notes {v : Var}
    (h : ∀ x ∈ v.parts, Notes note (x.mapUpM (noting note)) x x.postorder) :
    Notes note (v.mapUpM (noting note)) v (v.parts.flatMap Expr.postorder) := by
  obtain ⟨n, holder, indices, l⟩ := v
  have hholder : Notes note (holder.mapUpM (noting note)) holder
      (holder.parts.flatMap Expr.postorder) := by
    cases holder with
    | expr e => exact (h e List.mem_cons_self).bind (.pure _)
    | scope s => exact .pure _
    | object i n => exact .pure _
  have hindices := Expr.mapUpListM_notes fun x (hx : x ∈ indices) =>
    h x (List.mem_append_right _ hx)
  rw [Var.parts, List.flatMap_append]
  exact hholder.bind (hindices.map (Var.mk n holder · l))

theorem ExprKind.mapUpM_notes {k : ExprKind}
    (h : ∀ x ∈ k.parts, Notes note (x.mapUpM (noting note)) x x.postorder) :
    Notes note (k.mapUpM (noting note)) k (k.parts.flatMap Expr.postorder) := by
  cases k with
  | var v => exact (Var.mapUpM_notes h).map ExprKind.var
  | step v s i => exact (Var.mapUpM_notes h).map (ExprKind.step · s i)
  | binary o l r | compare o l r | nullish l r =>
    have hl := h l List.mem_cons_self
    have hr := h r (List.mem_cons_of_mem _ List.mem_cons_self)
    exact hl.bind (hr.bind (.pure _))
  | unary o e | throw e => exact (h e List.mem_cons_self).bind (.pure _)
  | call g es => exact (Expr.mapUpListM_notes h).map (ExprKind.call g)
  | array es => exact (Expr.mapUpListM_notes h).map ExprKind.array
  | logic o es => exact (Expr.mapUpListM_notes h).map (ExprKind.logic o)
  | callValue f g es =>
    have hf := h f List.mem_cons_self
    have hg := h g (List.mem_cons_of_mem _ List.mem_cons_self)
    have hes := Expr.mapUpListM_notes fun x (hx : x ∈ es) =>
      h x (List.mem_cons_of_mem _ (List.mem_cons_of_mem _ hx))
    exact hf.bind (hg.bind (hes.map (ExprKind.callValue f g)))
  | new c es =>
    have hes := Expr.mapUpListM_notes fun x (hx : x ∈ es) => h x (List.mem_cons_of_mem _ hx)
    exact (h c List.mem_cons_self).bind (hes.map (ExprKind.new c))
  | struct fs => exact (Expr.mapUpFieldsM_notes h).map ExprKind.struct
  | ternary c t f =>
    have hc := h c List.mem_cons_self
    have ht := h t (List.mem_cons_of_mem _ List.mem_cons_self)
    have hf := h f (List.mem_cons_of_mem _ (List.mem_cons_of_mem _ List.mem_cons_self))
    exact hc.bind (ht.bind (hf.bind (.pure _)))
  | _ => exact .pure _

theorem Expr.mapUpM_notes (note : Expr → σ → σ) (e : Expr) :
    Notes note (e.mapUpM (noting note)) e e.postorder := by
  induction e using Expr.parts_induction with
  | h e ih =>
    obtain ⟨k, d, t⟩ := e
    rw [Expr.postorder_eq]
    exact (ExprKind.mapUpM_notes ih).bind (noting_notes _)

end

/-- Both ways through an expression visit the same expressions, each as often. -/
theorem Expr.postorder_perm (e : Expr) : e.postorder.Perm e.walk := by
  induction e using Expr.parts_induction with
  | h e ih =>
    have hparts : (e.parts.flatMap Expr.postorder).Perm (e.parts.flatMap Expr.walk) :=
      List.Perm.flatMap_left e.parts ih
    rw [Expr.postorder_eq, Expr.walk_eq]
    exact (List.perm_append_singleton e _).trans (hparts.cons e)

/-- `walk` reaches what is a part of a part and so on, and nothing else. -/
theorem Expr.mem_walk_iff {e x : Expr} :
    x ∈ e.walk ↔ Relation.ReflTransGen (fun a b : Expr => b ∈ a.parts) e x := by
  constructor
  · intro h
    induction e using Expr.parts_induction with
    | h e ih =>
      rw [Expr.walk_eq] at h
      rcases List.mem_cons.mp h with rfl | h
      · exact .refl
      · obtain ⟨p, hp, hx⟩ := List.mem_flatMap.mp h
        exact .head hp (ih p hp hx)
  · intro h
    induction h using Relation.ReflTransGen.head_induction_on with
    | refl =>
      rw [Expr.walk_eq]
      exact List.mem_cons_self
    | head hp _ ih =>
      rw [Expr.walk_eq]
      exact List.mem_cons_of_mem _ (List.mem_flatMap.mpr ⟨_, hp, ih⟩)

theorem Expr.mentions_iff (e : Expr) (v : Var) :
    e.mentions v = true ↔ ∃ x ∈ e.walk, ∃ w, x.kind = .var w ∧ w.sameAs v = true := by
  have hvar (x : Expr) : (x.var?.any fun w => w.sameAs v) = true ↔
      ∃ w, x.kind = .var w ∧ w.sameAs v = true := by
    unfold Expr.var?
    split
    · rename_i w hw
      simp [hw]
    · rename_i hno
      have hkind (w : Var) : x.kind ≠ .var w := fun h => hno w h
      simp [hkind]
  simp only [Expr.mentions, List.any_eq_true, hvar]

/-- A visitor that only takes notes gets the expression back as it was, and has seen each
expression after its parts; `walk` lists the same expressions as often, each before its parts. These
are the expression, its parts, their parts and so on, and never those in the body of a function. So
an expression mentions a variable exactly if some visited one is that variable. -/
theorem Expr.walks_visit_alike (e : Expr) :
    (∀ {σ : Type} (note : Expr → σ → σ) (s : σ), (e.mapUpM (noting note)).run s =
        (e, e.postorder.foldl (fun s x => note x s) s)) ∧
      e.postorder = e.parts.flatMap Expr.postorder ++ [e] ∧
      e.walk = e :: e.parts.flatMap Expr.walk ∧
      e.postorder.Perm e.walk ∧
      (∀ x, x ∈ e.walk ↔ Relation.ReflTransGen (fun a b : Expr => b ∈ a.parts) e x) ∧
      (∀ decl duplicated type,
        (mk (.function decl) duplicated type).walk = [mk (.function decl) duplicated type] ∧
        (mk (.function decl) duplicated type).postorder = [mk (.function decl) duplicated type]) ∧
      ∀ v, e.mentions v = true ↔ ∃ x ∈ e.walk, ∃ w, x.kind = .var w ∧ w.sameAs v = true := by
  refine ⟨?visits, e.postorder_eq, e.walk_eq, e.postorder_perm, fun x => mem_walk_iff, ?bodies,
    e.mentions_iff⟩
  case visits =>
    intro σ note s
    exact e.mapUpM_notes note s
  case bodies =>
    intro decl duplicated type
    exact ⟨rfl, Expr.postorder_eq _⟩

end GmlLift
