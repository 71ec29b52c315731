import GmlLift.Frame.Call
import Mathlib.Data.List.Forall2

/-! # Arguments in struct literals

The body of a struct literal reads what the literal was given through its arguments, and the fields
have the given values in their place. `Expr.fill` replaces the reads from the outside in, all at
once; `structFields?_fill` says that the fields are what it gives when each read goes whole, with
its indices and the instance in front of it, and that nothing is lost exactly if no read has
either. -/
namespace GmlLift

section

variable (args : List Expr) (put : Expr → Var → Option Expr)

/-- The value that a read of an argument stands for. -/
def ExprKind.argument? : ExprKind → Option Expr
  | .var v => (argumentIndex? v.name).bind (args[·]?)
  | _ => none

mutual

/-- Replace the reads of arguments by what `put` makes of the value and of the read, whose own parts
are replaced already. The bodies of functions have arguments of their own. -/
def Expr.fill : Expr → Option Expr
  | ⟨k, d, t⟩ => do match k.argument? args, ← k.fill with
    | some arg, .var read => put arg read
    | _, filled => some ⟨filled, d, t⟩
termination_by structural x => x

def ExprKind.fill : ExprKind → Option ExprKind
  | .var v => return .var (← v.fill)
  | .step v s i => return .step (← v.fill) s i
  | .binary o l r => return .binary o (← l.fill) (← r.fill)
  | .compare k l r => return .compare k (← l.fill) (← r.fill)
  | .nullish l r => return .nullish (← l.fill) (← r.fill)
  | .unary o e => return .unary o (← e.fill)
  | .throw e => return .throw (← e.fill)
  | .call g es => return .call g (← Expr.fillList es)
  | .array es => return .array (← Expr.fillList es)
  | .logic o es => return .logic o (← Expr.fillList es)
  | .callValue g h es => return .callValue (← g.fill) (← h.fill) (← Expr.fillList es)
  | .new c es => return .new (← c.fill) (← Expr.fillList es)
  | .struct fs => return .struct (← Expr.fillFields fs)
  | .ternary c t e => return .ternary (← c.fill) (← t.fill) (← e.fill)
  | .int16 v r => some (.int16 v r)
  | .int32 v => some (.int32 v)
  | .int64 v => some (.int64 v)
  | .double v => some (.double v)
  | .string s => some (.string s)
  | .bool b => some (.bool b)
  | .functionRef n => some (.functionRef n)
  | .function d => some (.function d)
  | .scope s => some (.scope s)
  | .asset k i => some (.asset k i)
  | .symbol s => some (.symbol s)
termination_by structural x => x

def Expr.fillList : List Expr → Option (List Expr)
  | [] => some []
  | e :: rest => return (← e.fill) :: (← Expr.fillList rest)
termination_by structural x => x

def Expr.fillFields : List (String × Expr) → Option (List (String × Expr))
  | [] => some []
  | (n, e) :: rest => return (n, ← e.fill) :: (← Expr.fillFields rest)
termination_by structural x => x

def Holder.fill : Holder → Option Holder
  | .expr e => return .expr (← e.fill)
  | .scope s => some (.scope s)
  | .object i n => some (.object i n)
termination_by structural x => x

def Var.fill : Var → Option Var
  | ⟨n, h, indices, l⟩ => return ⟨n, ← h.fill, ← Expr.fillList indices, l⟩
termination_by structural x => x

end

end

/-- The value in the place of the whole read. -/
def putWhole (arg : Expr) (_ : Var) : Option Expr := some arg

/-- Whether no instance is written in front of a variable of the running function. -/
def Var.isPlain (v : Var) : Bool := match v.holder with
  | .scope .arg | .scope .own | .scope .builtin => true
  | _ => false

/-- The value with the indices of the read, where the value is a variable that can take them. A read
through another instance has no replacement that keeps the instance. -/
def putIndexed (arg : Expr) (read : Var) : Option Expr :=
  if !read.isPlain then none
  else if read.indices.isEmpty then some arg
  else match arg.kind with
    | .var v => some (arg.withKind (.var ⟨v.name, v.holder, v.indices ++ read.indices,
        v.legacy2d || read.legacy2d⟩))
    | _ => none

namespace Call

/-! ## Replacing from the inside out -/

section

variable (args : List Expr)

/-- What a substitution makes of one expression whose parts it has been through. -/
def replace (x : Expr) : Expr :=
  match (x.var?.bind fun v => argumentIndex? v.name).bind (args[·]?) with
  | some arg => arg
  | none => x

mutual

theorem fill_putWhole (e : Expr) :
    e.fill args putWhole = some (Id.run (e.mapUpM fun x => pure (replace args x))) := by
  obtain ⟨k, d, t⟩ := e
  rw [Expr.fill, fill_putWhole_kind k]
  cases k with
  | var v =>
    obtain ⟨n, h, i, l⟩ := v
    change (match (argumentIndex? n).bind (args[·]?), _ with
        | some arg, ExprKind.var read => putWhole arg read
        | _, filled => some ⟨filled, d, t⟩) =
      some (match (argumentIndex? n).bind (args[·]?) with
        | some arg => arg
        | none => ⟨.var ⟨n, _, _, l⟩, d, t⟩)
    cases (argumentIndex? n).bind (args[·]?) <;> rfl
  | _ => rfl
termination_by structural e

theorem fill_putWhole_kind (k : ExprKind) :
    k.fill args putWhole = some (Id.run (k.mapUpM fun x => pure (replace args x))) := by
  cases k with
  | var v | step v s i => rw [ExprKind.fill, fill_putWhole_var v]; rfl
  | binary o l r | compare o l r | nullish l r =>
    rw [ExprKind.fill, fill_putWhole l, fill_putWhole r]; rfl
  | unary o e | throw e => rw [ExprKind.fill, fill_putWhole e]; rfl
  | call g es | array es | logic g es => rw [ExprKind.fill, fill_putWhole_list es]; rfl
  | callValue g h es =>
    rw [ExprKind.fill, fill_putWhole g, fill_putWhole h, fill_putWhole_list es]; rfl
  | new c es => rw [ExprKind.fill, fill_putWhole c, fill_putWhole_list es]; rfl
  | struct fs => rw [ExprKind.fill, fill_putWhole_fields fs]; rfl
  | ternary c t e =>
    rw [ExprKind.fill, fill_putWhole c, fill_putWhole t, fill_putWhole e]; rfl
  | _ => rfl
termination_by structural k

theorem fill_putWhole_list (es : List Expr) : Expr.fillList args putWhole es =
    some (Id.run (Expr.mapUpListM (fun x => pure (replace args x)) es)) := by
  cases es with
  | nil => rfl
  | cons e rest => rw [Expr.fillList, fill_putWhole e, fill_putWhole_list rest]; rfl
termination_by structural es

theorem fill_putWhole_fields (fs : List (String × Expr)) : Expr.fillFields args putWhole fs =
    some (Id.run (Expr.mapUpFieldsM (fun x => pure (replace args x)) fs)) := by
  cases fs with
  | nil => rfl
  | cons f rest =>
    obtain ⟨n, e⟩ := f
    rw [Expr.fillFields, fill_putWhole e, fill_putWhole_fields rest]; rfl
termination_by structural fs

theorem fill_putWhole_holder (h : Holder) : h.fill args putWhole =
    some (Id.run (h.mapUpM fun x => pure (replace args x))) := by
  cases h with
  | expr e => rw [Holder.fill, fill_putWhole e]; rfl
  | scope s => rfl
  | object i n => rfl
termination_by structural h

theorem fill_putWhole_var (v : Var) : v.fill args putWhole =
    some (Id.run (v.mapUpM fun x => pure (replace args x))) := by
  obtain ⟨n, h, indices, l⟩ := v
  rw [Var.fill, fill_putWhole_holder h, fill_putWhole_list indices]
  rfl
termination_by structural v

end

/-! ## Reads that lose nothing -/

/-- Whether an expression that reads an argument reads it as a whole. -/
def ReadsWhole (x : Expr) : Prop :=
  ∀ v, x.kind = .var v → (x.kind.argument? args).isSome → v.isPlain = true ∧ v.indices = []

/-- Whether all reads of arguments among expressions read them as a whole. -/
def Intact (xs : List Expr) : Prop := ∀ x ∈ xs, ReadsWhole args x

variable {args}

@[simp] theorem intact_nil : Intact args [] := nofun

@[simp] theorem intact_cons {x : Expr} {xs : List Expr} :
    Intact args (x :: xs) ↔ ReadsWhole args x ∧ Intact args xs := List.forall_mem_cons

@[simp] theorem intact_append {xs ys : List Expr} :
    Intact args (xs ++ ys) ↔ Intact args xs ∧ Intact args ys := List.forall_mem_append

theorem readsWhole_of_argument?_eq_none {x : Expr} (h : x.kind.argument? args = none) :
    ReadsWhole args x := fun v _ hs => by simp [h] at hs

/-- Only a read without indices has the whole value in its place. -/
theorem putIndexed_eq_whole {arg : Expr} {read : Var} :
    putIndexed arg read = some arg ↔ read.isPlain = true ∧ read.indices = [] := by
  unfold putIndexed
  cases hp : read.isPlain with
  | false => simp
  | true =>
    cases hi : read.indices with
    | nil => simp
    | cons e es =>
      obtain ⟨k, d, t⟩ := arg
      cases k with
      | var v =>
        obtain ⟨n, h, is, l⟩ := v
        simp [Expr.kind, Expr.withKind, Var.indices]
      | _ => simp [Expr.kind]

section

variable {put : Expr → Var → Option Expr} {k : ExprKind} {d : Bool} {t : DataType}

theorem fill_of_argument?_eq_none (h : k.argument? args = none) :
    Expr.fill args put ⟨k, d, t⟩ = (k.fill args put).map (⟨·, d, t⟩) := by
  rw [Expr.fill, h]
  cases k.fill args put <;> rfl

theorem fill_of_argument?_eq_some {v : Var} {arg : Expr}
    (h : (ExprKind.var v).argument? args = some arg) :
    Expr.fill args put ⟨.var v, d, t⟩ = (v.fill args put).bind (put arg) := by
  rw [Expr.fill, h, ExprKind.fill]
  cases v.fill args put <;> rfl

theorem fill_of_plain {v : Var} (hplain : v.isPlain = true) (hindices : v.indices = []) :
    v.fill args put = some v := by
  obtain ⟨n, h, indices, l⟩ := v
  obtain rfl : indices = [] := hindices
  cases h with
  | scope s => rfl
  | object i n => cases hplain
  | expr e => cases hplain

theorem plain_of_fill {v w : Var} (h : v.fill args put = some w) (hplain : w.isPlain = true)
    (hindices : w.indices = []) : v.isPlain = true ∧ v.indices = [] := by
  obtain ⟨n, holder, indices, l⟩ := v
  rw [Var.fill] at h
  obtain ⟨holder', hholder, h⟩ := Option.bind_eq_some_iff.mp h
  obtain ⟨indices', hfill, h⟩ := Option.bind_eq_some_iff.mp h
  cases h
  obtain rfl : indices' = [] := hindices
  constructor
  · cases holder with
    | scope s =>
      cases hholder
      exact hplain
    | object i n =>
      cases hholder
      cases hplain
    | expr e =>
      rw [Holder.fill] at hholder
      obtain ⟨e', -, he⟩ := Option.bind_eq_some_iff.mp hholder
      cases he
      cases hplain
  · cases indices with
    | nil => rfl
    | cons e rest =>
      rw [Expr.fillList] at hfill
      obtain ⟨e', -, hfill⟩ := Option.bind_eq_some_iff.mp hfill
      obtain ⟨rest', -, hfill⟩ := Option.bind_eq_some_iff.mp hfill
      cases hfill

end

theorem walk_of_plain {v : Var} (hplain : v.isPlain = true) (hindices : v.indices = []) :
    v.walk = [] := by
  obtain ⟨n, h, indices, l⟩ := v
  obtain rfl : indices = [] := hindices
  cases h with
  | scope s => rfl
  | object i n => cases hplain
  | expr e => cases hplain

variable (args)

mutual

/-- Nothing is lost exactly if every read of an argument is one of the whole argument. -/
theorem fill_putIndexed (e : Expr) :
    e.fill args putIndexed = e.fill args putWhole ↔ Intact args e.walk := by
  obtain ⟨k, d, t⟩ := e
  have ih := fill_putIndexed_kind k
  rw [Expr.walk, intact_cons]
  cases ha : k.argument? args with
  | none =>
    have hread : ReadsWhole args ⟨k, d, t⟩ := readsWhole_of_argument?_eq_none ha
    rw [fill_of_argument?_eq_none ha, fill_of_argument?_eq_none ha, and_iff_right hread, ← ih]
    refine (Option.map_injective fun a b h => ?_).eq_iff
    cases h
    rfl
  | some arg =>
    cases k with
    | var v =>
      rw [fill_of_argument?_eq_some ha, fill_of_argument?_eq_some ha, fill_putWhole_var]
      change _ = some arg ↔ _
      constructor
      · intro h
        obtain ⟨w, hw, h⟩ := Option.bind_eq_some_iff.mp h
        obtain ⟨hplain, hindices⟩ := putIndexed_eq_whole.mp h
        have hv := plain_of_fill hw hplain hindices
        refine ⟨fun v' hv' _ => ?_, ?_⟩
        · cases hv'
          exact hv
        · rw [ExprKind.walk, walk_of_plain hv.1 hv.2]
          exact intact_nil
      · rintro ⟨hread, -⟩
        have hv := hread v rfl (by rw [Expr.kind, ha]; rfl)
        rw [fill_of_plain hv.1 hv.2]
        exact putIndexed_eq_whole.mpr hv
    | _ => cases ha
termination_by structural e

theorem fill_putIndexed_kind (k : ExprKind) :
    k.fill args putIndexed = k.fill args putWhole ↔ Intact args k.walk := by
  cases k with
  | var v | step v s i =>
    simp [ExprKind.fill, ExprKind.walk, ← fill_putIndexed_var v, fill_putWhole_var,
      Option.bind_eq_some_iff]
  | binary o l r | compare o l r | nullish l r =>
    simp [ExprKind.fill, ExprKind.walk, ← fill_putIndexed l, ← fill_putIndexed r, fill_putWhole,
      Option.bind_eq_some_iff]
  | unary o e | throw e =>
    simp [ExprKind.fill, ExprKind.walk, ← fill_putIndexed e, fill_putWhole,
      Option.bind_eq_some_iff]
  | call g es | array es | logic g es =>
    simp [ExprKind.fill, ExprKind.walk, ← fill_putIndexed_list es, fill_putWhole_list,
      Option.bind_eq_some_iff]
  | callValue g h es =>
    simp [ExprKind.fill, ExprKind.walk, ← fill_putIndexed g, ← fill_putIndexed h,
      ← fill_putIndexed_list es, fill_putWhole, fill_putWhole_list, Option.bind_eq_some_iff]
  | new c es =>
    simp [ExprKind.fill, ExprKind.walk, ← fill_putIndexed c, ← fill_putIndexed_list es,
      fill_putWhole, fill_putWhole_list, Option.bind_eq_some_iff]
  | struct fs =>
    simp [ExprKind.fill, ExprKind.walk, ← fill_putIndexed_fields fs, fill_putWhole_fields,
      Option.bind_eq_some_iff]
  | ternary c t e =>
    simp [ExprKind.fill, ExprKind.walk, ← fill_putIndexed c, ← fill_putIndexed t,
      ← fill_putIndexed e, fill_putWhole, Option.bind_eq_some_iff]
  | _ => simp [ExprKind.fill, ExprKind.walk]
termination_by structural k

theorem fill_putIndexed_list (es : List Expr) :
    Expr.fillList args putIndexed es = Expr.fillList args putWhole es ↔
      Intact args (Expr.walkList es) := by
  cases es with
  | nil => simp [Expr.fillList, Expr.walkList]
  | cons e rest =>
    simp [Expr.fillList, Expr.walkList, ← fill_putIndexed e, ← fill_putIndexed_list rest,
      fill_putWhole, fill_putWhole_list, Option.bind_eq_some_iff]
termination_by structural es

theorem fill_putIndexed_fields (fs : List (String × Expr)) :
    Expr.fillFields args putIndexed fs = Expr.fillFields args putWhole fs ↔
      Intact args (Expr.walkFields fs) := by
  cases fs with
  | nil => simp [Expr.fillFields, Expr.walkFields]
  | cons f rest =>
    obtain ⟨n, e⟩ := f
    simp [Expr.fillFields, Expr.walkFields, ← fill_putIndexed e, ← fill_putIndexed_fields rest,
      fill_putWhole, fill_putWhole_fields, Option.bind_eq_some_iff]
termination_by structural fs

theorem fill_putIndexed_holder (h : Holder) :
    h.fill args putIndexed = h.fill args putWhole ↔ Intact args h.walk := by
  cases h with
  | expr e =>
    simp [Holder.fill, Holder.walk, ← fill_putIndexed e, fill_putWhole, Option.bind_eq_some_iff]
  | scope s => simp [Holder.fill, Holder.walk]
  | object i n => simp [Holder.fill, Holder.walk]
termination_by structural h

theorem fill_putIndexed_var (v : Var) :
    v.fill args putIndexed = v.fill args putWhole ↔ Intact args v.walk := by
  obtain ⟨n, h, indices, l⟩ := v
  simp [Var.fill, Var.walk, ← fill_putIndexed_holder h, ← fill_putIndexed_list indices,
    fill_putWhole_holder, fill_putWhole_list, Option.bind_eq_some_iff]
termination_by structural v

end

/-- Putting whole values in the place of reads, from the inside out or from the outside in. -/
theorem fill_putWhole_eq (e : Expr) : e.fill args putWhole = some (substitute args e) :=
  fill_putWhole args e

end

/-- Whether a statement assigns a value as it is. -/
def IsField (s : Stmt) : Prop := ∃ target value declare, s = .assign target value .normal declare

/-- Whether a field is an assignment with whole values in the place of all that is read under an
argument's name. It keeps the indices and the instances of such reads exactly if they have none. -/
def FieldOf (args : List Expr) (s : Stmt) (field : String × Expr) : Prop :=
  ∃ target value declare, s = .assign target value .normal declare ∧ field.1 = target.name ∧
    value.fill args putWhole = some field.2 ∧
    (value.fill args putIndexed = some field.2 ↔ Intact args value.walk)

/-- A struct literal whose body is plain assignments has one field for each of them, in order. -/
theorem structFields?_fill (args : List Expr) {body : List Stmt} (h : ∀ s ∈ body, IsField s) :
    ∃ fields, structFields? args body = some fields ∧ List.Forall₂ (FieldOf args) body fields := by
  induction body with
  | nil => exact ⟨[], rfl, .nil⟩
  | cons s rest ih =>
    obtain ⟨hs, hrest⟩ := List.forall_mem_cons.mp h
    obtain ⟨target, value, declare, rfl⟩ := hs
    obtain ⟨fields, hfields, hall⟩ := ih hrest
    have hvalue := fill_putWhole_eq args value
    refine ⟨(target.name, substitute args value) :: fields, by rw [structFields?, hfields]; rfl,
      .cons ⟨target, value, declare, rfl, rfl, hvalue, ?_⟩ hall⟩
    rw [← fill_putIndexed args value, hvalue]

/-- The argument at a position, as the code of a function reads it. -/
def readOf (name : String) (indices : List Expr) : Expr := .ofVar ⟨name, .scope .arg, indices, false⟩

/-- The body of a struct literal that adds its arguments, given the second argument of the function
around it first. -/
def sumOfArguments : List Stmt :=
  [.assign (.ofScope "sum" .own)
    (.ofKind (.binary .add (readOf "argument0" []) (readOf "argument1" [])) .var) .normal false]

theorem structFields?_fill_sumOfArguments :
    (∀ s ∈ sumOfArguments, IsField s) ∧ ∃ field,
      structFields? [readOf "argument1" [], readOf "n" []] sumOfArguments = some [field] ∧
      (Expr.ofKind (.binary .add (readOf "argument0" []) (readOf "argument1" [])) .var).fill
        [readOf "argument1" [], readOf "n" []] putIndexed = some field.2 := by
  have hbody : ∀ s ∈ sumOfArguments, IsField s := by
    intro s hs
    exact ⟨_, _, _, List.mem_singleton.mp hs⟩
  obtain ⟨fields, hfields, hall⟩ :=
    structFields?_fill [readOf "argument1" [], readOf "n" []] hbody
  refine ⟨hbody, ?_⟩
  obtain _ | ⟨⟨target, value, declare, hs, -, -, hkept⟩, hrest⟩ := hall
  cases hrest
  cases hs
  refine ⟨_, hfields, hkept.mpr fun x hx v hv _ => ?_⟩
  simp only [readOf, Expr.ofKind, Expr.ofVar, Expr.walk, ExprKind.walk, Var.walk, Holder.walk,
    Expr.walkList, List.append_nil, List.mem_cons, List.cons_append, List.nil_append,
    List.not_mem_nil, or_false] at hx
  rcases hx with rfl | rfl | rfl <;> cases hv <;> exact ⟨rfl, rfl⟩

/-- The body of a struct literal that reads from the list it is given. -/
def readFirst : List Stmt :=
  [.assign (.ofScope "hp" .own) (.ofKind (.int16 10 false) .int16) .normal false,
    .assign (.ofScope "name" .own) (readOf "argument0" [.ofKind (.int16 1 false) .int16]) .normal
      false]

/-- The index is lost: the field is the whole list. -/
theorem not_kept_readFirst :
    structFields? [.ofVar (.ofScope "n" .own)] readFirst =
      some [("hp", .ofKind (.int16 10 false) .int16), ("name", .ofVar (.ofScope "n" .own))] ∧
    (readOf "argument0" [.ofKind (.int16 1 false) .int16]).fill [.ofVar (.ofScope "n" .own)]
        putIndexed = some (.ofVar ⟨"n", .scope .own, [.ofKind (.int16 1 false) .int16], false⟩) ∧
    Expr.ofVar (.ofScope "n" .own) ≠
      .ofVar ⟨"n", .scope .own, [.ofKind (.int16 1 false) .int16], false⟩ :=
  ⟨rfl, rfl, nofun⟩

end Call

end GmlLift
