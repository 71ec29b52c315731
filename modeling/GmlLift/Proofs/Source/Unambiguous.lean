import GmlLift.Proofs.Frame.Naming
import GmlLift.Proofs.Source.Reading
import GmlLift.Proofs.Tree.Walks

/-! # Different expressions have different texts

Parentheses are written by precedence only, so that it has to be shown that they are enough: what is
written for an expression is read back as that expression. The marks of the stack are not written,
and are lost. So is the form of an access with just one index: `a[i]` is written for both forms. -/
namespace GmlLift

open Source

/-! ## Plain expressions -/

/-- An access of the form `a[i, j]` has two indices when it is built; later ones are added. -/
theorem Step.length_indices_of_access {game : Game} {i : Instr} {v : VariableOperand}
    {f f' : Frame} {x : Var} (h : access game i v f = .ok x f') (hl : x.legacy2d = true) :
    x.indices.length = 2 := by
  unfold access at h
  split at h
  · obtain ⟨index, f₁, -, h⟩ := ok_of_bind_step h
    obtain ⟨holder, f₂, -, h⟩ := ok_of_bind_step h
    generalize (if game.usesGmlv2 = true then none else splitLegacyIndex? index) = halves at h
    cases halves with
    | some halves =>
      cases h
      rfl
    | none =>
      cases h
      cases hl
  · split at h
    · obtain ⟨holder, f₁, -, h⟩ := ok_of_bind_step h
      cases h
      cases hl
    · cases h
      cases hl

mutual

/-- Expressions of whole numbers, own variables and calls, with operators of all sorts. -/
def Expr.Plain : Expr → Prop
  | ⟨k, _, _⟩ => k.Plain
termination_by structural x => x

def ExprKind.Plain : ExprKind → Prop
  | .int16 v _ => 0 ≤ v.toInt
  | .var v => v.Plain
  | .binary _ l r => bothBoolean l r = false ∧ l.Plain ∧ r.Plain
  | .compare _ l r | .nullish l r => l.Plain ∧ r.Plain
  | .unary _ e => e.Plain
  | .ternary c t f => c.Plain ∧ t.Plain ∧ f.Plain
  | .logic _ cs => 2 ≤ cs.length ∧ Expr.AllPlain cs
  | .call f args => IsIdentifier f ∧ ¬ scriptMark.toList <+: f.toList ∧ Expr.AllPlain args
  | _ => False
termination_by structural x => x

def Expr.AllPlain : List Expr → Prop
  | [] => True
  | e :: rest => e.Plain ∧ Expr.AllPlain rest
termination_by structural x => x

/-- A variable may have any number of indices, in either form of access. -/
def Var.Plain : Var → Prop
  | ⟨n, .scope .own, indices, _⟩ => IsIdentifier n ∧ Expr.AllPlain indices
  | _ => False
termination_by structural x => x

end

/-! ## What a text does not show -/

/-- An expression without the mark of how a number was pushed. -/
def ExprKind.withoutMarks : ExprKind → ExprKind
  | .int16 v _ => .int16 v false
  | k => k

/-- An expression without the marks of the stack, in all its parts. -/
def Expr.bare (e : Expr) : Expr := e.mapUp fun x => .unmarked x.kind.withoutMarks

/-- With just one index, both forms of access are taken for `a[i]`. -/
def ExprKind.oneForm : ExprKind → ExprKind
  | .var ⟨n, h, indices, legacy2d⟩ => .var ⟨n, h, indices, legacy2d && indices.length != 1⟩
  | k => k

/-- An expression as its text shows it: bare, and with both forms of access the same where there is
just one index. -/
def Expr.shown (e : Expr) : Expr := e.mapUp fun x => .unmarked x.kind.withoutMarks.oneForm

def Expr.shownAll (es : List Expr) : List Expr :=
  Id.run (Expr.mapUpListM (fun x => pure (.unmarked x.kind.withoutMarks.oneForm)) es)

/-- No variable in the expression has just one index in an access of the form `a[i, j]`. -/
def Expr.Definite (e : Expr) : Prop :=
  ∀ x ∈ e.walk, ∀ v ∈ x.var?, v.legacy2d = true → v.indices.length ≠ 1

instance (e : Expr) : Decidable e.Definite := inferInstanceAs (Decidable (∀ x ∈ e.walk, _))

theorem Expr.Definite.of_mem_parts {e x : Expr} (h : e.Definite) (hx : x ∈ e.parts) :
    x.Definite := by
  intro y hy
  refine h y ?_
  rw [Expr.walk_eq]
  exact List.mem_cons_of_mem _ (List.mem_flatMap.mpr ⟨x, hx, hy⟩)

theorem Expr.length_mapUpListM (f : Expr → Expr) (es : List Expr) :
    (Id.run (Expr.mapUpListM (fun x => pure (f x)) es)).length = es.length := by
  induction es with
  | nil => rfl
  | cons e rest ih => exact congrArg (· + 1) ih

/-- Visiting the parts first leaves the form of an access and the number of its indices. -/
theorem ExprKind.oneForm_mapUp {k : ExprKind}
    (h : ∀ v, k = .var v → v.legacy2d = true → v.indices.length ≠ 1) (f : Expr → Expr) :
    ExprKind.oneForm (Id.run (k.mapUpM fun x => pure (f x))).withoutMarks =
      (Id.run (k.mapUpM fun x => pure (f x))).withoutMarks := by
  cases k with
  | var v =>
    obtain ⟨n, holder, indices, legacy2d⟩ := v
    have hone : legacy2d = true → indices.length ≠ 1 := h _ rfl
    rw [← Expr.length_mapUpListM f] at hone
    have hkept : (legacy2d && (Id.run (Expr.mapUpListM (fun x => pure (f x)) indices)).length
        != 1) = legacy2d := by
      cases legacy2d <;> simp_all
    exact congrArg (fun l => ExprKind.var ⟨n, _, _, l⟩) hkept
  | _ => rfl

/-- Where only one form of access can be meant, a text shows it. -/
theorem Expr.shown_eq_bare (e : Expr) (h : e.Definite) : e.shown = e.bare := by
  induction e using Expr.parts_induction with
  | h e ih =>
    obtain ⟨k, d, t⟩ := e
    have hself : Expr.mk k d t ∈ (Expr.mk k d t).walk := by
      rw [Expr.walk_eq]
      exact List.mem_cons_self
    have hone : ∀ v, k = .var v → v.legacy2d = true → v.indices.length ≠ 1 := by
      rintro v rfl
      exact h _ hself v rfl
    have hparts : k.mapUpM (m := Id) (fun x => pure (.unmarked x.kind.withoutMarks.oneForm)) =
        k.mapUpM fun x => pure (.unmarked x.kind.withoutMarks) :=
      ExprKind.mapUpM_congr fun x hx => ih x hx (h.of_mem_parts hx)
    calc Expr.shown ⟨k, d, t⟩
        = .unmarked (ExprKind.oneForm (Id.run (k.mapUpM fun x =>
            pure (.unmarked x.kind.withoutMarks.oneForm))).withoutMarks) := rfl
      _ = .unmarked (Id.run (k.mapUpM fun x =>
            pure (.unmarked x.kind.withoutMarks))).withoutMarks := by
          rw [ExprKind.oneForm_mapUp hone, hparts]
      _ = Expr.bare ⟨k, d, t⟩ := rfl

/-! ## What is written can be read -/

open Reader

theorem toList_parenthesized (p least : Nat) (text : String) :
    (parenthesized (p < least) text).toList = placed p least text.toList := by
  unfold parenthesized placed
  split <;> split <;> simp_all

theorem toList_commaList (ts : List String) :
    (commaList ts).toList = [',', ' '].intercalate (ts.map String.toList) :=
  String.toList_intercalate

/-- Operands around an operator, as they are written. -/
theorem toList_joined (o : Operator) {word : String} (h : word.toList = o.text) (a b : String) :
    (a ++ " " ++ word ++ " " ++ b).toList = a.toList ++ (o.between ++ b.toList) := by
  simp [Operator.between, h]

theorem functionName_eq {f : String} (h : ¬ scriptMark.toList <+: f.toList) :
    functionName f = f := by
  rw [functionName, if_neg]
  exact fun hf => h (List.isPrefixOf_iff_prefix.mp hf)

section

variable {s : Settings} {depth : Nat}

theorem readable_int16 {v : Int16} (h : 0 ≤ v.toInt) (regular duplicated : Bool) (t : DataType) :
    Readable (toString v.toInt).toList (ExprKind.int16 v regular).precedence
      (Expr.shown ⟨.int16 v regular, duplicated, t⟩) := by
  have hv : Int16.ofInt (v.toInt.toNat : Int) = v := by
    rw [Int.toNat_of_nonneg h, Int16.ofInt_toInt]
  have hprecedence : (ExprKind.int16 v regular).precedence = Precedence.primary := by
    have hlt : ¬ v < 0 := fun hlt => by
      have hneg := Int16.lt_iff_toInt_lt.mp hlt
      rw [Int16.toInt_zero] at hneg
      omega
    simp [ExprKind.precedence, hlt]
  have hread := readable_number v.toInt.toNat
  rw [hv] at hread
  rw [Text.toList_toString_int, if_pos h, hprecedence]
  exact hread

mutual

theorem Expr.readable (e : Expr) (h : e.Plain) :
    Readable (e.source s depth).toList e.precedence (e.shown) := by
  obtain ⟨k, duplicated, t⟩ := e
  exact k.readable duplicated t h
termination_by structural e

theorem ExprKind.readable (k : ExprKind) (duplicated : Bool) (t : DataType)
    (h : k.Plain) :
    Readable (k.source s depth).toList k.precedence (Expr.shown ⟨k, duplicated, t⟩) := by
  cases k with
  | int16 v regular => exact readable_int16 h regular duplicated t
  | var v => exact v.readable duplicated t h
  | binary op l r =>
    obtain ⟨hb, hl, hr⟩ := h
    have hread := (l.readable hl).joiner (r.readable hr) (.binary op)
    rw [ExprKind.source, ExprKind.precedence, hb, toList_joined (.joiner (.binary op)) rfl,
      toList_parenthesized, toList_parenthesized]
    exact hread
  | compare c l r =>
    obtain ⟨hl, hr⟩ := h
    have hread := (l.readable hl).joiner (r.readable hr) (.compare c)
    rw [ExprKind.source, ExprKind.precedence, toList_joined (.joiner (.compare c)) rfl,
      toList_parenthesized, toList_parenthesized]
    exact hread
  | nullish l r =>
    obtain ⟨hl, hr⟩ := h
    have hread := (l.readable hl).joiner (r.readable hr) .nullish
    have htext : (ExprKind.source s depth (.nullish l r)).toList =
        placed l.precedence (Precedence.nullish + 1) (l.source s depth).toList
          ++ ((Operator.joiner .nullish).between
          ++ placed r.precedence Precedence.nullish (r.source s depth).toList) := by
      simp only [ExprKind.source, String.toList_append, toList_parenthesized]
      simp [Operator.between, Operator.text, Joiner.text]
    rw [htext]
    exact hread
  | unary op e =>
    have hread := (e.readable h).unary op
    have hsign : op.text.toList = [op.sign] := by cases op <;> rfl
    rw [ExprKind.source, String.toList_append, hsign, toList_parenthesized]
    exact hread
  | ternary c t f =>
    obtain ⟨hc, ht, hf⟩ := h
    have hread := (c.readable hc).ternary (t.readable ht) (f.readable hf)
    have htext : (ExprKind.source s depth (.ternary c t f)).toList =
        placed c.precedence (Precedence.ternary + 1) (c.source s depth).toList
          ++ (Operator.ternary.between
          ++ (placed t.precedence Precedence.ternary (t.source s depth).toList ++ ([' ', ':', ' ']
          ++ placed f.precedence Precedence.ternary (f.source s depth).toList))) := by
      simp only [ExprKind.source, String.toList_append, toList_parenthesized]
      simp [Operator.between, Operator.text]
    rw [htext]
    exact hread
  | logic op cs =>
    obtain ⟨hlength, hcs⟩ := h
    cases cs with
    | nil => cases hlength
    | cons c cs =>
      obtain ⟨hc, hcs⟩ := hcs
      have hrest := Expr.fits_sourceList (op.precedence + 1) cs hcs
      have hne : (Expr.sourceList s depth (op.precedence + 1) cs).map String.toList ≠ [] := by
        cases cs with
        | nil => simp at hlength
        | cons => exact List.cons_ne_nil _ _
      have hread := (c.readable hc).logic hrest hne
      rw [← toList_parenthesized] at hread
      have htext : (" " ++ op.text ++ " ").toList = (Operator.logic op).between := by
        simp [Operator.between, Operator.text]
      rw [ExprKind.source, String.toList_intercalate, htext]
      exact hread
  | call f args =>
    obtain ⟨hf, hscript, hargs⟩ := h
    have hread := Readable.call hf (Expr.fits_sourceList 0 args hargs)
    have htext : (ExprKind.source s depth (.call f args)).toList = f.toList ++ '(' ::
        ([',', ' '].intercalate ((Expr.sourceList s depth 0 args).map String.toList) ++ [')']) := by
      simp [ExprKind.source, functionName_eq hscript, toList_commaList]
    rw [htext]
    exact hread
  | _ => exact h.elim
termination_by structural k

theorem Expr.fits_sourceList (least : Nat) (es : List Expr) (h : Expr.AllPlain es) :
    List.Forall₂ (Fits least) ((Expr.sourceList s depth least es).map String.toList)
      (Expr.shownAll es) := by
  cases es with
  | nil => exact .nil
  | cons e rest =>
    obtain ⟨he, hrest⟩ := h
    have hfirst := (e.readable he).fits least
    rw [← toList_parenthesized] at hfirst
    exact .cons hfirst (Expr.fits_sourceList least rest hrest)
termination_by structural es

theorem Var.readable (v : Var) (duplicated : Bool) (t : DataType) (h : v.Plain) :
    Readable (v.source s depth).toList Precedence.primary
      (Expr.shown ⟨.var v, duplicated, t⟩) := by
  obtain ⟨n, o, indices, legacy2d⟩ := v
  cases o with
  | object id name => exact h.elim
  | expr e => exact h.elim
  | scope w =>
    cases w with
    | own =>
      obtain ⟨hn, hindices⟩ := h
      have hread := Readable.var hn legacy2d (Expr.fits_sourceList 0 indices hindices)
      have htext : (Var.source s depth ⟨n, .scope .own, indices, legacy2d⟩).toList = n.toList
          ++ subscripted legacy2d ((Expr.sourceList s depth 0 indices).map String.toList) := by
        cases legacy2d <;>
          simp [Var.source, Holder.source, scopeQualifier, subscripted, bracketed,
            toList_commaList, List.flatMap_map]
      rw [htext]
      exact hread
    | _ => exact h.elim
termination_by structural v

end

/-- The reader gets back what was written, but for the marks of the stack. -/
theorem Expr.gives_source {e : Expr} (h : e.Plain) (s : Settings) (depth : Nat) :
    Gives (Reader.expr · 0 (e.source s depth).toList) (e.shown, []) := by
  have hread : Readable (e.source s depth).toList e.precedence (e.shown) := e.readable h
  have hfits := hread.fits 0 [] ends_nil (.inl rfl)
  rwa [placed, if_neg (Nat.not_lt_zero _), List.append_nil] at hfits

/-- Two plain expressions with the same text are the same but for the marks of the stack: whether
they were duplicated, their types on the stack, and how a number was pushed. Only the form of an
access with just one index is lost besides, and nothing is where there is no such access of the form
`a[i, j]`. None is built: an access that gets this form gets two indices. -/
theorem Expr.shown_eq_of_source_eq {s s' : Settings} {depth depth' : Nat} {e e' : Expr}
    (h : e.Plain) (h' : e'.Plain) (heq : e.source s depth = e'.source s' depth') :
    e.shown = e'.shown ∧ (e.Definite → e'.Definite → e.bare = e'.bare) ∧
      ∀ (game : Game) (i : Instr) (v : VariableOperand) (f f' : Frame) (x : Var),
        Step.access game i v f = .ok x f' → x.legacy2d = true → x.indices.length = 2 := by
  have hshown : e.shown = e'.shown := by
    have hread := e.gives_source h s depth
    rw [heq] at hread
    exact congrArg Prod.fst (hread.unique (e'.gives_source h' s' depth'))
  refine ⟨hshown, fun hd hd' => ?_, fun _ _ _ _ _ _ => Step.length_indices_of_access⟩
  rw [← e.shown_eq_bare hd, ← e'.shown_eq_bare hd', hshown]

/-- `a[1, i] - (n < 1 ? -f(2) : n ?? 3)`, with some marks. -/
def markedDifference (regular duplicated : Bool) (t : DataType) : Expr :=
  let int (v : Int16) : Expr := ⟨.int16 v regular, duplicated, t⟩
  let n : Expr := ⟨.var (.ofScope "n" .own), duplicated, .var⟩
  ⟨.binary .sub ⟨.var ⟨"a", .scope .own, [int 1, .ofVar (.ofScope "i" .own)], true⟩, duplicated, t⟩
    ⟨.ternary ⟨.compare .less n (int 1), duplicated, .bool⟩
      ⟨.unary .negate ⟨.call "f" [int 2], false, .var⟩, false, t⟩
      ⟨.nullish n (int 3), duplicated, .var⟩, duplicated, .var⟩, false, t⟩

theorem Expr.shown_eq_of_source_eq_markedDifference :
    (markedDifference true true .int32).Plain ∧ (markedDifference false false .var).Plain ∧
      (markedDifference true true .int32).source {} 0 =
        (markedDifference false false .var).source {} 0 ∧
      (markedDifference true true .int32).bare = (markedDifference false false .var).bare := by
  have hplain (regular duplicated : Bool) (t : DataType) :
      (markedDifference regular duplicated t).Plain := by
    have hint : 0 ≤ (1 : Int16).toInt ∧ 0 ≤ (2 : Int16).toInt ∧ 0 ≤ (3 : Int16).toInt := by decide
    have hname : (IsIdentifier "a" ∧ IsIdentifier "i") ∧ IsIdentifier "n" ∧
        (IsIdentifier "f" ∧ ¬ scriptMark.toList <+: "f".toList) ∧ IsIdentifier "n" := by decide
    simpa [markedDifference, Expr.Plain, ExprKind.Plain, Expr.AllPlain, Var.Plain, Expr.ofVar,
      Expr.ofKind, Var.ofScope, bothBoolean, Expr.stackType, hint] using hname
  have hsame : (markedDifference true true .int32).source {} 0 =
      (markedDifference false false .var).source {} 0 := rfl
  obtain ⟨-, hbare, -⟩ := shown_eq_of_source_eq (hplain ..) (hplain ..) hsame
  exact ⟨hplain .., hplain .., hsame, hbare (by decide) (by decide)⟩

/-- `a[0]`, in either form of access. -/
def loneIndex (legacy2d : Bool) : Expr :=
  .ofVar ⟨"a", .scope .own, [.ofKind (.int16 0 false) .int16], legacy2d⟩

/-- With just one index the two forms have one text, and stay different without their marks. -/
theorem Expr.not_bare_eq_loneIndex : (loneIndex true).Plain ∧ (loneIndex false).Plain ∧
    (loneIndex true).source {} 0 = (loneIndex false).source {} 0 ∧
    (loneIndex true).bare ≠ (loneIndex false).bare := by
  have hzero : 0 ≤ (0 : Int16).toInt := by decide
  have hplain (legacy2d : Bool) : (loneIndex legacy2d).Plain := ⟨by decide, hzero, trivial⟩
  refine ⟨hplain true, hplain false, rfl, fun h => ?_⟩
  have hform : (loneIndex true).bare.var?.map Var.legacy2d =
      (loneIndex false).bare.var?.map Var.legacy2d := by rw [h]
  exact absurd hform (by decide)

end

end GmlLift
