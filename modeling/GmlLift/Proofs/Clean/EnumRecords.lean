import GmlLift.Proofs.Naming.Resolve
import GmlLift.Proofs.Table

/-! # Enum declarations match the code

The table that cleaning a tree gives names the enum values of the cleaned tree and no others. Each
step of the cleaner adds to the table what it adds to the tree, so long as no value of an enum has
two names in the rule book. -/
namespace GmlLift

/-! ## What a table and a rule book name -/

/-- The table has the value under this name. -/
def EnumTable.Names (t : EnumTable) (x : EnumValue) : Prop :=
  (t.valuesOf x.enumName).get? x.value = some x.valueName

/-- The rule is that of some variable, of the arguments of some function or of its result. -/
def RuleBook.Attached (book : RuleBook) (rule : Rule) : Prop :=
  ∃ entry name, book.variableRule? entry name = some rule ∨
    book.argumentsRule? entry name = some rule ∨ book.returnRule? entry name = some rule

/-- An enumeration of the book gives the value this name. -/
def RuleBook.Names (book : RuleBook) (x : EnumValue) : Prop :=
  ∃ rule, book.Attached rule ∧ ∃ p ∈ rule.enumerations, x.NamedBy p

/-- Enumerations with the same name give the same name to every value that they share. -/
def RuleBook.NamesAgree (book : RuleBook) : Prop :=
  ∀ x y, book.Names x → book.Names y → x.enumName = y.enumName → x.value = y.value →
    x.valueName = y.valueName

/-- Enumerations agree when there is one table of values for each name. -/
theorem RuleBook.namesAgree_of_tables {book : RuleBook} (table : String → Table Int String)
    (h : ∀ rule, book.Attached rule → ∀ p ∈ rule.enumerations, p.2 = table p.1) :
    book.NamesAgree := by
  rintro x y ⟨r, hr, p, hp, hpx, hx⟩ ⟨r', hr', q, hq, hqy, hy⟩ hname hvalue
  have htable : p.2 = q.2 := by rw [h r hr p hp, h r' hr' q hq, hpx, hqy, hname]
  rw [htable, hvalue, hy] at hx
  exact (Option.some_inj.mp hx).symm

namespace EnumTable

theorem not_names_empty (x : EnumValue) : ¬ ({} : EnumTable).Names x := by
  intro h
  cases h

theorem valuesOf_record_self (t : EnumTable) (enumName valueName : String) (value : Int) :
    (t.record enumName valueName value).valuesOf enumName =
      (t.valuesOf enumName).insert value valueName := by
  rw [valuesOf, record, Table.get?_insert_self, Option.getD_some]

theorem valuesOf_record_of_ne (t : EnumTable) {enumName other : String} (valueName : String)
    (value : Int) (h : other ≠ enumName) :
    (t.record enumName valueName value).valuesOf other = t.valuesOf other := by
  rw [valuesOf, record, Table.get?_insert_of_ne _ _ h, valuesOf]

/-- Recording a value adds it and nothing else, unless it has another name in the table. -/
theorem names_record {t : EnumTable} {x y : EnumValue}
    (h : t.Names y → y.enumName = x.enumName → y.value = x.value → y.valueName = x.valueName) :
    (t.record x.enumName x.valueName x.value).Names y ↔ t.Names y ∨ y = x := by
  obtain ⟨enumName, valueName, value⟩ := x
  obtain ⟨enumName', valueName', value'⟩ := y
  unfold Names at *
  dsimp only at *
  by_cases he : enumName' = enumName
  · subst he
    rw [valuesOf_record_self]
    by_cases hv : value' = value
    · subst hv
      rw [Table.get?_insert_self, Option.some_inj, EnumValue.mk.injEq]
      grind
    · rw [Table.get?_insert_of_ne _ _ hv, EnumValue.mk.injEq]
      grind
  · rw [valuesOf_record_of_ne _ _ _ he, EnumValue.mk.injEq]
    grind

end EnumTable

namespace Clean

theorem recordEnum_eq (t : EnumTable) (e : Expr) : recordEnum t e = match e.kind.enumValue? with
    | some x => t.record x.enumName x.valueName x.value
    | none => t := by
  obtain ⟨k, d, ty⟩ := e
  cases k with
  | symbol s => cases s <;> rfl
  | _ => rfl

/-! ## Cleaners that record what they bring in -/

/-- What a cleaner's table says of its result: it names the values that it named before and those
of the result. -/
structure Recorded (known : EnumValue → Prop) (before : List EnumValue) (t t' : EnumTable)
    (content : List EnumValue) : Prop where
  keeps : before ⊆ content
  known : ∀ x, t'.Names x → known x
  names : ∀ x, t'.Names x ↔ t.Names x ∨ x ∈ content

/-- From any table that names the values in `before` and known ones alone, the cleaner records the
content of its result. -/
def Records (known : EnumValue → Prop) (before : List EnumValue) {α : Type} (c : Cleaner α)
    (content : α → List EnumValue) : Prop :=
  ∀ t : EnumTable, (∀ x, t.Names x → known x) → (∀ x ∈ before, t.Names x) →
    Recorded known before t (c t).2 (content (c t).1)

section

variable {known : EnumValue → Prop} {before : List EnumValue} {α β : Type}

/-- Nothing comes in. -/
theorem Records.pure {a : α} {content : α → List EnumValue}
    (h : ∀ x, x ∈ before ↔ x ∈ content a) :
    Records known before (Pure.pure a : Cleaner α) content := by
  intro t ht hb
  refine ⟨fun x hx => (h x).mp hx, ht, fun x => ?_⟩
  exact (or_iff_left_of_imp fun hx => hb x ((h x).mpr hx)).symm

/-- What the first cleaner brings in stands in the result of the second. -/
theorem Records.bind {inner : List EnumValue} {c : Cleaner α} {d : α → Cleaner β}
    {u : α → List EnumValue} {w : β → List EnumValue} (hc : Records known inner c u)
    (hsub : inner ⊆ before) (hd : ∀ a, inner ⊆ u a → Records known (before ++ u a) (d a) w) :
    Records known before (c >>= d) w := by
  intro t ht hb
  have h₁ := hc t ht fun x hx => hb x (hsub hx)
  have hboth : ∀ x ∈ before ++ u (c t).1, (c t).2.Names x := by
    intro x hx
    refine (h₁.names x).mpr ?_
    rcases List.mem_append.mp hx with hx | hx
    · exact .inl (hb x hx)
    · exact .inr hx
  have h₂ := hd (c t).1 h₁.keeps (c t).2 h₁.known hboth
  refine ⟨fun x hx => h₂.keeps (List.mem_append_left _ hx), h₂.known, fun x => ?_⟩
  calc
    (d (c t).1 (c t).2).2.Names x ↔ (c t).2.Names x ∨ x ∈ w (d (c t).1 (c t).2).1 := h₂.names x
    _ ↔ t.Names x ∨ x ∈ w (d (c t).1 (c t).2).1 := by
      rw [h₁.names x, or_assoc, or_iff_right_of_imp fun hx => h₂.keeps (List.mem_append_right _ hx)]

/-- A cleaner whose result holds nothing that was there before. -/
theorem Records.andThen {c : Cleaner α} {d : α → Cleaner β} {u : α → List EnumValue}
    {w : β → List EnumValue} (hc : Records known [] c u)
    (hd : ∀ a, Records known (before ++ u a) (d a) w) : Records known before (c >>= d) w :=
  hc.bind (List.nil_subset _) fun a _ => hd a

/-- Writing loops as `for` loops loses no value. -/
theorem Records.loops {ctx : Context} {b : List Stmt}
    (h : Records known before (stmts ctx b) (Stmt.gatherIn enumValueOf)) :
    Records known before (stmts ctx b) fun b => Stmt.gatherIn enumValueOf (loopsOf ctx b) := by
  simpa only [gatherIn_loopsOf] using h

end

/-- The settings and the book under which the table is that of the code. -/
structure Context.Declares (ctx : Context) : Prop where
  declares : ctx.settings.declareEnums = true
  agree : ctx.game.rules.NamesAgree

section

variable {ctx : Context} (hctx : ctx.Declares)

include hctx

theorem names_foldl_recordEnum {es : List Expr} {t : EnumTable}
    (ht : ∀ x, t.Names x → ctx.game.rules.Names x)
    (hes : ∀ x ∈ es.flatMap fun e => enumValueOf e.kind, ctx.game.rules.Names x) (y : EnumValue) :
    (es.foldl recordEnum t).Names y ↔ t.Names y ∨ y ∈ es.flatMap fun e => enumValueOf e.kind := by
  induction es generalizing t with
  | nil => simp
  | cons e rest ih =>
    rw [List.foldl_cons, recordEnum_eq]
    cases he : e.kind.enumValue? with
    | none =>
      rw [List.flatMap_cons, enumValueOf, he] at hes ⊢
      exact ih ht hes
    | some x =>
      rw [List.flatMap_cons, enumValueOf, he] at hes ⊢
      have hx := hes x List.mem_cons_self
      have hrecord (z : EnumValue) :
          (t.record x.enumName x.valueName x.value).Names z ↔ t.Names z ∨ z = x :=
        EnumTable.names_record fun hz => hctx.agree z x (ht z hz) hx
      have hknown : ∀ z, (t.record x.enumName x.valueName x.value).Names z →
          ctx.game.rules.Names z := by
        intro z hz
        rcases (hrecord z).mp hz with hz | rfl
        · exact ht z hz
        · exact hx
      have hrest := ih hknown fun z hz => hes z (List.mem_append_right _ hz)
      rw [hrest, hrecord, List.mem_append, Option.toList_some, List.mem_singleton, or_assoc]

/-- A rule keeps what is in the expression, and what it brings in is recorded. -/
theorem applyRule_records {rule : Option Rule}
    (hrule : ∀ r, rule = some r → ctx.game.rules.Attached r) (e : Expr) :
    Records ctx.game.rules.Names (e.gather enumValueOf) (applyRule ctx rule e)
      (Expr.gather enumValueOf) := by
  intro t ht hb
  have hsame : Recorded ctx.game.rules.Names (e.gather enumValueOf) t t (e.gather enumValueOf) :=
    ⟨List.Subset.refl _, ht, fun x => (or_iff_left_of_imp (hb x)).symm⟩
  unfold applyRule
  split
  · exact hsame
  · rename_i resolved hresolved
    obtain ⟨r, hr, hresolve⟩ := Option.bind_eq_some_iff.mp hresolved
    have hext := Rule.resolve_extends ctx.game r hresolve
    have hopen : ∀ x ∈ resolved.gatherOpen enumValueOf, ctx.game.rules.Names x := by
      intro x hx
      rcases hext.brings x (resolved.gatherOpen_subset enumValueOf hx) with hx | ⟨-, hp⟩
      · exact ht x (hb x hx)
      · exact ⟨r, hrule r hr, hp⟩
    have hfold := names_foldl_recordEnum hctx ht hopen
    split
    · exact hsame
    · rw [if_pos hctx.declares]
      refine ⟨hext.keeps, fun x hx => ?_, fun x => ?_⟩
      · rcases (hfold x).mp hx with hx | hx
        · exact ht x hx
        · exact hopen x hx
      · rw [hfold x]
        constructor
        · exact Or.imp_right fun hx => resolved.gatherOpen_subset enumValueOf hx
        · rintro (hx | hx)
          · exact .inl hx
          · exact (hext.brings x hx).imp (hb x) And.left

end

theorem attached_of_enabled {ctx : Context} {rule : Option Rule}
    (hrule : ∀ r, rule = some r → ctx.game.rules.Attached r) (r : Rule)
    (h : enabled ctx rule = some r) : ctx.game.rules.Attached r := by
  unfold enabled at h
  split at h
  · exact hrule r h
  · cases h

theorem attached_of_ruleOf? {ctx : Context} {e : Expr} (r : Rule) (h : ruleOf? ctx e = some r) :
    ctx.game.rules.Attached r := by
  unfold ruleOf? at h
  split at h
  · exact ⟨_, _, .inl h⟩
  · exact ⟨_, _, .inr (.inr h)⟩
  · cases h

/-- The rules of a call go by its arguments, those of a comparison by its other side. -/
theorem applyRules_records {ctx : Context} (hctx : ctx.Declares) (e : Expr) :
    Records ctx.game.rules.Names (e.gather enumValueOf) (applyRules ctx e)
      (Expr.gather enumValueOf) := by
  unfold applyRules
  split
  · exact .pure fun _ => Iff.rfl
  · split
    · exact applyRule_records hctx (fun r hr => ⟨_, _, .inr (.inl hr)⟩) _
    · rename_i k l r d t
      have hself (l r : Expr) : (Expr.mk (.compare k l r) d t).gather enumValueOf =
          l.gather enumValueOf ++ r.gather enumValueOf := rfl
      rw [hself]
      split
      · refine .bind (applyRule_records hctx attached_of_ruleOf? r) (List.subset_append_right _ _)
          fun r' hr' => .pure fun x => ?_
        have hx := @hr' x
        simp only [hself, List.mem_append]
        grind
      · refine .bind (applyRule_records hctx attached_of_ruleOf? l) (List.subset_append_left _ _)
          fun l' hl' => .pure fun x => ?_
        have hx := @hl' x
        simp only [hself, List.mem_append]
        grind
    · exact .pure fun _ => Iff.rfl

mutual

theorem expr_records {ctx : Context} (hctx : ctx.Declares) {e : Expr} (h : e.gather enumValueOf = []) :
    Records ctx.game.rules.Names [] (expr ctx e) (Expr.gather enumValueOf) := by
  obtain ⟨k, d, t⟩ := e
  rw [expr]
  refine .andThen (kind_records hctx h) fun k' => ?_
  have hrules := applyRules_records hctx ⟨nameKind ctx k', d, t⟩
  rw [Expr.gather] at hrules
  rwa [← gatherAll_nameKind ctx k']
termination_by structural e

theorem kind_records {ctx : Context} (hctx : ctx.Declares) {k : ExprKind}
    (h : k.gatherAll enumValueOf = []) :
    Records ctx.game.rules.Names [] (kind ctx k)
      (ExprKind.gatherAll enumValueOf) := by
  obtain ⟨hk, h⟩ := List.append_eq_nil_iff.mp h
  cases k with
  | var v | step v s i =>
    exact .andThen (parts_records hctx h) fun _ => .pure fun _ => Iff.rfl
  | binary o l r | compare o l r | nullish l r =>
    obtain ⟨hl, hr⟩ := List.append_eq_nil_iff.mp h
    exact .andThen (expr_records hctx hl) fun _ => .andThen (expr_records hctx hr)
      fun _ => .pure fun _ => Iff.rfl
  | unary o e | throw e =>
    exact .andThen (expr_records hctx h) fun _ => .pure fun _ => Iff.rfl
  | call f args | array args | logic o args =>
    exact .andThen (exprs_records hctx h) fun _ => .pure fun _ => Iff.rfl
  | callValue f i args =>
    obtain ⟨hfi, hargs⟩ := List.append_eq_nil_iff.mp h
    obtain ⟨hf, hi⟩ := List.append_eq_nil_iff.mp hfi
    exact .andThen (expr_records hctx hf) fun _ => .andThen (expr_records hctx hi)
      fun _ => .andThen (exprs_records hctx hargs) fun _ => .pure fun _ => Iff.rfl
  | new c args =>
    obtain ⟨hc, hargs⟩ := List.append_eq_nil_iff.mp h
    exact .andThen (expr_records hctx hc) fun _ => .andThen (exprs_records hctx hargs)
      fun _ => .pure fun _ => Iff.rfl
  | struct fs => exact .andThen (fields_records hctx h) fun _ => .pure fun _ => Iff.rfl
  | ternary c t f =>
    obtain ⟨hct, hf⟩ := List.append_eq_nil_iff.mp h
    obtain ⟨hc, ht⟩ := List.append_eq_nil_iff.mp hct
    exact .andThen (expr_records hctx hc) fun _ => .andThen (expr_records hctx ht)
      fun _ => .andThen (expr_records hctx hf) fun _ => .pure fun _ => Iff.rfl
  | function d => exact .andThen (function_records hctx h) fun _ => .pure fun _ => Iff.rfl
  | symbol s =>
    refine .pure fun x => ?_
    rw [ExprKind.gatherAll, hk, h, List.append_nil]
  | _ => exact .pure fun _ => Iff.rfl
termination_by structural k

theorem exprs_records {ctx : Context} (hctx : ctx.Declares) {es : List Expr}
    (h : Expr.gatherIn enumValueOf es = []) :
    Records ctx.game.rules.Names [] (exprs ctx es) (Expr.gatherIn enumValueOf) := by
  cases es with
  | nil => exact .pure fun _ => Iff.rfl
  | cons e rest =>
    obtain ⟨he, hrest⟩ := List.append_eq_nil_iff.mp h
    exact .andThen (expr_records hctx he) fun _ => .andThen (exprs_records hctx hrest)
      fun _ => .pure fun _ => Iff.rfl
termination_by structural es

theorem fields_records {ctx : Context} (hctx : ctx.Declares) {fs : List (String × Expr)}
    (h : Expr.gatherInFields enumValueOf fs = []) :
    Records ctx.game.rules.Names [] (fields ctx fs) (Expr.gatherInFields enumValueOf) := by
  cases fs with
  | nil => exact .pure fun _ => Iff.rfl
  | cons f rest =>
    obtain ⟨n, e⟩ := f
    obtain ⟨he, hrest⟩ := List.append_eq_nil_iff.mp h
    exact .andThen (expr_records hctx he) fun _ => .andThen (fields_records hctx hrest)
      fun _ => .pure fun _ => Iff.rfl
termination_by structural fs

theorem holder_records {ctx : Context} (hctx : ctx.Declares) {i : Holder} (h : i.gather enumValueOf = []) :
    Records ctx.game.rules.Names [] (holder ctx i) (Holder.gather enumValueOf) := by
  cases i with
  | expr e => exact .andThen (expr_records hctx h) fun _ => .pure fun _ => Iff.rfl
  | scope s => exact .pure fun _ => Iff.rfl
  | object id name => exact .pure fun _ => Iff.rfl
termination_by structural i

theorem parts_records {ctx : Context} (hctx : ctx.Declares) {v : Var} (h : v.gather enumValueOf = []) :
    Records ctx.game.rules.Names [] (parts ctx v) (Var.gather enumValueOf) := by
  obtain ⟨n, i, indices, l⟩ := v
  obtain ⟨hi, hindices⟩ := List.append_eq_nil_iff.mp h
  exact .andThen (holder_records hctx hi) fun _ => .andThen (exprs_records hctx hindices)
    fun _ => .pure fun _ => Iff.rfl
termination_by structural v

/-- A function has its own surroundings in the same game. -/
theorem function_records {ctx : Context} (hctx : ctx.Declares) {d : FunctionDecl}
    (h : d.gather enumValueOf = []) :
    Records ctx.game.rules.Names [] (function ctx d) (FunctionDecl.gather enumValueOf) := by
  obtain ⟨entry, name, arguments, isConstructor, body⟩ := d
  have hinner : (Context.enter ctx.game ctx.settings entry name).Declares :=
    ⟨hctx.declares, hctx.agree⟩
  refine .andThen (stmts_records hinner h) fun body' => .pure fun x => ?_
  rw [FunctionDecl.gather, gather_declareLocals, gatherIn_loopsOf, List.nil_append]
termination_by structural d

theorem stmt_records {ctx : Context} (hctx : ctx.Declares) {s : Stmt} (h : s.gather enumValueOf = []) :
    Records ctx.game.rules.Names [] (stmt ctx s) (Stmt.gather enumValueOf) := by
  cases s with
  | assign t v k d =>
    obtain ⟨ht, hv⟩ := List.append_eq_nil_iff.mp h
    refine .andThen (parts_records hctx ht) fun t' => .andThen (expr_records hctx hv) fun v' => ?_
    have hrule : ∀ r, enabled ctx (ctx.game.rules.variableRule? ctx.inside.entry
        (nameVar ctx t').name) = some r → ctx.game.rules.Attached r :=
      attached_of_enabled fun r hr => ⟨_, _, .inl hr⟩
    refine .bind (applyRule_records hctx hrule v') (List.subset_append_right _ _)
      fun v'' hv'' => .pure fun x => ?_
    have hx := @hv'' x
    simp only [Stmt.gather, gather_nameVar, List.mem_append]
    grind
  | expr e | throws e => exact .andThen (expr_records hctx h) fun _ => .pure fun _ => Iff.rfl
  | returns e =>
    refine .andThen (expr_records hctx h) fun e' => ?_
    have hrule : ∀ r, enabled ctx (ctx.game.rules.returnRule? ctx.inside.entry
        ctx.inside.function) = some r → ctx.game.rules.Attached r :=
      attached_of_enabled fun r hr => ⟨_, _, .inr (.inr hr)⟩
    refine .bind (applyRule_records hctx hrule e') (List.Subset.refl _)
      fun e'' he'' => .pure fun x => ?_
    have hx := @he'' x
    simp only [Stmt.gather, List.mem_append]
    grind
  | function d => exact .andThen (function_records hctx h) fun _ => .pure fun _ => Iff.rfl
  | cond c t e =>
    obtain ⟨hct, he⟩ := List.append_eq_nil_iff.mp h
    obtain ⟨hc, ht⟩ := List.append_eq_nil_iff.mp hct
    exact .andThen (expr_records hctx hc) fun _ => .andThen (stmts_records hctx ht).loops
      fun _ => .andThen (optionBlock_records hctx he) fun _ => .pure fun _ => Iff.rfl
  | whileLoop c b s =>
    cases c with
    | none => exact .andThen (stmts_records hctx h).loops fun _ => .pure fun _ => Iff.rfl
    | some c =>
      obtain ⟨hc, hb⟩ := List.append_eq_nil_iff.mp h
      exact .andThen (expr_records hctx hc) fun _ => .andThen (stmts_records hctx hb).loops
        fun _ => .pure fun _ => Iff.rfl
  | forLoop i c s b =>
    -- the step is cleaned before the body and stands after it among the values
    cases i with
    | none =>
      obtain ⟨hcb, hs⟩ := List.append_eq_nil_iff.mp h
      obtain ⟨hc, hb⟩ := List.append_eq_nil_iff.mp hcb
      refine .andThen (expr_records hctx hc) fun c' => .andThen (stmt_records hctx hs)
        fun s' => .andThen (stmts_records hctx hb).loops fun b' => .pure fun x => ?_
      simp only [Stmt.gather, List.mem_append, List.not_mem_nil]
      tauto
    | some i =>
      obtain ⟨hicb, hs⟩ := List.append_eq_nil_iff.mp h
      obtain ⟨hic, hb⟩ := List.append_eq_nil_iff.mp hicb
      obtain ⟨hi, hc⟩ := List.append_eq_nil_iff.mp hic
      refine .andThen (stmt_records hctx hi) fun i' => .andThen (expr_records hctx hc)
        fun c' => .andThen (stmt_records hctx hs) fun s' =>
          .andThen (stmts_records hctx hb).loops fun b' => .pure fun x => ?_
      simp only [Stmt.gather, List.mem_append, List.not_mem_nil]
      tauto
  | doUntil b c =>
    obtain ⟨hb, hc⟩ := List.append_eq_nil_iff.mp h
    exact .andThen (stmts_records hctx hb).loops fun _ => .andThen (expr_records hctx hc)
      fun _ => .pure fun _ => Iff.rfl
  | repeatLoop c b =>
    obtain ⟨hc, hb⟩ := List.append_eq_nil_iff.mp h
    exact .andThen (expr_records hctx hc) fun _ => .andThen (stmts_records hctx hb).loops
      fun _ => .pure fun _ => Iff.rfl
  | withLoop t b =>
    obtain ⟨ht, hb⟩ := List.append_eq_nil_iff.mp h
    refine .andThen (expr_records hctx ht) fun t' => .andThen (stmts_records hctx hb).loops
      fun b' => .pure fun x => ?_
    rw [Stmt.gather, gather_nameTarget, List.nil_append]
  | switch v cs =>
    obtain ⟨hv, hcs⟩ := List.append_eq_nil_iff.mp h
    exact .andThen (expr_records hctx hv) fun _ =>
      .andThen (cases_records hctx (attached_of_enabled attached_of_ruleOf?) hcs)
        fun _ => .pure fun _ => Iff.rfl
  | tryCatch b i f =>
    obtain ⟨hbi, hf⟩ := List.append_eq_nil_iff.mp h
    obtain ⟨hb, hi⟩ := List.append_eq_nil_iff.mp hbi
    exact .andThen (stmts_records hctx hb).loops fun _ => .andThen (handler_records hctx hi)
      fun _ => .andThen (optionBlock_records hctx hf) fun _ => .pure fun _ => Iff.rfl
  | staticInit b => exact .andThen (stmts_records hctx h).loops fun _ => .pure fun _ => Iff.rfl
  | _ => exact .pure fun _ => Iff.rfl
termination_by structural s

theorem stmts_records {ctx : Context} (hctx : ctx.Declares) {b : List Stmt}
    (h : Stmt.gatherIn enumValueOf b = []) :
    Records ctx.game.rules.Names [] (stmts ctx b) (Stmt.gatherIn enumValueOf) := by
  cases b with
  | nil => exact .pure fun _ => Iff.rfl
  | cons s rest =>
    obtain ⟨hs, hrest⟩ := List.append_eq_nil_iff.mp h
    exact .andThen (stmt_records hctx hs) fun _ => .andThen (stmts_records hctx hrest)
      fun _ => .pure fun _ => Iff.rfl
termination_by structural b

theorem optionBlock_records {ctx : Context} (hctx : ctx.Declares) {b : Option (List Stmt)}
    (h : Stmt.gatherInOption enumValueOf b = []) :
    Records ctx.game.rules.Names [] (optionBlock ctx b) (Stmt.gatherInOption enumValueOf) := by
  cases b with
  | none => exact .pure fun _ => Iff.rfl
  | some b => exact .andThen (stmts_records hctx h).loops fun _ => .pure fun _ => Iff.rfl
termination_by structural b

theorem handler_records {ctx : Context} (hctx : ctx.Declares) {i : Option Handler}
    (h : Handler.gather enumValueOf i = []) :
    Records ctx.game.rules.Names [] (handler ctx i) (Handler.gather enumValueOf) := by
  cases i with
  | none => exact .pure fun _ => Iff.rfl
  | some i =>
    obtain ⟨n, b⟩ := i
    exact .andThen (stmts_records hctx h).loops fun _ => .pure fun _ => Iff.rfl
termination_by structural i

theorem cases_records {ctx : Context} (hctx : ctx.Declares) {rule : Option Rule}
    (hrule : ∀ r, rule = some r → ctx.game.rules.Attached r) {cs : List SwitchCase}
    (h : SwitchCase.gatherIn enumValueOf cs = []) :
    Records ctx.game.rules.Names [] (cases ctx rule cs) (SwitchCase.gatherIn enumValueOf) := by
  cases cs with
  | nil => exact .pure fun _ => Iff.rfl
  | cons c rest =>
    obtain ⟨ls, b⟩ := c
    obtain ⟨hlb, hrest⟩ := List.append_eq_nil_iff.mp h
    obtain ⟨hl, hb⟩ := List.append_eq_nil_iff.mp hlb
    exact .andThen (labels_records hctx hrule hl) fun _ => .andThen (stmts_records hctx hb).loops
      fun _ => .andThen (cases_records hctx hrule hrest) fun _ => .pure fun _ => Iff.rfl
termination_by structural cs

theorem labels_records {ctx : Context} (hctx : ctx.Declares) {rule : Option Rule}
    (hrule : ∀ r, rule = some r → ctx.game.rules.Attached r) {ls : List (Option Expr)}
    (h : Expr.gatherInLabels enumValueOf ls = []) :
    Records ctx.game.rules.Names [] (labels ctx rule ls) (Expr.gatherInLabels enumValueOf) := by
  cases ls with
  | nil => exact .pure fun _ => Iff.rfl
  | cons l rest =>
    cases l with
    | none => exact .andThen (labels_records hctx hrule h) fun _ => .pure fun _ => Iff.rfl
    | some e =>
      obtain ⟨he, hrest⟩ := List.append_eq_nil_iff.mp h
      refine .andThen (expr_records hctx he) fun e' => ?_
      refine .bind (applyRule_records hctx hrule e') (List.Subset.refl _) fun e'' he'' => ?_
      refine .andThen (labels_records hctx hrule hrest) fun ls' => .pure fun x => ?_
      have hx := @he'' x
      simp only [Expr.gatherInLabels, List.mem_append]
      grind
termination_by structural ls

end

end Clean

open Clean in
/-- The table has a name for a value of an enum exactly where the cleaned code, the bodies of
functions included, has the value under that name. -/
theorem cleanEntry_names_iff {game : Game} {settings : Settings} (entry : String)
    {body : List Stmt} (hbody : Stmt.gatherIn enumValueOf body = []) (hd : settings.declareEnums = true)
    (hagree : game.rules.NamesAgree) (x : EnumValue) :
    (cleanEntry game settings entry body).2.Names x ↔
      x ∈ Stmt.gatherIn enumValueOf (cleanEntry game settings entry body).1 := by
  have hctx : (Context.enter game settings entry none).Declares := ⟨hd, hagree⟩
  have hrun := stmts_records hctx hbody {} (fun y hy => (EnumTable.not_names_empty y hy).elim)
    fun y hy => (List.not_mem_nil hy).elim
  have hnames := (hrun.names x).trans (or_iff_right (EnumTable.not_names_empty x))
  have hbody' : Stmt.gatherIn enumValueOf (cleanEntry game settings entry body).1 =
      Stmt.gatherIn enumValueOf ((stmts (Context.enter game settings entry none) body).run {}).1 := by
    unfold cleanEntry
    dsimp only
    split
    rename_i cleaned enums hcleaned
    rw [hcleaned]
    dsimp only
    split
    · rw [gatherIn_dropExit, gather_declareLocals, gatherIn_loopsOf]
    · rw [gather_declareLocals, gatherIn_loopsOf]
  rw [hbody']
  exact hnames

/-- The states of an object. -/
def stateNames : Table Int String := .ofList [(1, "Idle"), (2, "Run")]

/-- A game whose variable `state` holds the values of an enum. -/
def stateGame : Game :=
  let vars : Table String Rule := .ofList [("state", .enumeration "State" stateNames)]
  { rules := { everywhere := { vars } } }

theorem stateGame_namesAgree : stateGame.rules.NamesAgree := by
  refine RuleBook.namesAgree_of_tables (fun _ => stateNames) ?_
  rintro rule ⟨entry, name, h | h | h⟩ p hp
  · have hrule : (name, rule) ∈ stateGame.rules.everywhere.vars.items :=
      Table.get?_eq_some_iff.mp h
    cases List.mem_singleton.mp hrule
    rw [List.mem_singleton.mp hp]
  · cases h
  · cases h

/-- In `function reset() { state = 2 }` the number becomes `State.Run`, which the table names. -/
theorem cleanEntry_names_iff_nested :
    let reset : FunctionDecl := ⟨"gml_Script_reset", some "reset", [], false,
      [.assign (.ofScope "state" .own) (.ofKind (.int16 2 false) .int16) .normal false]⟩
    Stmt.gatherIn enumValueOf [.function reset] = [] ∧
      (cleanEntry stateGame {} "gml_GlobalScript_s" [.function reset]).2.Names
        ⟨"State", "Run", 2⟩ := by
  intro reset
  have hplain : Stmt.gatherIn enumValueOf [.function reset] = [] := rfl
  have hcleaned : ⟨"State", "Run", 2⟩ ∈
      Stmt.gatherIn enumValueOf (cleanEntry stateGame {} "gml_GlobalScript_s" [.function reset]).1 := by
    decide +kernel
  exact ⟨hplain, (cleanEntry_names_iff "gml_GlobalScript_s" hplain rfl stateGame_namesAgree _).mpr
    hcleaned⟩

end GmlLift
