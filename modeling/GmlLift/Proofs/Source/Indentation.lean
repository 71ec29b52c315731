import GmlLift.Proofs.Source.Pen
import GmlLift.Proofs.Text.Literals
import GmlLift.Proofs.Text.Numerals

/-! # Indentation is uniform

Statements written some levels further in are the same lines with more in front of each. Functions
inside expressions put line breaks into the middle of a line, so the text of an expression hangs:
what comes after its line breaks moves in, its start does not. -/
namespace GmlLift

open Source
open Text (mem_toString_int isDigit_of_mem)
open Decimal (Binary64 Scaled Rounding)

/-! ## The names in a tree -/

mutual

/-- The names that stand in the text of an expression. -/
def Expr.names : Expr → List String
  | ⟨k, _, _⟩ => k.names
termination_by structural x => x

def ExprKind.names : ExprKind → List String
  | .var v | .step v _ _ => v.names
  | .binary _ l r | .compare _ l r | .nullish l r => l.names ++ r.names
  | .unary _ e | .throw e => e.names
  | .call f args => functionName f :: Expr.namesIn args
  | .array items | .logic _ items => Expr.namesIn items
  | .callValue f _ args | .new f args => f.names ++ Expr.namesIn args
  | .struct fields => Expr.namesInFields fields
  | .functionRef n => [functionName n]
  | .function d => d.names
  | .ternary c t f => c.names ++ t.names ++ f.names
  | .symbol (.enumValue e v _) => [e, v]
  | .symbol (.constant n) | .symbol (.asset n) => [n]
  | .int16 .. | .int32 _ | .int64 _ | .double _ | .string _ | .bool _ | .scope _ | .asset .. => []
termination_by structural x => x

def Expr.namesIn : List Expr → List String
  | [] => []
  | e :: rest => e.names ++ Expr.namesIn rest
termination_by structural x => x

def Expr.namesInFields : List (String × Expr) → List String
  | [] => []
  | (n, e) :: rest => n :: e.names ++ Expr.namesInFields rest
termination_by structural x => x

def Holder.names : Holder → List String
  | .scope _ => []
  | .object _ name => name.toList
  | .expr e => e.names
termination_by structural x => x

def Var.names : Var → List String
  | ⟨n, h, indices, _⟩ => h.names ++ n :: Expr.namesIn indices
termination_by structural x => x

/-- The names in the parameters and the body of a function. -/
def FunctionDecl.names : FunctionDecl → List String
  | ⟨_, _, a, _, b⟩ => a ++ Stmt.namesIn b
termination_by structural x => x

def Stmt.names : Stmt → List String
  | .assign t v _ _ => t.names ++ v.names
  | .expr e | .returns e | .throws e => e.names
  | .function ⟨e, n, a, c, b⟩ => declaredName ⟨e, n, a, c, b⟩ :: (a ++ Stmt.namesIn b)
  | .cond c t e => c.names ++ Stmt.namesIn t ++ Stmt.namesInOption e
  | .whileLoop none b _ => Stmt.namesIn b
  | .whileLoop (some c) b _ => c.names ++ Stmt.namesIn b
  | .forLoop none c t b => c.names ++ t.names ++ Stmt.namesIn b
  | .forLoop (some i) c t b => i.names ++ c.names ++ t.names ++ Stmt.namesIn b
  | .doUntil b c => Stmt.namesIn b ++ c.names
  | .repeatLoop e b | .withLoop e b => e.names ++ Stmt.namesIn b
  | .switch v cs => v.names ++ SwitchCase.namesIn cs
  | .tryCatch b h f => Stmt.namesIn b ++ Handler.names h ++ Stmt.namesInOption f
  | .staticInit b => Stmt.namesIn b
  | .breakJump | .continueJump | .exit => []
termination_by structural x => x

def Stmt.namesIn : List Stmt → List String
  | [] => []
  | t :: rest => t.names ++ Stmt.namesIn rest
termination_by structural x => x

def Stmt.namesInOption : Option (List Stmt) → List String
  | none => []
  | some b => Stmt.namesIn b
termination_by structural x => x

def Handler.names : Option Handler → List String
  | none => []
  | some ⟨n, b⟩ => n.toList ++ Stmt.namesIn b
termination_by structural x => x

def SwitchCase.namesIn : List SwitchCase → List String
  | [] => []
  | ⟨ls, b⟩ :: rest => Expr.namesInLabels ls ++ Stmt.namesIn b ++ SwitchCase.namesIn rest
termination_by structural x => x

def Expr.namesInLabels : List (Option Expr) → List String
  | [] => []
  | none :: rest => Expr.namesInLabels rest
  | some e :: rest => e.names ++ Expr.namesInLabels rest
termination_by structural x => x

end

/-- No text in the list goes over the end of a line. -/
def Unbroken (l : List String) : Prop := ∀ n ∈ l, '\n' ∉ n.toList

@[simp] theorem unbroken_nil : Unbroken [] := fun _ hn => (List.not_mem_nil hn).elim

@[simp] theorem unbroken_cons {n : String} {l : List String} :
    Unbroken (n :: l) ↔ '\n' ∉ n.toList ∧ Unbroken l :=
  List.forall_mem_cons

@[simp] theorem unbroken_append {l l' : List String} :
    Unbroken (l ++ l') ↔ Unbroken l ∧ Unbroken l' :=
  List.forall_mem_append

/-! ## Text in front of lines -/

namespace Source

/-- Characters with others in front of every line, from the start of a line or from inside one. -/
def indentFrom (pre : List Char) : Bool → List Char → List Char
  | _, [] => []
  | true, c :: rest => pre ++ c :: indentFrom pre (c == '\n') rest
  | false, c :: rest => c :: indentFrom pre (c == '\n') rest

/-- Text with some more in front of every line. -/
def indented (pre text : String) : String := String.ofList (indentFrom pre.toList true text.toList)

/-- Text with some more after every line break. -/
def hang (pre text : String) : String :=
  String.ofList (text.toList.flatMap fun c => if c = '\n' then c :: pre.toList else [c])

section

variable (pre : String)

@[simp] theorem toList_hang (text : String) : (hang pre text).toList =
    text.toList.flatMap fun c => if c = '\n' then c :: pre.toList else [c] :=
  String.toList_ofList

@[simp] theorem hang_append (a b : String) : hang pre (a ++ b) = hang pre a ++ hang pre b := by
  simp [← String.toList_inj]

theorem hang_newline : hang pre "\n" = "\n" ++ pre := by
  simp [← String.toList_inj]

/-- Inside one line nothing changes. -/
theorem hang_of_not_mem {text : String} (h : '\n' ∉ text.toList) : hang pre text = text := by
  have hsame : ∀ l : List Char, '\n' ∉ l →
      (l.flatMap fun c => if c = '\n' then c :: pre.toList else [c]) = l := by
    intro l hl
    induction l with
    | nil => rfl
    | cons c rest ih =>
      obtain ⟨hc, hrest⟩ := List.ne_and_not_mem_of_not_mem_cons hl
      simp [Ne.symm hc, ih hrest]
  rw [← String.toList_inj, toList_hang, hsame _ h]

theorem hang_intercalate {sep : String} (h : '\n' ∉ sep.toList) (l : List String) :
    hang pre (sep.intercalate l) = sep.intercalate (l.map (hang pre)) := by
  induction l with
  | nil => rw [List.map_nil, String.intercalate_nil, hang_of_not_mem pre (by simp)]
  | cons a rest ih =>
    cases rest with
    | nil => simp
    | cons b rest => simpa [hang_of_not_mem pre h] using ih

theorem hang_join (l : List String) :
    hang pre (String.join l) = String.join (l.map (hang pre)) := by
  induction l with
  | nil => exact hang_of_not_mem pre (by simp)
  | cons a rest ih => simp [ih]

/-- The text consists of whole lines. -/
def Whole (text : String) : Prop := text = "" ∨ ∃ init, text = init ++ "\n"

/-- The second text is the first with more in front of every line. What is in front of the first
line and what would be in front of a next one are on one side each, so that texts can be joined. -/
structure Shifted (text text' : String) : Prop where
  whole : Whole text
  eq : text' ++ pre = pre ++ hang pre text

end

theorem indentFrom_append_newline (pre a : List Char) (start : Bool) :
    indentFrom pre start (a ++ ['\n']) ++ pre = (if start then pre else [])
      ++ (a ++ ['\n']).flatMap fun c => if c = '\n' then c :: pre else [c] := by
  induction a generalizing start with
  | nil => cases start <;> simp [indentFrom]
  | cons c a ih =>
    have hrest := ih (c == '\n')
    cases start <;> by_cases hc : c = '\n' <;> simp_all [indentFrom]

theorem Shifted.eq_indented {pre text text' : String} (h : Shifted pre text text') :
    text' = indented pre text := by
  have heq := congrArg String.toList h.eq
  rw [String.toList_append, String.toList_append, toList_hang] at heq
  rw [← String.toList_inj, indented, String.toList_ofList]
  refine List.append_cancel_right (heq.trans ?_)
  obtain rfl | ⟨init, rfl⟩ := h.whole
  · simp [indentFrom]
  · simpa using (indentFrom_append_newline pre.toList init.toList true).symm

/-! ## Texts inside one line -/

theorem not_mem_toString (n : Int) : '\n' ∉ (toString n).toList := fun h => by
  rcases mem_toString_int h with h | h <;> exact absurd h (by decide)

theorem not_mem_toDigits (n : Nat) : '\n' ∉ Nat.toDigits 10 n := fun h =>
  absurd (isDigit_of_mem h) (by decide)

theorem not_mem_positional (x : Scaled) : '\n' ∉ x.positional.toList := by
  unfold Scaled.positional
  dsimp only
  split
  · simp [not_mem_toDigits]
  · intro h
    simp only [String.toList_ofList, List.mem_append, List.mem_cons] at h
    have hdigits : '\n' ∉ List.replicate ((-x.exponent).toNat + 1
        - (Nat.toDigits 10 x.digits).length) '0' ++ Nat.toDigits 10 x.digits := by
      simp [not_mem_toDigits]
    rcases h with h | h | h
    · exact hdigits (List.mem_of_mem_take h)
    · exact absurd h (by decide)
    · exact hdigits (List.mem_of_mem_drop h)

theorem not_mem_signText (x : Binary64) : '\n' ∉ x.signText.toList := by
  unfold Binary64.signText
  split <;> simp

theorem not_mem_text (x : Binary64) : '\n' ∉ x.text.toList := by
  unfold Binary64.text
  split
  · simp
  · split
    · simp [not_mem_signText]
    · split <;> simp [not_mem_signText, not_mem_positional]

theorem not_mem_doubleLiteral (x : Binary64) : '\n' ∉ (doubleLiteral x).toList := by
  unfold doubleLiteral
  split
  · simp [not_mem_signText, not_mem_toDigits]
  · exact not_mem_text x

/-- A line break in a string is written as an escape. -/
theorem not_mem_stringLiteral (t : String) : '\n' ∉ (stringLiteral t).toList := by
  have hinside := (enclosed_escape t).oneLine '\n' (by decide)
  simp [toList_stringLiteral, hinside]

theorem not_mem_indentation {s : Settings} (h : '\n' ∉ s.indent.toList) (depth : Nat) :
    '\n' ∉ (indentation s depth).toList := by
  simp [indentation, h]

theorem not_mem_commaList {l : List String} (h : Unbroken l) : '\n' ∉ (commaList l).toList := by
  induction l with
  | nil => simp [commaList]
  | cons n rest ih =>
    have hrest := ih (unbroken_cons.mp h).2
    cases rest with
    | nil => simpa [commaList] using (unbroken_cons.mp h).1
    | cons => simpa [commaList, (unbroken_cons.mp h).1] using hrest

theorem not_mem_functionHeader {name : Option String} {d : FunctionDecl}
    (hname : Unbroken name.toList) (h : Unbroken d.arguments) :
    '\n' ∉ (functionHeader name d).toList := by
  have hlist := not_mem_commaList h
  cases name with
  | none => cases hc : d.isConstructor <;> simp [functionHeader, hc, hlist]
  | some n =>
    have hn := (unbroken_cons.mp hname).1
    cases hc : d.isConstructor <;> simp [functionHeader, hc, hlist, hn]

/-! ## Joining texts that are moved in -/

section

variable {pre : String}

@[simp] theorem hang_parenthesized (b : Bool) (text : String) :
    hang pre (parenthesized b text) = parenthesized b (hang pre text) := by
  cases b <;> simp [parenthesized, hang_of_not_mem]

theorem hang_commaList (l : List String) :
    hang pre (commaList l) = commaList (l.map (hang pre)) :=
  hang_intercalate pre (by simp) l

theorem hang_stepped (target : String) (side : Side) (increment : Bool) :
    hang pre (stepped target side increment) = stepped (hang pre target) side increment := by
  cases side <;> cases increment <;> simp [stepped, stepText, hang_of_not_mem]

theorem hang_assignment {keyword : String} (h : '\n' ∉ keyword.toList) (target value : String)
    (kind : AssignKind) : hang pre (assignment keyword target value kind) =
      assignment keyword (hang pre target) (hang pre value) kind := by
  cases kind with
  | normal => simp [assignment, hang_of_not_mem, h]
  | compound op => cases op <;> simp [assignment, BinaryOp.text, hang_of_not_mem]
  | step side increment => simp [assignment, hang_stepped]

theorem not_mem_assignKeyword (inStatic declare : Bool) :
    '\n' ∉ (assignKeyword inStatic declare).toList := by
  cases inStatic <;> cases declare <;> simp [assignKeyword]

theorem hang_terminator (s : Settings) : hang pre (terminator s) = terminator s := by
  unfold terminator
  split <;> simp [hang_of_not_mem]

theorem Whole.append {a b : String} (ha : Whole a) (hb : Whole b) : Whole (a ++ b) := by
  obtain rfl | ⟨init, rfl⟩ := hb
  · simpa using ha
  · exact .inr ⟨a ++ init, (String.append_assoc ..).symm⟩

theorem Shifted.empty : Shifted pre "" "" :=
  ⟨.inl rfl, by simp [hang_of_not_mem]⟩

theorem Shifted.append {a a' b b' : String} (ha : Shifted pre a a') (hb : Shifted pre b b') :
    Shifted pre (a ++ b) (a' ++ b') :=
  ⟨ha.whole.append hb.whole, by
    rw [String.append_assoc, hb.eq, ← String.append_assoc, ha.eq, String.append_assoc, hang_append]⟩

end

theorem indentation_add (s : Settings) (d k : Nat) :
    indentation s (d + k) = indentation s d ++ indentation s k := by
  rw [indentation, ← List.replicate_append_replicate, String.join_append]
  rfl

section

variable {s : Settings} (hs : '\n' ∉ s.indent.toList) {d : Nat} (k : Nat) {text text' : String}

include hs

theorem shifted_line (h : text' = hang (indentation s d) text) :
    Shifted (indentation s d) (line s k text) (line s (d + k) text') where
  whole := .inr ⟨_, rfl⟩
  eq := by
    simp [line, h, indentation_add, hang_newline, String.append_assoc,
      hang_of_not_mem _ (not_mem_indentation hs k)]

theorem shifted_openBlock (h : text' = hang (indentation s d) text) :
    Shifted (indentation s d) (openBlock s k text) (openBlock s (d + k) text') := by
  unfold openBlock
  split
  · exact shifted_line hs k (by simp [h, hang_of_not_mem])
  · exact (shifted_line hs k h).append (shifted_line hs k (by simp [hang_of_not_mem]))

theorem shifted_closeBlock (h : text' = hang (indentation s d) text) :
    Shifted (indentation s d) (closeBlock s k text) (closeBlock s (d + k) text') :=
  shifted_line hs k (by simp [h, hang_of_not_mem])

theorem shifted_reopenBlock (h : text' = hang (indentation s d) text) :
    Shifted (indentation s d) (reopenBlock s k text) (reopenBlock s (d + k) text') := by
  unfold reopenBlock
  split
  · exact shifted_line hs k (by simp [h, hang_of_not_mem])
  · exact ((shifted_line hs k (by simp [hang_of_not_mem])).append (shifted_line hs k h)).append
      (shifted_line hs k (by simp [hang_of_not_mem]))

theorem shifted_block {body body' : String} (h : text' = hang (indentation s d) text)
    (hbody : Shifted (indentation s d) body body') :
    Shifted (indentation s d) (block s k text body) (block s (d + k) text' body') :=
  ((shifted_openBlock hs k h).append hbody).append
    (shifted_closeBlock hs k (by simp [hang_of_not_mem]))

/-- The lines of a function's body move in, and so does the brace after them. -/
theorem hang_functionLiteral {body body' : String} (h : '\n' ∉ text.toList)
    (hbody : Shifted (indentation s d) body body') :
    functionLiteral s (d + k) text body' =
      hang (indentation s d) (functionLiteral s k text body) := by
  have hindent := hang_of_not_mem (indentation s d) (not_mem_indentation hs k)
  have hbrace : hang (indentation s d) " \x7b\n" = " \x7b\n" ++ indentation s d := by
    simp [← String.toList_inj]
  have hbrace' : hang (indentation s d) "\x7b\n" = "\x7b\n" ++ indentation s d := by
    simp [← String.toList_inj]
  have hclose : hang (indentation s d) "\x7d" = "\x7d" := hang_of_not_mem _ (by simp)
  have hmove (rest : String) : body' ++ (indentation s d ++ rest) =
      indentation s d ++ (hang (indentation s d) body ++ rest) := by
    rw [← String.append_assoc, hbody.eq, String.append_assoc]
  unfold functionLiteral
  split
  · simp only [hang_append, hang_of_not_mem _ h, hindent, hbrace, hclose, indentation_add,
      String.append_assoc, hmove]
  · simp only [hang_append, hang_of_not_mem _ h, hang_newline, hindent, hbrace', hclose,
      indentation_add, String.append_assoc, hmove]

end

end Source

/-! ## Statements some levels in -/

section

variable {s : Settings} {d : Nat}

mutual

theorem Expr.source_add (hs : '\n' ∉ s.indent.toList) (k : Nat) (e : Expr) (h : Unbroken e.names) :
    e.source s (d + k) = hang (indentation s d) (e.source s k) := by
  obtain ⟨kind, dup, type⟩ := e
  exact kind.source_add hs k h
termination_by structural e

theorem ExprKind.source_add (hs : '\n' ∉ s.indent.toList) (k : Nat) (kind : ExprKind)
    (h : Unbroken kind.names) :
    kind.source s (d + k) = hang (indentation s d) (kind.source s k) := by
  cases kind with
  | int16 v _ | int32 v | int64 v => exact (hang_of_not_mem _ (not_mem_toString v.toInt)).symm
  | asset _ id => exact (hang_of_not_mem _ (not_mem_toString id.toInt)).symm
  | double v => exact (hang_of_not_mem _ (not_mem_doubleLiteral v)).symm
  | string t => exact (hang_of_not_mem _ (not_mem_stringLiteral t)).symm
  | bool b => cases b <;> simp [ExprKind.source, hang_of_not_mem]
  | var v => exact v.source_add hs k h
  | binary op l r =>
    obtain ⟨hl, hr⟩ := unbroken_append.mp h
    have hop : '\n' ∉ (op.text (bothBoolean l r)).toList := by
      cases op <;> cases bothBoolean l r <;> simp [BinaryOp.text]
    simp [ExprKind.source, l.source_add hs k hl, r.source_add hs k hr, hang_of_not_mem, hop]
  | compare c l r =>
    obtain ⟨hl, hr⟩ := unbroken_append.mp h
    have hop : '\n' ∉ c.text.toList := by cases c <;> simp [Comparison.text]
    simp [ExprKind.source, l.source_add hs k hl, r.source_add hs k hr, hang_of_not_mem, hop]
  | unary op e =>
    have hop : '\n' ∉ op.text.toList := by cases op <;> simp [UnaryOp.text]
    simp [ExprKind.source, e.source_add hs k h, hang_of_not_mem, hop]
  | call f args =>
    obtain ⟨hf, hargs⟩ := unbroken_cons.mp h
    simp [ExprKind.source, Expr.sourceList_add hs k 0 args hargs, hang_commaList,
      hang_of_not_mem, hf]
  | callValue f _ args | new f args =>
    obtain ⟨hf, hargs⟩ := unbroken_append.mp h
    simp [ExprKind.source, f.source_add hs k hf, Expr.sourceList_add hs k 0 args hargs,
      hang_commaList, hang_of_not_mem]
  | array items =>
    simp [ExprKind.source, Expr.sourceList_add hs k 0 items h, hang_commaList, hang_of_not_mem]
  | struct fields =>
    rw [ExprKind.source, ExprKind.source]
    split
    · simp [hang_of_not_mem]
    · simp [Expr.sourceFields_add hs k fields h, hang_commaList, hang_of_not_mem]
  | functionRef n => exact (hang_of_not_mem _ (unbroken_cons.mp h).1).symm
  | function decl => exact decl.literal_add hs k h
  | ternary c t f =>
    obtain ⟨hct, hf⟩ := unbroken_append.mp h
    obtain ⟨hc, ht⟩ := unbroken_append.mp hct
    simp [ExprKind.source, c.source_add hs k hc, t.source_add hs k ht, f.source_add hs k hf,
      hang_of_not_mem]
  | logic op cs =>
    have hop : '\n' ∉ (" " ++ op.text ++ " ").toList := by cases op <;> simp [Logic.text]
    rw [ExprKind.source, ExprKind.source, hang_intercalate _ hop, Expr.sourceList_add hs k _ cs h]
  | nullish l r =>
    obtain ⟨hl, hr⟩ := unbroken_append.mp h
    simp [ExprKind.source, l.source_add hs k hl, r.source_add hs k hr, hang_of_not_mem]
  | step v side increment =>
    rw [ExprKind.source, ExprKind.source, hang_stepped, v.source_add hs k h]
  | scope w =>
    have hw : '\n' ∉ w.keyword.toList := by cases w <;> simp [Scope.keyword]
    exact (hang_of_not_mem _ hw).symm
  | throw e => simp [ExprKind.source, e.source_add hs k h, hang_of_not_mem]
  | symbol y =>
    cases y with
    | enumValue e v _ =>
      simp only [ExprKind.names, unbroken_cons] at h
      simp [ExprKind.source, hang_of_not_mem, h]
    | constant n | asset n => exact (hang_of_not_mem _ (unbroken_cons.mp h).1).symm
termination_by structural kind

theorem Expr.sourceList_add (hs : '\n' ∉ s.indent.toList) (k : Nat) (least : Nat) (es : List Expr)
    (h : Unbroken (Expr.namesIn es)) :
    Expr.sourceList s (d + k) least es =
      (Expr.sourceList s k least es).map (hang (indentation s d)) := by
  cases es with
  | nil => rfl
  | cons e rest =>
    obtain ⟨he, hrest⟩ := unbroken_append.mp h
    simp [Expr.sourceList, e.source_add hs k he, Expr.sourceList_add hs k least rest hrest]
termination_by structural es

theorem Expr.sourceFields_add (hs : '\n' ∉ s.indent.toList) (k : Nat) (fs : List (String × Expr))
    (h : Unbroken (Expr.namesInFields fs)) :
    Expr.sourceFields s (d + k) fs =
      (Expr.sourceFields s k fs).map (hang (indentation s d)) := by
  cases fs with
  | nil => rfl
  | cons f rest =>
    obtain ⟨n, e⟩ := f
    obtain ⟨hn, hboth⟩ := unbroken_cons.mp h
    obtain ⟨he, hrest⟩ := unbroken_append.mp hboth
    simp [Expr.sourceFields, e.source_add hs k he, Expr.sourceFields_add hs k rest hrest,
      hang_of_not_mem, hn]
termination_by structural fs

theorem Holder.source_add (hs : '\n' ∉ s.indent.toList) (k : Nat) (o : Holder)
    (h : Unbroken o.names) :
    o.source s (d + k) = hang (indentation s d) (o.source s k) := by
  cases o with
  | scope w =>
    have hw : '\n' ∉ (scopeQualifier w).toList := by cases w <;> simp [scopeQualifier]
    exact (hang_of_not_mem _ hw).symm
  | object id name =>
    cases name with
    | none =>
      have hid := hang_of_not_mem (indentation s d) (not_mem_toString id.toInt)
      exact ((hang_append ..).trans (congrArg₂ (· ++ ·) hid (hang_of_not_mem _ (by simp)))).symm
    | some n => simp [Holder.source, hang_of_not_mem, (unbroken_cons.mp h).1]
  | expr e => simp [Holder.source, e.source_add hs k h, hang_of_not_mem]
termination_by structural o

theorem Var.source_add (hs : '\n' ∉ s.indent.toList) (k : Nat) (v : Var) (h : Unbroken v.names) :
    v.source s (d + k) = hang (indentation s d) (v.source s k) := by
  obtain ⟨n, o, indices, legacy2d⟩ := v
  obtain ⟨ho, hboth⟩ := unbroken_append.mp h
  obtain ⟨hn, hindices⟩ := unbroken_cons.mp hboth
  simp only [Var.source, hang_append, hang_of_not_mem _ hn, o.source_add hs k ho,
    Expr.sourceList_add hs k 0 indices hindices]
  cases legacy2d with
  | false => simp [hang_join, hang_of_not_mem, Function.comp_def]
  | true => simp [hang_commaList, hang_of_not_mem]
termination_by structural v

theorem FunctionDecl.literal_add (hs : '\n' ∉ s.indent.toList) (k : Nat) (decl : FunctionDecl)
    (h : Unbroken decl.names) :
    decl.literal s (d + k) = hang (indentation s d) (decl.literal s k) := by
  obtain ⟨e, n, a, c, b⟩ := decl
  obtain ⟨ha, hb⟩ := unbroken_append.mp h
  exact hang_functionLiteral hs k (not_mem_functionHeader unbroken_nil ha)
    (Stmt.sourceList_shifted hs (k + 1) false b hb)
termination_by structural decl

theorem Stmt.inline_add (hs : '\n' ∉ s.indent.toList) (k : Nat) (inStatic : Bool) (t : Stmt)
    (h : Unbroken t.names) :
    t.inline s (d + k) inStatic = hang (indentation s d) (t.inline s k inStatic) := by
  cases t with
  | assign v e kind declare =>
    obtain ⟨hv, he⟩ := unbroken_append.mp h
    rw [Stmt.inline, Stmt.inline, hang_assignment (not_mem_assignKeyword _ _), v.source_add hs k hv,
      e.source_add hs k he]
  | expr e => exact e.source_add hs k h
  | _ => rfl
termination_by structural t

theorem Stmt.source_shifted (hs : '\n' ∉ s.indent.toList) (k : Nat) (inStatic : Bool) (t : Stmt)
    (h : Unbroken t.names) :
    Shifted (indentation s d) (t.source s k inStatic) (t.source s (d + k) inStatic) := by
  cases t with
  | assign v e kind declare =>
    obtain ⟨hv, he⟩ := unbroken_append.mp h
    refine shifted_line hs k ?_
    rw [hang_append, hang_assignment (not_mem_assignKeyword _ _), hang_terminator,
      v.source_add hs k hv, e.source_add hs k he]
  | expr e => exact shifted_line hs k (by rw [hang_append, hang_terminator, e.source_add hs k h])
  | function decl =>
    obtain ⟨e, n, a, c, b⟩ := decl
    obtain ⟨hn, hab⟩ := unbroken_cons.mp h
    obtain ⟨ha, hb⟩ := unbroken_append.mp hab
    have hname : Unbroken (some (declaredName ⟨e, n, a, c, b⟩)).toList :=
      unbroken_cons.mpr ⟨hn, unbroken_nil⟩
    have hheader : '\n' ∉
        (functionHeader (some (declaredName ⟨e, n, a, c, b⟩)) ⟨e, n, a, c, b⟩).toList :=
      not_mem_functionHeader hname ha
    exact shifted_block hs k (hang_of_not_mem _ hheader).symm
      (Stmt.sourceList_shifted hs (k + 1) inStatic b hb)
  | cond c t e =>
    obtain ⟨hct, he⟩ := unbroken_append.mp h
    obtain ⟨hc, ht⟩ := unbroken_append.mp hct
    have hheader : "if (" ++ c.source s (d + k) ++ ")" =
        hang (indentation s d) ("if (" ++ c.source s k ++ ")") := by
      simp [c.source_add hs k hc, hang_of_not_mem]
    have hthen := (shifted_openBlock hs k hheader).append
      (Stmt.sourceList_shifted hs (k + 1) inStatic t ht)
    exact (hthen.append (Stmt.sourceElse_shifted hs k inStatic e he)).append
      (shifted_closeBlock hs k (by simp [hang_of_not_mem]))
  | whileLoop c b _ =>
    cases c with
    | none =>
      exact shifted_block hs k (by simp [hang_of_not_mem])
        (Stmt.sourceList_shifted hs (k + 1) inStatic b h)
    | some c =>
      obtain ⟨hc, hb⟩ := unbroken_append.mp h
      exact shifted_block hs k (by simp [c.source_add hs k hc, hang_of_not_mem])
        (Stmt.sourceList_shifted hs (k + 1) inStatic b hb)
  | forLoop i c t b =>
    cases i with
    | none =>
      obtain ⟨hct, hb⟩ := unbroken_append.mp h
      obtain ⟨hc, ht⟩ := unbroken_append.mp hct
      exact shifted_block hs k
        (by simp [c.source_add hs k hc, t.inline_add hs k inStatic ht, hang_of_not_mem])
        (Stmt.sourceList_shifted hs (k + 1) inStatic b hb)
    | some i =>
      obtain ⟨hict, hb⟩ := unbroken_append.mp h
      obtain ⟨hic, ht⟩ := unbroken_append.mp hict
      obtain ⟨hi, hc⟩ := unbroken_append.mp hic
      exact shifted_block hs k
        (by simp [i.inline_add hs k inStatic hi, c.source_add hs k hc,
          t.inline_add hs k inStatic ht, hang_of_not_mem])
        (Stmt.sourceList_shifted hs (k + 1) inStatic b hb)
  | doUntil b c =>
    obtain ⟨hb, hc⟩ := unbroken_append.mp h
    have hc' := c.source_add hs (k + 1) hc
    exact ((shifted_openBlock hs k (by simp [hang_of_not_mem])).append
      (Stmt.sourceList_shifted hs (k + 1) inStatic b hb)).append
      (shifted_closeBlock hs k (by simp [← hc', Nat.add_assoc, hang_terminator, hang_of_not_mem]))
  | repeatLoop e b | withLoop e b =>
    obtain ⟨he, hb⟩ := unbroken_append.mp h
    exact shifted_block hs k (by simp [e.source_add hs k he, hang_of_not_mem])
      (Stmt.sourceList_shifted hs (k + 1) inStatic b hb)
  | switch v cs =>
    obtain ⟨hv, hcs⟩ := unbroken_append.mp h
    exact shifted_block hs k (by simp [v.source_add hs k hv, hang_of_not_mem])
      (SwitchCase.sourceList_shifted hs k inStatic cs hcs)
  | tryCatch b o f =>
    obtain ⟨hbo, hf⟩ := unbroken_append.mp h
    obtain ⟨hb, ho⟩ := unbroken_append.mp hbo
    have hheader : "try" = hang (indentation s d) "try" := by simp [hang_of_not_mem]
    have htry := (shifted_openBlock hs k hheader).append
      (Stmt.sourceList_shifted hs (k + 1) inStatic b hb)
    exact ((htry.append (Handler.source_shifted hs k inStatic o ho)).append
      (Stmt.sourceFinally_shifted hs k inStatic f hf)).append
      (shifted_closeBlock hs k (by simp [hang_of_not_mem]))
  | staticInit b => exact Stmt.sourceList_shifted hs k true b h
  | breakJump | continueJump | exit =>
    exact shifted_line hs k (by simp [hang_terminator, hang_of_not_mem])
  | returns e | throws e =>
    exact shifted_line hs k (by simp [e.source_add hs k h, hang_terminator, hang_of_not_mem])
termination_by structural t

theorem Stmt.sourceList_shifted (hs : '\n' ∉ s.indent.toList) (k : Nat) (inStatic : Bool)
    (body : List Stmt) (h : Unbroken (Stmt.namesIn body)) : Shifted (indentation s d)
      (Stmt.sourceList s k inStatic body) (Stmt.sourceList s (d + k) inStatic body) := by
  cases body with
  | nil => exact Shifted.empty
  | cons t rest =>
    obtain ⟨ht, hrest⟩ := unbroken_append.mp h
    exact (t.source_shifted hs k inStatic ht).append
      (Stmt.sourceList_shifted hs k inStatic rest hrest)
termination_by structural body

theorem Stmt.sourceElse_shifted (hs : '\n' ∉ s.indent.toList) (k : Nat) (inStatic : Bool)
    (e : Option (List Stmt)) (h : Unbroken (Stmt.namesInOption e)) : Shifted (indentation s d)
      (Stmt.sourceElse s k inStatic e) (Stmt.sourceElse s (d + k) inStatic e) := by
  cases e with
  | none => exact Shifted.empty
  | some body =>
    have hheader : "else" = hang (indentation s d) "else" := by simp [hang_of_not_mem]
    have helse : Shifted (indentation s d) (reopenBlock s k "else" ++ _)
        (reopenBlock s (d + k) "else" ++ _) :=
      (shifted_reopenBlock hs k hheader).append (Stmt.sourceList_shifted hs (k + 1) inStatic body h)
    cases body with
    | nil => exact helse
    | cons t rest =>
      cases rest with
      | cons => cases t <;> exact helse
      | nil =>
        cases t with
        | cond c t e =>
          simp only [Stmt.namesInOption, Stmt.namesIn, Stmt.names, unbroken_append] at h
          obtain ⟨⟨⟨hc, ht⟩, he⟩, -⟩ := h
          have hheader : "else if (" ++ c.source s (d + (k + 1)) ++ ")" =
              hang (indentation s d) ("else if (" ++ c.source s (k + 1) ++ ")") := by
            simp [c.source_add hs (k + 1) hc, hang_of_not_mem]
          have hthen := (shifted_reopenBlock hs k hheader).append
            (Stmt.sourceList_shifted hs (k + 1) inStatic t ht)
          exact hthen.append (Stmt.sourceElse_shifted hs k inStatic e he)
        | _ => exact helse
termination_by structural e

theorem Stmt.sourceFinally_shifted (hs : '\n' ∉ s.indent.toList) (k : Nat) (inStatic : Bool)
    (f : Option (List Stmt)) (h : Unbroken (Stmt.namesInOption f)) : Shifted (indentation s d)
      (Stmt.sourceFinally s k inStatic f) (Stmt.sourceFinally s (d + k) inStatic f) := by
  cases f with
  | none => exact Shifted.empty
  | some body =>
    exact (shifted_reopenBlock hs k (by simp [hang_of_not_mem])).append
      (Stmt.sourceList_shifted hs (k + 1) inStatic body h)
termination_by structural f

theorem Handler.source_shifted (hs : '\n' ∉ s.indent.toList) (k : Nat) (inStatic : Bool)
    (o : Option Handler) (h : Unbroken (Handler.names o)) : Shifted (indentation s d)
      (Handler.source s k inStatic o) (Handler.source s (d + k) inStatic o) := by
  cases o with
  | none => exact Shifted.empty
  | some o =>
    obtain ⟨n, body⟩ := o
    obtain ⟨hn, hbody⟩ := unbroken_append.mp h
    cases n with
    | none =>
      exact (shifted_reopenBlock hs k (by simp [hang_of_not_mem])).append
        (Stmt.sourceList_shifted hs (k + 1) inStatic body hbody)
    | some n =>
      exact (shifted_reopenBlock hs k (by simp [hang_of_not_mem, (unbroken_cons.mp hn).1])).append
        (Stmt.sourceList_shifted hs (k + 1) inStatic body hbody)
termination_by structural o

theorem SwitchCase.sourceList_shifted (hs : '\n' ∉ s.indent.toList) (k : Nat) (inStatic : Bool)
    (cs : List SwitchCase) (h : Unbroken (SwitchCase.namesIn cs)) : Shifted (indentation s d)
      (SwitchCase.sourceList s k inStatic cs) (SwitchCase.sourceList s (d + k) inStatic cs) := by
  cases cs with
  | nil => exact Shifted.empty
  | cons c rest =>
    obtain ⟨ls, b⟩ := c
    obtain ⟨hboth, hrest⟩ := unbroken_append.mp h
    obtain ⟨hls, hb⟩ := unbroken_append.mp hboth
    exact ((Expr.sourceLabels_shifted hs (k + 1) ls hls).append
      (Stmt.sourceList_shifted hs (k + 2) inStatic b hb)).append
      (SwitchCase.sourceList_shifted hs k inStatic rest hrest)
termination_by structural cs

theorem Expr.sourceLabels_shifted (hs : '\n' ∉ s.indent.toList) (k : Nat) (ls : List (Option Expr))
    (h : Unbroken (Expr.namesInLabels ls)) : Shifted (indentation s d)
      (Expr.sourceLabels s k ls) (Expr.sourceLabels s (d + k) ls) := by
  cases ls with
  | nil => exact Shifted.empty
  | cons l rest =>
    cases l with
    | none =>
      exact (shifted_line hs k (by simp [hang_of_not_mem])).append
        (Expr.sourceLabels_shifted hs k rest h)
    | some e =>
      obtain ⟨he, hrest⟩ := unbroken_append.mp h
      exact (shifted_line hs k (by simp [e.source_add hs k he, hang_of_not_mem])).append
        (Expr.sourceLabels_shifted hs k rest hrest)
termination_by structural ls

end

/-- Statements deeper in are the same lines, each with more in front. -/
theorem Stmt.sourceList_eq_indented (hs : '\n' ∉ s.indent.toList) {body : List Stmt}
    (h : Unbroken (Stmt.namesIn body)) (d : Nat) (inStatic : Bool) :
    Stmt.sourceList s d inStatic body =
      indented (indentation s d) (Stmt.sourceList s 0 inStatic body) :=
  (Stmt.sourceList_shifted hs 0 inStatic body h).eq_indented

/-- A pen at any depth writes statements without ever having to leave the outermost level and ends
as deep as it began, inside or outside of a static initializer as before. What it writes is what a
pen at depth zero writes with that many levels of indentation in front of every line. The body of a
function inside an expression comes from a pen of its own that starts one level further in. -/
theorem Stmt.writeAll_indented (hs : '\n' ∉ s.indent.toList) {body : List Stmt}
    (h : ∀ n ∈ Stmt.namesIn body, '\n' ∉ n.toList) (out : String) (d : Nat) (inStatic : Bool) :
    let text := Stmt.sourceList s 0 inStatic body
    Stmt.writeAll s body ⟨"", 0, inStatic⟩ = some ⟨text, 0, inStatic⟩ ∧
      Stmt.writeAll s body ⟨out, d, inStatic⟩ =
        some ⟨out ++ indented (indentation s d) text, d, inStatic⟩ ∧
      ∀ (decl : FunctionDecl) (k : Nat), ∃ inner,
        Stmt.writeAll s decl.body ⟨"", k + 1, false⟩ = some ⟨inner, k + 1, false⟩ ∧
          decl.literal s k = functionLiteral s k (functionHeader none decl) inner := by
  refine ⟨?_, ?_, fun decl k => ?_⟩
  · simp [Stmt.writeAll_eq, Pen.wrote]
  · rw [← Stmt.sourceList_eq_indented hs h]
    exact Stmt.writeAll_eq s body ⟨out, d, inStatic⟩
  · obtain ⟨e, n, a, c, b⟩ := decl
    refine ⟨Stmt.sourceList s (k + 1) false b, ?_, rfl⟩
    simp [Stmt.writeAll_eq, Pen.wrote, FunctionDecl.body]

/-- A function that is assigned in a branch, from two levels in. -/
theorem Stmt.writeAll_indented_function :
    let s : Settings := { indent := "\t" }
    let body : List Stmt := [.cond (.ofVar (.ofScope "ready" .own))
      [.assign (.ofScope "f" .own)
        (.ofKind (.function ⟨"gml_Script_f", none, ["a"], false, [.exit]⟩) .var) .normal false]
      (some [.breakJump])]
    '\n' ∉ s.indent.toList ∧ (∀ n ∈ Stmt.namesIn body, '\n' ∉ n.toList) ∧
      Stmt.writeAll s body ⟨"do\n", 2, false⟩ = some ⟨"do\n"
        ++ "\t\tif (ready)\n\t\t\x7b\n\t\t\tf = function(a)\n\t\t\t\x7b\n"
        ++ "\t\t\t\texit;\n\t\t\t\x7d;\n\t\t\x7d\n\t\telse\n\t\t\x7b\n"
        ++ "\t\t\tbreak;\n\t\t\x7d\n", 2, false⟩ := by
  intro s body
  have hs : '\n' ∉ s.indent.toList := by decide
  have hnames : ∀ n ∈ Stmt.namesIn body, '\n' ∉ n.toList := by decide +kernel
  refine ⟨hs, hnames, (Stmt.writeAll_indented hs hnames "do\n" 2 false).2.1.trans ?_⟩
  decide +kernel

end

end GmlLift
