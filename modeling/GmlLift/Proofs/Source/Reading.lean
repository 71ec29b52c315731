import GmlLift.Proofs.Text.Numerals
import GmlLift.Source.Basic

/-! # Reading expressions

A reader for the text of expressions, from left to right: it reads an operand, then goes on as long
as operators follow that bind tightly enough. What it makes of a text does not depend on what was
written, so two expressions that it reads from the same text are the same. The reader has fuel for
so many calls within each other: with enough of it, texts that are written are read in full. -/
namespace GmlLift

open Text (after? after?_append cutAt cutAt_append_cons dropWhile_eq_self readDigits
  readDigits_toDigits isDigit_of_mem toDigits_ne_nil)

/-! ## Operators between operands -/

/-- The operators that join two operands. -/
inductive Joiner where
  | binary (op : BinaryOp)
  | compare (kind : Comparison)
  | nullish
deriving DecidableEq

namespace Joiner

def text : Joiner → List Char
  | .binary op => (op.text false).toList
  | .compare kind => kind.text.toList
  | .nullish => ['?', '?']

def precedence : Joiner → Nat
  | .binary op => op.precedence false
  | .compare kind => kind.precedence
  | .nullish => Precedence.nullish

/-- How tightly the left operand has to bind. -/
def left : Joiner → Nat
  | .nullish => Precedence.nullish + 1
  | o => o.precedence

/-- How tightly the right operand has to bind. -/
def right : Joiner → Nat
  | .nullish => Precedence.nullish
  | o => o.precedence + 1

def kind (l r : Expr) : Joiner → ExprKind
  | .binary op => .binary op l r
  | .compare k => .compare k l r
  | .nullish => .nullish l r

end Joiner

/-- The operators that stand between operands. -/
inductive Operator where
  | joiner (o : Joiner)
  | logic (op : Logic)
  | ternary
deriving DecidableEq

namespace Operator

def text : Operator → List Char
  | .joiner o => o.text
  | .logic op => op.text.toList
  | .ternary => ['?']

def precedence : Operator → Nat
  | .joiner o => o.precedence
  | .logic op => op.precedence
  | .ternary => Precedence.ternary

def every : List Operator :=
  ([.add, .sub, .mul, .div, .rem, .mod, .and, .or, .xor, .shl, .shr].map fun op =>
      .joiner (.binary op))
    ++ ([.less, .lessEqual, .equal, .notEqual, .greaterEqual, .greater].map fun kind =>
      .joiner (.compare kind))
    ++ [.joiner .nullish, .logic .and, .logic .or, .ternary]

theorem mem_every (o : Operator) : o ∈ every := by
  cases o with
  | joiner o =>
    cases o with
    | binary op => cases op <;> decide
    | compare kind => cases kind <;> decide
    | nullish => decide
  | logic op => cases op <;> decide
  | ternary => decide

def ofText? (word : List Char) : Option Operator := every.find? fun o => o.text == word

theorem ofText?_text (o : Operator) : ofText? o.text = some o := by
  have hall : ∀ o ∈ every, ofText? o.text = some o := by decide
  exact hall o o.mem_every

theorem not_mem_text (o : Operator) : ' ' ∉ o.text := by
  have hall : ∀ o ∈ every, ' ' ∉ o.text := by decide
  exact hall o o.mem_every

/-- The operator as it stands between its operands. -/
def between (o : Operator) : List Char := ' ' :: (o.text ++ [' '])

/-- The operator between blanks at the start of a text. -/
def next? : List Char → Option (Operator × List Char)
  | ' ' :: cs => (cutAt (· == ' ') cs).bind fun (word, rest) => (ofText? word).map (·, rest)
  | _ => none

theorem next?_between (o : Operator) (rest : List Char) :
    next? (o.between ++ rest) = some (o, rest) := by
  have hcut : cutAt (· == ' ') (o.text ++ ' ' :: rest) = some (o.text, rest) :=
    cutAt_append_cons (fun c hc => beq_false_of_ne fun h => o.not_mem_text (h ▸ hc)) rfl
  simp [between, next?, hcut, ofText?_text]

/-- How tightly the operator binds that a text starts with; zero if there is none. -/
def ceiling (cs : List Char) : Nat := ((next? cs).map fun x => x.1.precedence).getD 0

theorem ceiling_between (o : Operator) (rest : List Char) :
    ceiling (o.between ++ rest) = o.precedence := by
  rw [ceiling, next?_between]
  rfl

theorem precedence_pos (o : Operator) : 0 < o.precedence := by
  have hall : ∀ o ∈ every, 0 < o.precedence := by decide
  exact hall o o.mem_every

end Operator

open Operator (next? ceiling)

/-! ## The reader -/

def UnaryOp.sign : UnaryOp → Char
  | .negate => '-' | .not => '!' | .complement => '~'

def UnaryOp.ofSign? (c : Char) : Option UnaryOp :=
  [UnaryOp.negate, .not, .complement].find? fun op => op.sign == c

def isWordChar (c : Char) : Bool := c.isAlphanum || c == '_'

/-- Letters, digits and underscores, and no digit first. -/
def IsIdentifier (name : String) : Prop :=
  name ≠ "" ∧ (∀ c ∈ name.toList, isWordChar c = true) ∧
    ∀ c ∈ name.toList.head?, c.isDigit = false

instance (name : String) : Decidable (IsIdentifier name) :=
  decidable_of_iff (name ≠ "" ∧ name.toList.all isWordChar = true
      ∧ name.toList.head?.all (fun c => !c.isDigit) = true) (by
    rw [IsIdentifier, List.all_eq_true, Option.all_eq_true]
    simp only [Option.mem_def, Bool.not_eq_true'])

theorem IsIdentifier.ne_nil {name : String} (h : IsIdentifier name) : name.toList ≠ [] :=
  fun hnil => h.1 (String.toList_inj.mp (hnil.trans String.toList_empty.symm))

/-- An expression as the reader gives it, with nothing known of the stack. -/
abbrev Expr.unmarked (k : ExprKind) : Expr := .ofKind k .var

namespace Reader

mutual

/-- An expression of operators that bind at least so tightly. -/
def expr (fuel least : Nat) (cs : List Char) : Option (Expr × List Char) := match fuel with
  | 0 => none
  | fuel + 1 => do
    let (e, cs) ← operand fuel cs
    resume fuel least e cs
termination_by structural fuel

/-- What can stand between two operators. -/
def operand (fuel : Nat) (cs : List Char) : Option (Expr × List Char) := match fuel, cs with
  | 0, _ | _, [] => none
  | fuel + 1, c :: cs' =>
    if c = '(' then do
      let (e, cs) ← expr fuel 0 cs'
      return (e, ← after? [')'] cs)
    else match UnaryOp.ofSign? c with
      | some op => do
        let (e, cs) ← operand fuel cs'
        return (.unmarked (.unary op e), cs)
      | none => word fuel ((c :: cs').takeWhile isWordChar) ((c :: cs').dropWhile isWordChar)
termination_by structural fuel

/-- What a word with this text after it is: a number, a call or a variable. -/
def word (fuel : Nat) (w cs : List Char) : Option (Expr × List Char) := match fuel with
  | 0 => none
  | fuel + 1 =>
    if w.isEmpty then none
    else match readDigits w with
      | some n => return (.unmarked (.int16 (.ofInt n) false), cs)
      | none => match after? ['('] cs with
        | some cs => do
          let (args, cs) ← items fuel ')' cs
          return (.unmarked (.call (.ofList w) args), cs)
        | none => do
          let ((indices, legacy2d), cs) ← indices fuel cs
          return (.unmarked (.var ⟨.ofList w, .scope .own, indices, legacy2d⟩), cs)
termination_by structural fuel

/-- Expressions with commas between them up to the closing character. -/
def items (fuel : Nat) (close : Char) (cs : List Char) : Option (List Expr × List Char) :=
  match fuel with
  | 0 => none
  | fuel + 1 => match after? [close] cs with
    | some cs => some ([], cs)
    | none => someItems fuel close cs
termination_by structural fuel

def someItems (fuel : Nat) (close : Char) (cs : List Char) : Option (List Expr × List Char) :=
  match fuel with
  | 0 => none
  | fuel + 1 => do
    let (e, cs) ← expr fuel 0 cs
    match after? [',', ' '] cs with
    | some cs => do
      let (es, cs) ← someItems fuel close cs
      return (e :: es, cs)
    | none => return ([e], ← after? [close] cs)
termination_by structural fuel

/-- The indices of a variable, and whether they are in one pair of brackets. -/
def indices (fuel : Nat) (cs : List Char) : Option ((List Expr × Bool) × List Char) :=
  match fuel with
  | 0 => none
  | fuel + 1 => match after? ['['] cs with
    | none => some (([], false), cs)
    | some cs => do
      let (es, cs) ← items fuel ']' cs
      match es with
      | [e] => do
        let (more, cs) ← subscripts fuel cs
        return ((e :: more, false), cs)
      | es => return ((es, true), cs)
termination_by structural fuel

/-- Indices with brackets around each. -/
def subscripts (fuel : Nat) (cs : List Char) : Option (List Expr × List Char) := match fuel with
  | 0 => none
  | fuel + 1 => match after? ['['] cs with
    | none => some ([], cs)
    | some cs => do
      let (e, cs) ← expr fuel 0 cs
      let cs ← after? [']'] cs
      let (es, cs) ← subscripts fuel cs
      return (e :: es, cs)
termination_by structural fuel

/-- Go on after an expression for as long as operators bind tightly enough. -/
def resume (fuel least : Nat) (e : Expr) (cs : List Char) : Option (Expr × List Char) :=
  match fuel with
  | 0 => none
  | fuel + 1 => match next? cs with
    | none => some (e, cs)
    | some (o, cs') =>
      if o.precedence < least then some (e, cs)
      else match o with
        | .joiner o => do
          let (r, cs) ← expr fuel o.right cs'
          resume fuel least (.unmarked (o.kind e r)) cs
        | .logic op => do
          let (es, cs) ← conditions fuel op cs'
          resume fuel least (.unmarked (.logic op (e :: es))) cs
        | .ternary => do
          let (t, cs) ← expr fuel Precedence.ternary cs'
          let cs ← after? [' ', ':', ' '] cs
          let (f, cs) ← expr fuel Precedence.ternary cs
          resume fuel least (.unmarked (.ternary e t f)) cs
termination_by structural fuel

/-- The conditions of a chain behind its first operator. -/
def conditions (fuel : Nat) (op : Logic) (cs : List Char) : Option (List Expr × List Char) :=
  match fuel with
  | 0 => none
  | fuel + 1 => do
    let (e, cs) ← expr fuel (op.precedence + 1) cs
    match next? cs with
    | some (.logic op', cs') =>
      if op' = op then do
        let (es, cs) ← conditions fuel op cs'
        return (e :: es, cs)
      else return ([e], cs)
    | _ => return ([e], cs)
termination_by structural fuel

end

/-! ## What is read -/

section

variable {α β : Type} {x : α} {y : β}

/-- With enough fuel this is read. -/
def Gives (read : Nat → Option α) (x : α) : Prop := ∃ enough, ∀ fuel ≥ enough, read fuel = some x

theorem Gives.of_eq {read : Nat → Option α} (h : ∀ fuel, read fuel = some x) : Gives read x :=
  ⟨0, fun fuel _ => h fuel⟩

theorem Gives.of_succ {read : Nat → Option α} (h : Gives (fun fuel => read (fuel + 1)) x) :
    Gives read x := by
  obtain ⟨enough, h⟩ := h
  refine ⟨enough + 1, fun fuel hd => ?_⟩
  obtain ⟨fuel, rfl⟩ := Nat.exists_eq_succ_of_ne_zero (Nat.ne_zero_of_lt hd)
  exact h fuel (Nat.le_of_succ_le_succ hd)

theorem Gives.bind {read : Nat → Option α} {next : Nat → α → Option β} (h : Gives read x)
    (hn : Gives (fun fuel => next fuel x) y) :
    Gives (fun fuel => read fuel >>= next fuel) y := by
  obtain ⟨enough, h⟩ := h
  obtain ⟨enough', hn⟩ := hn
  refine ⟨max enough enough', fun fuel hd => ?_⟩
  have hread := h fuel (Nat.le_trans (Nat.le_max_left ..) hd)
  exact (congrArg (· >>= next fuel) hread).trans
    (hn fuel (Nat.le_trans (Nat.le_max_right ..) hd))

theorem Gives.unique {read : Nat → Option α} {x' : α} (h : Gives read x) (h' : Gives read x') :
    x = x' := by
  obtain ⟨enough, h⟩ := h
  obtain ⟨enough', h'⟩ := h'
  exact Option.some.inj ((h _ (Nat.le_max_left ..)).symm.trans (h' _ (Nat.le_max_right enough _)))

end

/-! ## Texts that are read back -/

/-- What can stand behind an expression: an operator, or the end of what is around it. -/
def Ends (rest : List Char) : Prop := ∀ c ∈ rest.head?, c ∈ [' ', ')', ']', ',']

theorem ends_nil : Ends [] := fun _ h => by cases h

theorem ends_cons {c : Char} (h : c ∈ [' ', ')', ']', ',']) (rest : List Char) : Ends (c :: rest) :=
  fun d hd => by
    cases hd
    exact h

theorem ends_between (o : Operator) (rest : List Char) : Ends (o.between ++ rest) :=
  ends_cons (by decide) _

/-- The binding of the tightest operator that may follow an expression of a precedence and leave it
alone. Chains, `??` and conditionals would draw in one of their own precedence. -/
def reach (precedence : Nat) : Nat := if precedence < 6 then precedence - 1 else precedence

/-- The text is read as the expression, whatever comes after it that does not draw it in. -/
structure Readable (text : List Char) (precedence : Nat) (e : Expr) : Prop where
  operand : Precedence.unary ≤ precedence → ∀ rest, Ends rest →
    Gives (operand · (text ++ rest)) (e, rest)
  expr : ∀ least rest, least ≤ precedence → Ends rest → ceiling rest ≤ reach precedence →
    ∀ x, Gives (resume · least e rest) x → Gives (expr · least (text ++ rest)) x

/-- Text in a place that asks for a precedence. -/
def placed (precedence least : Nat) (text : List Char) : List Char :=
  if precedence < least then '(' :: (text ++ [')']) else text

/-- Text that is an operand of its place, up to operators that bind less tightly. -/
def Fits (least : Nat) (text : List Char) (e : Expr) : Prop :=
  ∀ rest, Ends rest → (ceiling rest = 0 ∨ ceiling rest < least) →
    Gives (Reader.expr · least (text ++ rest)) (e, rest)

section

variable {text rest : List Char} {precedence least : Nat} {e : Expr}

theorem after?_cons (c : Char) (cs : List Char) : after? [c] (c :: cs) = some cs :=
  after?_append [c] cs

theorem resume_of_lt (h : ceiling rest = 0 ∨ ceiling rest < least) :
    Gives (resume · least e rest) (e, rest) := by
  refine .of_succ (.of_eq fun fuel => ?_)
  rw [resume]
  cases hn : next? rest with
  | none => rfl
  | some x =>
    have hc : ceiling rest = x.1.precedence := by rw [ceiling, hn]; rfl
    have hpos := x.1.precedence_pos
    dsimp only
    rw [if_pos (by omega)]

theorem expr_of_operand {cs : List Char} (h : Gives (Reader.operand · cs) (e, rest))
    {x : Expr × List Char} (hx : Gives (resume · least e rest) x) :
    Gives (Reader.expr · least cs) x :=
  .of_succ (h.bind hx)

theorem Readable.of_operand
    (h : ∀ rest, Ends rest → Gives (Reader.operand · (text ++ rest)) (e, rest)) :
    Readable text precedence e :=
  ⟨fun _ => h, fun _ rest _ hrest _ _ => expr_of_operand (h rest hrest)⟩

theorem operand_parentheses (h : Readable text precedence e) (rest : List Char) :
    Gives (Reader.operand · ('(' :: (text ++ ')' :: rest))) (e, rest) := by
  have hinner := h.expr 0 (')' :: rest) (Nat.zero_le _) (ends_cons (by decide) _) (Nat.zero_le _) _
    (resume_of_lt (.inl rfl))
  refine .of_succ (hinner.bind (.of_eq fun _ => ?_))
  exact congrArg (Option.map fun cs => (e, cs)) (after?_cons ')' rest)

/-- In its place an expression is read, before an operator that comes next there. -/
theorem Readable.place (h : Readable text precedence e) {q : Nat} (hleast : least ≤ q)
    (hrest : Ends rest) (hc : ceiling rest < q ∨ (6 ≤ q ∧ ceiling rest ≤ q) ∨ ceiling rest = 0)
    {x : Expr × List Char} (hx : Gives (resume · least e rest) x) :
    Gives (Reader.expr · least (placed precedence q text ++ rest)) x := by
  unfold placed
  split
  · rw [List.cons_append, List.append_assoc, List.singleton_append]
    exact expr_of_operand (operand_parentheses h rest) hx
  · refine h.expr least rest (by omega) hrest ?_ x hx
    unfold reach
    split <;> omega

theorem Readable.fits (h : Readable text precedence e) (q : Nat) :
    Fits q (placed precedence q text) e := fun _ hrest hc =>
  h.place (Nat.le_refl q) hrest (by omega) (resume_of_lt hc)

end

/-! ## Operators -/

section

variable {left right text : List Char} {p q : Nat} {l r c t f : Expr}

theorem Readable.joiner (hl : Readable left p l) (hr : Readable right q r) (o : Joiner) :
    Readable (placed p o.left left ++ ((Operator.joiner o).between ++ placed q o.right right))
      o.precedence (.unmarked (o.kind l r)) := by
  have hlevels : o.precedence < Precedence.unary ∧ o.precedence ≤ o.left ∧
      (o.precedence < o.left ∨ 6 ≤ o.left) ∧ reach o.precedence < o.right := by
    cases o with
    | binary op => cases op <;> decide
    | compare kind => cases kind <;> decide
    | nullish => decide
  obtain ⟨hunary, hle, hleft, hright⟩ := hlevels
  refine ⟨fun h => absurd h (by omega), fun least rest hleast hrest hc x hx => ?_⟩
  have hleast' : ¬ (Operator.joiner o).precedence < least := Nat.not_lt.mpr hleast
  have hceiling := Operator.ceiling_between (.joiner o) (placed q o.right right ++ rest)
  rw [Operator.precedence] at hceiling
  rw [List.append_assoc, List.append_assoc]
  refine hl.place (Nat.le_trans hleast hle) (ends_between _ _) (by omega) (.of_succ ?_)
  simp only [resume, Operator.next?_between, if_neg hleast']
  exact (hr.fits o.right rest hrest (.inr (by omega))).bind hx

theorem Readable.ternary {condition onTrue onFalse : List Char} (hc : Readable condition p c)
    (ht : Readable onTrue q t) {n : Nat} (hf : Readable onFalse n f) :
    Readable (placed p (Precedence.ternary + 1) condition ++ (Operator.ternary.between
        ++ (placed q Precedence.ternary onTrue ++ ([' ', ':', ' ']
        ++ placed n Precedence.ternary onFalse))))
      Precedence.ternary (.unmarked (.ternary c t f)) := by
  refine ⟨fun h => absurd h (by decide), fun least rest hleast hrest hceiling x hx => ?_⟩
  have hleast' : ¬ Operator.ternary.precedence < least := Nat.not_lt.mpr hleast
  have hlow : ceiling rest < Precedence.ternary := Nat.lt_succ_of_le hceiling
  have hcolon (rest : List Char) : Ends ([' ', ':', ' '] ++ rest) := ends_cons (by decide) _
  simp only [List.append_assoc]
  refine hc.place (Nat.le_succ_of_le hleast) (ends_between _ _)
    (.inl (by rw [Operator.ceiling_between]; decide)) (.of_succ ?_)
  simp only [resume, Operator.next?_between, if_neg hleast']
  refine (ht.fits _ _ (hcolon _) (.inl rfl)).bind ?_
  simp only [after?_append, Option.bind_eq_bind, Option.bind_some]
  exact (hf.fits _ rest hrest (.inr hlow)).bind hx

end

/-! ## Lists of expressions -/

section

variable {ts : List (List Char)} {es : List Expr} {rest : List Char}

/-- The conditions of a chain are read until an operator comes that binds less tightly. -/
theorem conditions_eq {op : Logic} (h : List.Forall₂ (Fits (op.precedence + 1)) ts es)
    (hne : ts ≠ []) (hrest : Ends rest) (hc : ceiling rest < op.precedence) :
    Gives (conditions · op ((Operator.logic op).between.intercalate ts ++ rest)) (es, rest) := by
  induction h with
  | nil => exact absurd rfl hne
  | @cons text e ts es hfirst hmore ih =>
    refine .of_succ ?_
    cases hmore with
    | nil =>
      rw [List.intercalate_singleton]
      refine (hfirst rest hrest (.inr (Nat.lt_succ_of_lt hc))).bind (.of_eq fun _ => ?_)
      dsimp only
      split
      · rename_i op' cs' hnext
        have hne : op' ≠ op := by
          rintro rfl
          simp [ceiling, hnext, Operator.precedence] at hc
        rw [if_neg hne]
        rfl
      · rfl
    | @cons text' e' ts es hsecond hmore =>
      have hmine : ceiling ((Operator.logic op).between ++
          ((Operator.logic op).between.intercalate (text' :: ts) ++ rest)) < op.precedence + 1 := by
        rw [Operator.ceiling_between]
        exact Nat.lt_succ_self _
      rw [List.intercalate_cons_cons, List.append_assoc, List.append_assoc]
      refine (hfirst _ (ends_between _ _) (.inr hmine)).bind ?_
      simp only [Operator.next?_between, if_pos]
      exact (ih (List.cons_ne_nil _ _)).bind (.of_eq fun _ => rfl)

theorem Readable.logic {op : Logic} {first : List Char} {p : Nat} {e : Expr}
    (hfirst : Readable first p e) (h : List.Forall₂ (Fits (op.precedence + 1)) ts es)
    (hne : ts ≠ []) :
    Readable ((Operator.logic op).between.intercalate (placed p (op.precedence + 1) first :: ts))
      op.precedence (.unmarked (.logic op (e :: es))) := by
  obtain ⟨text, ts, rfl⟩ := List.exists_cons_of_ne_nil hne
  have hlevels : op.precedence < Precedence.unary ∧ reach op.precedence < op.precedence := by
    cases op <;> decide
  refine ⟨fun h => absurd h (by omega), fun least rest hleast hrest hc x hx => ?_⟩
  have hleast' : ¬ (Operator.logic op).precedence < least := Nat.not_lt.mpr hleast
  rw [List.intercalate_cons_cons, List.append_assoc, List.append_assoc]
  refine hfirst.place (Nat.le_succ_of_le hleast) (ends_between _ _)
    (.inl (by rw [Operator.ceiling_between]; exact Nat.lt_succ_self _)) (.of_succ ?_)
  simp only [resume, Operator.next?_between, if_neg hleast']
  exact (conditions_eq h hne hrest (by omega)).bind hx

theorem operand_close {close : Char} (hclose : close = ')' ∨ close = ']') (fuel : Nat)
    (cs : List Char) : Reader.operand fuel (close :: cs) = none := by
  have hword (fuel : Nat) (cs : List Char) : word fuel [] cs = none := by cases fuel <;> rfl
  cases fuel with
  | zero => rfl
  | succ fuel => rcases hclose with rfl | rfl <;> exact hword _ _

/-- What is read does not start with what closes a list. -/
theorem Fits.after?_eq_none {close : Char} (hclose : close = ')' ∨ close = ']')
    {text : List Char} {e : Expr} (h : Fits 0 text e) (rest : List Char) :
    after? [close] (text ++ rest) = none := by
  obtain ⟨enough, hread⟩ := h [] ends_nil (.inl rfl)
  have hread : Reader.expr (enough + 1) 0 text = some (e, []) := by
    rw [← List.append_nil text]
    exact hread _ (Nat.le_succ _)
  rw [Reader.expr] at hread
  cases text with
  | nil => cases enough <;> cases hread
  | cons c text =>
    by_cases hc : c = close
    · subst hc
      rw [operand_close hclose] at hread
      cases hread
    · simp [after?, Ne.symm hc]

theorem someItems_eq {close : Char} (hclose : close = ')' ∨ close = ']')
    (h : List.Forall₂ (Fits 0) ts es) (hne : ts ≠ []) (rest : List Char) :
    Gives (someItems · close ([',', ' '].intercalate ts ++ close :: rest)) (es, rest) := by
  have hends (rest : List Char) : Ends (close :: rest) := by
    rcases hclose with rfl | rfl <;> exact ends_cons (by decide) rest
  have hceiling (rest : List Char) : ceiling (close :: rest) = 0 := by
    rcases hclose with rfl | rfl <;> rfl
  have hno (rest : List Char) : after? [',', ' '] (close :: rest) = none := by
    rcases hclose with rfl | rfl <;> rfl
  have hcomma (rest : List Char) : Ends ([',', ' '] ++ rest) := ends_cons (by decide) _
  induction h with
  | nil => exact absurd rfl hne
  | @cons text e ts es hfirst hmore ih =>
    refine .of_succ ?_
    cases hmore with
    | nil =>
      rw [List.intercalate_singleton]
      refine (hfirst _ (hends rest) (.inl (hceiling rest))).bind (.of_eq fun _ => ?_)
      dsimp only
      rw [hno]
      exact congrArg (Option.bind · fun cs => some ([e], cs)) (after?_cons close rest)
    | @cons text' e' ts es hsecond hmore =>
      rw [List.intercalate_cons_cons, List.append_assoc, List.append_assoc]
      refine (hfirst _ (hcomma _) (.inl rfl)).bind ?_
      simp only [after?_append]
      exact (ih (List.cons_ne_nil _ _)).bind (.of_eq fun _ => rfl)

theorem items_eq {close : Char} (hclose : close = ')' ∨ close = ']')
    (h : List.Forall₂ (Fits 0) ts es) (rest : List Char) :
    Gives (items · close ([',', ' '].intercalate ts ++ close :: rest)) (es, rest) := by
  have hall := someItems_eq hclose h
  refine .of_succ ?_
  cases h with
  | nil => exact .of_eq fun _ => by rw [List.intercalate_nil, List.nil_append, items, after?_cons]
  | @cons text e ts es hfirst hmore =>
    have hno : after? [close] ([',', ' '].intercalate (text :: ts) ++ close :: rest) = none := by
      cases ts with
      | nil =>
        rw [List.intercalate_singleton]
        exact hfirst.after?_eq_none hclose _
      | cons text' ts =>
        rw [List.intercalate_cons_cons, List.append_assoc, List.append_assoc]
        exact hfirst.after?_eq_none hclose _
    simp only [items, hno]
    exact hall (List.cons_ne_nil _ _) rest

/-- Indices with brackets around each. -/
def bracketed (ts : List (List Char)) : List Char := ts.flatMap fun text => '[' :: (text ++ [']'])

theorem Ends.after?_eq_none (hrest : Ends rest) {c : Char} (hc : c ∉ [' ', ')', ']', ',']) :
    after? [c] rest = none := by
  cases rest with
  | nil => rfl
  | cons d rest =>
    have hne : c ≠ d := by
      rintro rfl
      exact hc (hrest c rfl)
    simp [after?, hne]

theorem subscripts_eq (h : List.Forall₂ (Fits 0) ts es) (hrest : Ends rest) :
    Gives (subscripts · (bracketed ts ++ rest)) (es, rest) := by
  induction h with
  | nil =>
    refine .of_succ (.of_eq fun _ => ?_)
    rw [bracketed, List.flatMap_nil, List.nil_append, subscripts, hrest.after?_eq_none (by decide)]
  | @cons text e ts es hfirst hmore ih =>
    have hopen : bracketed (text :: ts) ++ rest =
        ['['] ++ (text ++ ([']'] ++ (bracketed ts ++ rest))) := by
      simp [bracketed]
    have hclose (cs : List Char) : Ends ([']'] ++ cs) := ends_cons (by decide) _
    refine .of_succ ?_
    simp only [hopen, subscripts, after?_append]
    refine (hfirst _ (hclose _) (.inl rfl)).bind ?_
    simp only [after?_append, Option.bind_eq_bind, Option.bind_some]
    exact ih.bind (.of_eq fun _ => rfl)

/-- The indices of a variable as they are written. -/
def subscripted (legacy2d : Bool) (ts : List (List Char)) : List Char :=
  if legacy2d then '[' :: ([',', ' '].intercalate ts ++ [']']) else bracketed ts

theorem subscripted_start (legacy2d : Bool) (ts : List (List Char)) (rest : List Char) :
    (∃ cs, subscripted legacy2d ts ++ rest = '[' :: cs) ∨
      subscripted legacy2d ts ++ rest = rest := by
  cases legacy2d with
  | true => exact .inl ⟨_, rfl⟩
  | false =>
    cases ts with
    | nil => exact .inr rfl
    | cons => exact .inl ⟨_, rfl⟩

/-- A single index looks the same in both forms. -/
theorem indices_eq (legacy2d : Bool) (h : List.Forall₂ (Fits 0) ts es) (hrest : Ends rest) :
    Gives (indices · (subscripted legacy2d ts ++ rest))
      ((es, legacy2d && es.length != 1), rest) := by
  refine .of_succ ?_
  cases legacy2d with
  | true =>
    have hopen : subscripted true ts ++ rest =
        ['['] ++ ([',', ' '].intercalate ts ++ ']' :: rest) := by
      simp [subscripted]
    simp only [hopen, indices, after?_append]
    refine (items_eq (.inr rfl) h rest).bind ?_
    rcases es with _ | ⟨e, _ | ⟨e', es⟩⟩
    · exact .of_eq fun _ => rfl
    · exact (subscripts_eq .nil hrest).bind (.of_eq fun _ => rfl)
    · exact .of_eq fun _ => rfl
  | false =>
    cases h with
    | nil =>
      have hno : after? ['['] rest = none := hrest.after?_eq_none (by decide)
      refine .of_eq fun _ => ?_
      rw [subscripted, bracketed, List.flatMap_nil, indices]
      simp [hno]
    | @cons text e ts es hfirst hmore =>
      have hopen : subscripted false (text :: ts) ++ rest =
          ['['] ++ ([',', ' '].intercalate [text] ++ ']' :: (bracketed ts ++ rest)) := by
        simp [subscripted, bracketed]
      simp only [hopen, indices, after?_append]
      refine (items_eq (.inr rfl) (.cons hfirst .nil) _).bind ?_
      exact (subscripts_eq hmore hrest).bind (.of_eq fun _ => rfl)

end

/-! ## Words -/

section

variable {rest : List Char}

theorem operand_word {w : List Char} (hne : w ≠ []) (hw : ∀ c ∈ w, isWordChar c = true)
    (hrest : ∀ c ∈ rest.head?, isWordChar c = false) (fuel : Nat) :
    Reader.operand (fuel + 1) (w ++ rest) = word fuel w rest := by
  obtain ⟨c, w, rfl⟩ := List.exists_cons_of_ne_nil hne
  have hc := hw c List.mem_cons_self
  have hparenthesis : c ≠ '(' := by rintro rfl; exact absurd hc (by decide)
  have hsign : UnaryOp.ofSign? c = none := by
    refine List.find?_eq_none.mpr fun op _ heq => ?_
    obtain rfl : op.sign = c := beq_iff_eq.mp heq
    cases op <;> exact absurd hc (by decide)
  have hstop : rest.takeWhile isWordChar = [] := by
    cases rest with
    | nil => rfl
    | cons d rest => rw [List.takeWhile_cons_of_neg (by simp [hrest d rfl])]
  have htake : ((c :: w) ++ rest).takeWhile isWordChar = c :: w := by
    rw [List.takeWhile_append_of_pos hw, hstop, List.append_nil]
  have hdrop : ((c :: w) ++ rest).dropWhile isWordChar = rest := by
    rw [List.dropWhile_append_of_pos hw, dropWhile_eq_self hrest]
  rw [List.cons_append, Reader.operand, if_neg hparenthesis, hsign]
  dsimp only
  rw [← List.cons_append, htake, hdrop]

theorem Ends.not_word (h : Ends rest) : ∀ c ∈ rest.head?, isWordChar c = false := by
  intro c hc
  have hmem := h c hc
  simp only [List.mem_cons, List.not_mem_nil, or_false] at hmem
  rcases hmem with rfl | rfl | rfl | rfl <;> decide

theorem isWordChar_of_isDigit {c : Char} (h : c.isDigit = true) : isWordChar c = true := by
  simp [isWordChar, Char.isAlphanum, h]

theorem readable_number (n : Nat) :
    Readable (Nat.toDigits 10 n) Precedence.primary (.unmarked (.int16 (.ofInt n) false)) := by
  refine .of_operand fun rest hrest => .of_succ (.of_succ (.of_eq fun fuel => ?_))
  rw [operand_word (toDigits_ne_nil n) (fun c hc => isWordChar_of_isDigit (isDigit_of_mem hc))
    hrest.not_word, word, readDigits_toDigits]
  simp

/-- A word that is an identifier is no number. -/
theorem word_identifier {name : String} (h : IsIdentifier name) (fuel : Nat) (cs : List Char) :
    word (fuel + 1) name.toList cs = (match after? ['('] cs with
      | some cs => do
        let (args, cs) ← items fuel ')' cs
        return (.unmarked (.call name args), cs)
      | none => do
        let ((indices, legacy2d), cs) ← indices fuel cs
        return (.unmarked (.var ⟨name, .scope .own, indices, legacy2d⟩), cs)) := by
  have hdigits : readDigits name.toList = none := by
    obtain ⟨c, w, hcw⟩ := List.exists_cons_of_ne_nil h.ne_nil
    have hc := h.2.2 c (by rw [hcw]; rfl)
    simp [readDigits, hcw, hc]
  rw [word, hdigits, String.ofList_toList]
  simp [h.ne_nil]

theorem Readable.call {name : String} (h : IsIdentifier name) {ts : List (List Char)}
    {es : List Expr} (hargs : List.Forall₂ (Fits 0) ts es) :
    Readable (name.toList ++ '(' :: ([',', ' '].intercalate ts ++ [')'])) Precedence.primary
      (.unmarked (.call name es)) := by
  have hopen (cs : List Char) : ∀ c ∈ ('(' :: cs).head?, isWordChar c = false :=
    fun c hc => by cases hc; rfl
  refine .of_operand fun rest hrest => .of_succ (.of_succ ?_)
  simp only [List.append_assoc, List.cons_append, List.nil_append,
    operand_word h.ne_nil h.2.1 (hopen _), word_identifier h, after?_cons]
  exact (items_eq (.inl rfl) hargs rest).bind (.of_eq fun _ => rfl)

theorem Readable.var {name : String} (h : IsIdentifier name) (legacy2d : Bool)
    {ts : List (List Char)} {es : List Expr} (hes : List.Forall₂ (Fits 0) ts es) :
    Readable (name.toList ++ subscripted legacy2d ts) Precedence.primary
      (.unmarked (.var ⟨name, .scope .own, es, legacy2d && es.length != 1⟩)) := by
  refine .of_operand fun rest hrest => .of_succ (.of_succ ?_)
  have hstart : (∀ c ∈ (subscripted legacy2d ts ++ rest).head?, isWordChar c = false) ∧
      after? ['('] (subscripted legacy2d ts ++ rest) = none := by
    rcases subscripted_start legacy2d ts rest with ⟨cs, hcs⟩ | hcs
    · rw [hcs]
      exact ⟨fun c hc => by cases hc; rfl, rfl⟩
    · rw [hcs]
      exact ⟨hrest.not_word, hrest.after?_eq_none (by decide)⟩
  simp only [List.append_assoc, operand_word h.ne_nil h.2.1 hstart.1, word_identifier h, hstart.2]
  exact (indices_eq legacy2d hes hrest).bind (.of_eq fun _ => rfl)

/-- A sign takes what it stands before as a whole. -/
theorem Readable.unary {text : List Char} {p : Nat} {e : Expr} (h : Readable text p e)
    (op : UnaryOp) :
    Readable (op.sign :: placed p Precedence.primary text) Precedence.unary
      (.unmarked (.unary op e)) := by
  refine .of_operand fun rest hrest => .of_succ ?_
  have hoperand :
      Gives (Reader.operand · (placed p Precedence.primary text ++ rest)) (e, rest) := by
    unfold placed
    split
    · rw [List.cons_append, List.append_assoc, List.singleton_append]
      exact operand_parentheses h rest
    · exact h.operand (by simp only [Precedence.unary, Precedence.primary] at *; omega) rest hrest
  have hsign : UnaryOp.ofSign? op.sign = some op ∧ op.sign ≠ '(' := by cases op <;> decide
  simp only [List.cons_append, Reader.operand, if_neg hsign.2, hsign.1]
  exact hoperand.bind (.of_eq fun _ => rfl)

end

end Reader

end GmlLift
