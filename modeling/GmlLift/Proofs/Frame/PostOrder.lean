import GmlLift.Instr.Text
import GmlLift.Proofs.Frame.Declaration

/-! # Code in post order

The compiler translates an expression by the code of its operands, left to right, followed by its
own instruction; the arguments of a call and the items of an array come last to first. Executing
such code puts the expression back together, on top of whatever is on the stack. -/
namespace GmlLift

/-- An instruction apart from where it stands, and from its second type where a listing shows
none: such an instruction does not use the field. -/
def Instr.unplaced (i : Instr) : Instr :=
  { i with address := 0, type2 := if showsType2 i.opcode then i.type2 else .double }

/-! ## Trees and their code -/

/-- Where a variable lives when a number says it. -/
inductive Place where
  | object (id : Int16)
  | scope (s : Scope)

namespace Place

def code : Place → Int16
  | object id => id
  | scope s => s.code

def holder : Place → Holder
  | object id => .object id none
  | scope s => .scope s

/-- An object's number is not negative. -/
def Valid : Place → Prop
  | object id => 0 ≤ id
  | scope _ => True

/-- The place of a number of sixteen bits. -/
def ofNumber? (n : Int) : Option Place :=
  if 0 ≤ n ∧ n < 0x8000 then some (object (Int16.ofInt n))
  else (Scope.every.find? fun s => s.code.toInt == n).map scope

end Place

inductive Literal where
  | int16 (v : Int16)
  | int32 (v : Int32)
  | int64 (v : Int64)
  | string (s : String)
  | bool (b : Bool)

namespace Literal

def operand : Literal → Operand
  | int16 v => .int16 v
  | int32 v => .int32 v
  | int64 v => .int64 v
  | string s => .string s
  | bool b => .bool b

def type : Literal → DataType
  | int16 _ => .int16
  | int32 _ => .int32
  | int64 _ => .int64
  | string _ => .string
  | bool _ => .bool

/-- A small number remembers which push put it on the stack. -/
def expr (pushedBy : Opcode) : Literal → Expr
  | int16 v => .ofKind (.int16 v (pushedBy == .push)) .int16
  | int32 v => .ofKind (.int32 v) .int32
  | int64 v => .ofKind (.int64 v) .int64
  | string s => .ofKind (.string s) .string
  | bool b => .ofKind (.bool b) .bool

def number? : Literal → Option Int
  | int16 v => some v.toInt
  | int32 v => some v.toInt
  | int64 v => some v.toInt
  | string _ | bool _ => none

/-- Where a variable lives whose instance is the literal: the place of its number, or what the
literal itself is. -/
def holder (pushedBy : Opcode) (l : Literal) : Holder :=
  match l.number?.bind Place.ofNumber? with
  | some p => p.holder
  | none => .expr (l.expr pushedBy)

def instr (pushedBy : Opcode) (l : Literal) : Instr :=
  ⟨0, pushedBy, none, l.type, .double, l.operand⟩

end Literal

def BinaryOp.opcode : BinaryOp → Opcode
  | add => .add | sub => .sub | mul => .mul | div => .div | rem => .rem | mod => .mod | and => .and
  | or => .or | xor => .xor | shl => .shl | shr => .shr

/-- An expression as the compiler sees it, with what its instructions carry. -/
inductive Tree where
  | literal (pushedBy : Opcode) (l : Literal)
  /-- A variable that its operand says all about. -/
  | var (pushedBy : Opcode) (name : String) (place : Place) (access : Access)
  /-- A read from an array of one dimension. -/
  | element (pushedBy : Opcode) (name : String) (id : Int16) (access : Access)
    (holderBy : Opcode) (holder : Literal) (index : Tree)
  | binary (op : BinaryOp) (type1 type2 : DataType) (left right : Tree)
  | compare (kind : Comparison) (type1 type2 : DataType) (left right : Tree)
  | negate (type : DataType) (operand : Tree)
  | not (operand : Tree)
  | complement (type : DataType) (operand : Tree)
  | array (items : List Tree)
  | call (function : String) (args : List Tree)

namespace Tree

/-- The functions whose calls stand for syntax of the language. -/
def intercepted : List String :=
  [Call.newArray, Call.newObject, Call.throwValue, Call.method, "@@This@@", "@@Other@@", "@@Global@@"]

/-- A call of a number of arguments. -/
def callInstr (function : String) (count : Nat) : Instr :=
  ⟨0, .call, none, .int32, .double, .call function (UInt16.ofNat count)⟩

mutual

def expr : Tree → Expr
  | literal pushedBy l => l.expr pushedBy
  | var _ name place _ => .ofVar ⟨name, place.holder, [], false⟩
  | element _ name _ _ holderBy holder index =>
    .ofVar ⟨name, holder.holder holderBy, [index.expr], false⟩
  | binary op type1 type2 left right =>
    .ofKind (.binary op left.expr right.expr) (type1.join type2)
  | compare kind _ _ left right => .ofKind (.compare kind left.expr right.expr) .bool
  | negate type operand => .ofKind (.unary .negate operand.expr) type
  | not operand => .ofKind (.unary .not operand.expr) .bool
  | complement type operand => .ofKind (.unary .complement operand.expr) type
  | array items => .ofKind (.array (exprs items)) .var
  | call function args => .ofKind (.call function (exprs args)) .var

def exprs : List Tree → List Expr
  | [] => []
  | t :: ts => t.expr :: exprs ts

end

mutual

/-- The code of a tree: its operands, then its own instruction. -/
def code : Tree → List Instr
  | literal pushedBy l => [l.instr pushedBy]
  | var pushedBy name place access =>
    [⟨0, pushedBy, none, .var, .double, .var ⟨name, place.code, access⟩⟩]
  | element pushedBy name id access holderBy holder index =>
    holder.instr holderBy :: index.code ++
      [⟨0, pushedBy, none, .var, .double, .var ⟨name, id, access⟩⟩]
  | binary op type1 type2 left right =>
    left.code ++ right.code ++ [⟨0, op.opcode, none, type1, type2, .none⟩]
  | compare kind type1 type2 left right =>
    left.code ++ right.code ++ [⟨0, .cmp, none, type1, type2, .comparison kind⟩]
  | negate type operand => operand.code ++ [⟨0, .neg, none, type, .double, .none⟩]
  | not operand => operand.code ++ [⟨0, .not, none, .bool, .double, .none⟩]
  | complement type operand => operand.code ++ [⟨0, .not, none, type, .double, .none⟩]
  | array items => codeLast items ++ [callInstr Call.newArray items.length]
  | call function args => codeLast args ++ [callInstr function args.length]

/-- The code of several trees, the last one first. -/
def codeLast : List Tree → List Instr
  | [] => []
  | t :: ts => codeLast ts ++ t.code

end

mutual

/-- What the compiler translates in this form: values are pushed, variables are reached as their
operands say, calls stand for themselves, and their arguments can be counted. Where a value of the
return temporary is pending, nothing reads a variable of that name. -/
def Fits (pending : Bool) : Tree → Prop
  | literal pushedBy _ => pushedBy.isPush
  | var pushedBy name place access => pushedBy.isPush ∧ place.Valid ∧
    (∀ s, place = .scope s → s ≠ .stackTop) ∧ access.isArray = false ∧ access ≠ .stackTop ∧
    (pending → name ≠ returnTemp)
  | element pushedBy name _ access holderBy _ index => pushedBy.isPush ∧ access.isArray ∧
    holderBy.isPush ∧ (pending → name ≠ returnTemp) ∧ index.Fits pending
  | binary _ _ _ left right | compare _ _ _ left right => left.Fits pending ∧ right.Fits pending
  | negate _ operand | not operand => operand.Fits pending
  | complement type operand => type ≠ .bool ∧ operand.Fits pending
  | array items => items.length < 65536 ∧ AllFit pending items
  | call function args => function ∉ intercepted ∧ args.length < 65536 ∧ AllFit pending args

def AllFit (pending : Bool) : List Tree → Prop
  | [] => True
  | t :: ts => t.Fits pending ∧ AllFit pending ts

end

theorem length_exprs (ts : List Tree) : (exprs ts).length = ts.length := by
  induction ts with
  | nil => rfl
  | cons t ts ih => simp [exprs, ih]

end Tree

/-! ## Places -/

namespace Place

theorem holder_ofCode {p : Place} (hp : p.Valid) : Holder.ofCode p.code = p.holder := by
  unfold Holder.ofCode
  cases p with
  | object id => exact if_pos hp
  | scope s => cases s <;> rfl

theorem not_isStackTop {p : Place} {name : String} {access : Access} (hp : p.Valid)
    (hs : ∀ s, p = .scope s → s ≠ .stackTop) (htop : access ≠ .stackTop) :
    VariableOperand.isStackTop ⟨name, p.code, access⟩ = false := by
  have hscope : Scope.ofCode? p.code ≠ some .stackTop := by
    cases p with
    | object id =>
      intro h
      have hcode : Scope.stackTop.code == id := (List.find?_some h :)
      obtain rfl : Scope.stackTop.code = id := eq_of_beq hcode
      have hid : (0 : Int16) ≤ -9 := hp
      exact absurd hid (by decide)
    | scope s =>
      have hs := hs s rfl
      cases s with
      | stackTop => exact absurd rfl hs
      | _ => exact nofun
  unfold VariableOperand.isStackTop VariableOperand.scope?
  rw [beq_false_of_ne htop, beq_false_of_ne hscope]
  rfl

/-- The scope of a number, searched among the numbers of sixteen bits. -/
theorem find?_code (n : Int) : (Scope.every.find? fun s => s.code.toInt == n) =
    if -0x8000 ≤ n ∧ n < 0x8000 then Scope.ofCode? (Int16.ofInt n) else none := by
  split
  · rename_i hn
    have htoInt : (Int16.ofInt n).toInt = n := Int16.toInt_ofInt_of_le hn.1 hn.2
    have hcode (s : Scope) : (s.code.toInt == n) = (s.code == Int16.ofInt n) := by
      rw [Bool.eq_iff_iff, beq_iff_eq, beq_iff_eq, ← Int16.toInt_inj, htoInt]
    simp only [hcode]
    rfl
  · rename_i hn
    refine List.find?_eq_none.mpr fun s _ hs => hn ?_
    have hs : s.code.toInt = n := by simpa using hs
    have hmin := s.code.le_toInt
    have hmax := s.code.toInt_lt
    omega

end Place

/-- The instance that a value on the stack gives: the place of its number, or the value itself. -/
theorem Holder.ofExpr_eq {e : Expr} (he : ∀ s, e.kind ≠ .scope s) :
    Holder.ofExpr e = match e.intValue?.bind Place.ofNumber? with
      | some p => p.holder
      | none => .expr e := by
  unfold Holder.ofExpr
  split
  · rename_i s hs
    exact absurd hs (he s)
  · cases e.intValue? with
    | none => rfl
    | some n =>
      simp only [Option.bind_some, Place.ofNumber?, Place.find?_code]
      split
      · rfl
      · split
        · rename_i hn
          rw [if_pos ⟨hn.1, by omega⟩]
          cases Scope.ofCode? (Int16.ofInt n) <;> rfl
        · rw [if_neg (by omega)]
          rfl

/-- Which instance a literal on the stack is. -/
theorem Literal.holder_eq (pushedBy : Opcode) (l : Literal) :
    Holder.ofExpr (l.expr pushedBy) = l.holder pushedBy := by
  rw [Holder.ofExpr_eq (by cases l <;> exact fun s h => nomatch h)]
  cases l <;> rfl

/-! ## One instruction -/

namespace Step

variable {game : Game} {i : Instr} {f : Frame} {e left right : Expr} {rest : List Expr}

theorem execute_push {f' : Frame} (ho : i.opcode.isPush) (h : pushed game i f = .ok e f') :
    execute game i f = .ok [] { f' with stack := e :: f'.stack } := by
  have hrun : execute game i = do push (← pushed game i); return [] := by
    unfold execute
    cases hi : i.opcode with
    | push | pushLoc | pushGlb | pushBltn | pushI => rfl
    | _ =>
      rw [hi] at ho
      cases ho
  rw [hrun]
  simp only [bind, EStateM.bind, h]
  rfl

theorem execute_literal {pushedBy : Opcode} {l : Literal} (hi : i.unplaced = l.instr pushedBy)
    (hpush : pushedBy.isPush) :
    execute game i f = .ok [] { f with stack := l.expr pushedBy :: f.stack } := by
  have ho : i.opcode = pushedBy := congrArg Instr.opcode hi
  have hv : i.operand = l.operand := congrArg Instr.operand hi
  have hpushed : pushed game i f = .ok (l.expr pushedBy) f := by
    unfold pushed
    rw [hv, ho]
    cases l <;> rfl
  exact execute_push (ho ▸ hpush) hpushed

/-- A push of a variable that is not the pending return value. -/
theorem execute_var {pushedBy : Opcode} {v : VariableOperand} {t : Var} {f' : Frame}
    (hi : i.unplaced = ⟨0, pushedBy, none, .var, .double, .var v⟩) (hpush : pushedBy.isPush)
    (hpending : f.returnValue.isSome → v.name ≠ returnTemp) (h : access game i v f = .ok t f') :
    execute game i f = .ok [] { f' with stack := .ofVar t :: f'.stack } := by
  have ho : i.opcode = pushedBy := congrArg Instr.opcode hi
  have hv : i.operand = .var v := congrArg Instr.operand hi
  have hnone : (if v.name = returnTemp then f.returnValue else none) = none := by
    split
    · rename_i hname
      exact Option.not_isSome_iff_eq_none.mp fun hs => hpending hs hname
    · rfl
  have hpushed : pushed game i f = .ok (.ofVar t) f' := by
    unfold pushed
    rw [hv]
    simp only [bind, EStateM.bind, get_run, hnone, h]
    rfl
  exact execute_push (ho ▸ hpush) hpushed

theorem access_place {p : Place} {name : String} {access' : Access} (hp : p.Valid)
    (hs : ∀ s, p = .scope s → s ≠ .stackTop) (harray : access'.isArray = false)
    (htop : access' ≠ .stackTop) :
    access game i ⟨name, p.code, access'⟩ f = .ok ⟨name, p.holder, [], false⟩ f := by
  unfold access
  simp only [harray, Place.not_isStackTop hp hs htop, Place.holder_ofCode hp]
  rfl

theorem access_element {name : String} {id : Int16} {access' : Access} {index : Expr}
    (hgame : game.usesGmlv2) (harray : access'.isArray) (hf : f.stack = index :: e :: rest) :
    access game i ⟨name, id, access'⟩ f =
      .ok ⟨name, .ofExpr e, [index], false⟩ { f with stack := rest } := by
  obtain ⟨entry, argumentCount, stack, functions, returnValue⟩ := f
  subst hf
  unfold access
  simp only [harray, if_true, hgame]
  rfl

theorem execute_binary {op : BinaryOp} {type1 type2 : DataType}
    (hi : i.unplaced = ⟨0, op.opcode, none, type1, type2, .none⟩)
    (hf : f.stack = right :: left :: rest) : execute game i f = .ok [] { f with
      stack := .ofKind (.binary op left right) (type1.join type2) :: rest } := by
  have ho : i.opcode = op.opcode := congrArg Instr.opcode hi
  have htype1 : i.type1 = type1 := congrArg Instr.type1 hi
  have hshown : Instr.showsType2 i.opcode := by
    rw [ho]
    cases op <;> rfl
  have htype2 : i.type2 = type2 := (if_pos hshown).symm.trans (congrArg Instr.type2 hi)
  obtain ⟨entry, argumentCount, stack, functions, returnValue⟩ := f
  subst hf
  unfold execute
  rw [ho, htype1, htype2]
  cases op <;> rfl

theorem execute_compare {kind : Comparison} {type1 type2 : DataType}
    (hi : i.unplaced = ⟨0, .cmp, none, type1, type2, .comparison kind⟩)
    (hf : f.stack = right :: left :: rest) : execute game i f =
      .ok [] { f with stack := .ofKind (.compare kind left right) .bool :: rest } := by
  have ho : i.opcode = .cmp := congrArg Instr.opcode hi
  have hv : i.operand = .comparison kind := congrArg Instr.operand hi
  have hkind : i.comparison? = some kind := by
    unfold Instr.comparison?
    rw [hv]
  obtain ⟨entry, argumentCount, stack, functions, returnValue⟩ := f
  subst hf
  unfold execute
  rw [ho, hkind]
  rfl

theorem execute_negate {type : DataType} (hi : i.unplaced = ⟨0, .neg, none, type, .double, .none⟩)
    (hf : f.stack = e :: rest) : execute game i f =
      .ok [] { f with stack := .ofKind (.unary .negate e) type :: rest } := by
  have ho : i.opcode = .neg := congrArg Instr.opcode hi
  have htype : i.type1 = type := congrArg Instr.type1 hi
  obtain ⟨entry, argumentCount, stack, functions, returnValue⟩ := f
  subst hf
  unfold execute
  rw [ho, htype]
  rfl

/-- What negates a boolean turns the bits of a number around. -/
theorem execute_not {type : DataType} (hi : i.unplaced = ⟨0, .not, none, type, .double, .none⟩)
    (hf : f.stack = e :: rest) : execute game i f = .ok [] { f with
      stack := .ofKind (.unary (if type = .bool then .not else .complement) e) type :: rest } := by
  have ho : i.opcode = .not := congrArg Instr.opcode hi
  have htype : i.type1 = type := congrArg Instr.type1 hi
  obtain ⟨entry, argumentCount, stack, functions, returnValue⟩ := f
  subst hf
  unfold execute
  rw [ho, htype]
  rfl

theorem popMany_run (i : Instr) (args : List Expr) (hf : f.stack = args ++ rest) :
    popMany i args.length f = .ok args { f with stack := rest } := by
  induction args generalizing f with
  | nil =>
    obtain ⟨entry, argumentCount, stack, functions, returnValue⟩ := f
    subst hf
    rfl
  | cons a args ih =>
    have hpop : pop i f = .ok a { f with stack := args ++ rest } := by
      rw [pop_run, hf]
      rfl
    have hrest := ih (f := { f with stack := args ++ rest }) rfl
    simp only [List.length_cons, popMany, bind, EStateM.bind, hpop, hrest]
    rfl

theorem execute_call {function : String} {args : List Expr}
    (hi : i.unplaced = Tree.callInstr function args.length) (hargs : args.length < 65536)
    (hf : f.stack = args ++ rest) :
    execute game i f = .ok [] { f with stack := Call.expr function args :: rest } := by
  have ho : i.opcode = .call := congrArg Instr.opcode hi
  have hv : i.operand = .call function (UInt16.ofNat args.length) := congrArg Instr.operand hi
  have hcount : (UInt16.ofNat args.length).toNat = args.length := UInt16.toNat_ofNat_of_lt' hargs
  unfold execute
  rw [ho, hv]
  simp only [bind, EStateM.bind, hcount, popMany_run i args hf]
  rfl

end Step

/-! ## Whole trees -/

namespace Tree

theorem callExpr_of_not_intercepted {function : String} (h : function ∉ intercepted)
    (args : List Expr) : Call.expr function args = .ofKind (.call function args) .var := by
  simp only [intercepted, List.mem_cons, List.not_mem_nil, or_false, not_or] at h
  obtain ⟨h₁, h₂, h₃, h₄, h₅, h₆, h₇⟩ := h
  unfold Call.expr
  dsimp only
  rw [if_neg h₁, if_neg h₂, if_neg h₃, if_neg h₄, if_neg h₅, if_neg h₆, if_neg h₇]

/-- Code that ends with an instruction of its own. -/
theorem exists_last {is code : List Instr} {last : Instr}
    (h : is.map Instr.unplaced = code ++ [last]) :
    ∃ is' i, is = is' ++ [i] ∧ is'.map Instr.unplaced = code ∧ i.unplaced = last := by
  obtain ⟨is', tail, rfl, hcode, htail⟩ := List.map_eq_append_iff.mp h
  obtain ⟨i, rfl, hi⟩ := List.map_eq_singleton_iff.mp htail
  exact ⟨is', i, rfl, hcode, hi⟩

open Step

theorem executeAll_last {game : Game} {is : List Instr} {i : Instr} {f f' f'' : Frame}
    (h : executeAll game is f = .ok [] f') (hi : execute game i f' = .ok [] f'') :
    executeAll game (is ++ [i]) f = .ok [] f'' :=
  executeAll_append_ok h (executeAll_cons_ok hi rfl)

mutual

/-- Executing the code of a tree puts the tree on the stack. -/
theorem executeAll_code {game : Game} (hgame : game.usesGmlv2) (t : Tree) (is : List Instr)
    (f : Frame) (h : is.map Instr.unplaced = t.code) (ht : t.Fits f.returnValue.isSome) :
    executeAll game is f = .ok [] { f with stack := t.expr :: f.stack } := by
  cases t with
  | literal pushedBy l =>
    obtain ⟨i, rfl, hi⟩ := List.map_eq_singleton_iff.mp h
    exact executeAll_cons_ok (execute_literal hi ht) rfl
  | var pushedBy name place reach =>
    obtain ⟨i, rfl, hi⟩ := List.map_eq_singleton_iff.mp h
    obtain ⟨hpush, hplace, hscope, harray, htop, hname⟩ := ht
    exact executeAll_cons_ok
      (execute_var hi hpush hname (access_place hplace hscope harray htop)) rfl
  | element pushedBy name id reach holderBy holder index =>
    obtain ⟨is', i, rfl, h, hi⟩ := exists_last h
    obtain ⟨j, is, rfl, hj, h⟩ := List.map_eq_cons_iff.mp h
    obtain ⟨hpush, harray, hholder, hname, hindex⟩ := ht
    have hoperands := executeAll_cons_ok (execute_literal hj hholder) (executeAll_code hgame index
      is { f with stack := holder.expr holderBy :: f.stack } h hindex)
    refine executeAll_last hoperands (execute_var hi hpush hname ?_)
    rw [← Literal.holder_eq]
    exact access_element hgame harray rfl
  | binary op type1 type2 left right =>
    obtain ⟨is', i, rfl, h, hi⟩ := exists_last h
    obtain ⟨ls, rs, rfl, hl, hr⟩ := List.map_eq_append_iff.mp h
    have hleft := executeAll_code hgame left ls f hl ht.1
    have hright := executeAll_code hgame right rs { f with stack := left.expr :: f.stack } hr ht.2
    exact executeAll_last (executeAll_append_ok hleft hright) (execute_binary hi rfl)
  | compare kind type1 type2 left right =>
    obtain ⟨is', i, rfl, h, hi⟩ := exists_last h
    obtain ⟨ls, rs, rfl, hl, hr⟩ := List.map_eq_append_iff.mp h
    have hleft := executeAll_code hgame left ls f hl ht.1
    have hright := executeAll_code hgame right rs { f with stack := left.expr :: f.stack } hr ht.2
    exact executeAll_last (executeAll_append_ok hleft hright) (execute_compare hi rfl)
  | negate type operand =>
    obtain ⟨is', i, rfl, h, hi⟩ := exists_last h
    exact executeAll_last (executeAll_code hgame operand is' f h ht) (execute_negate hi rfl)
  | not operand =>
    obtain ⟨is', i, rfl, h, hi⟩ := exists_last h
    exact executeAll_last (executeAll_code hgame operand is' f h ht) (execute_not hi rfl)
  | complement type operand =>
    obtain ⟨is', i, rfl, h, hi⟩ := exists_last h
    refine executeAll_last (executeAll_code hgame operand is' f h ht.2) ?_
    rw [execute_not hi rfl, if_neg ht.1, expr]
  | array items =>
    obtain ⟨is', i, rfl, h, hi⟩ := exists_last h
    have hlength := length_exprs items
    exact executeAll_last (executeAll_codeLast hgame items is' f h ht.2)
      (execute_call (hlength ▸ hi) (hlength ▸ ht.1) rfl)
  | call function args =>
    obtain ⟨is', i, rfl, h, hi⟩ := exists_last h
    obtain ⟨hfunction, hargs, hfit⟩ := ht
    have hlength := length_exprs args
    refine executeAll_last (executeAll_codeLast hgame args is' f h hfit) ?_
    rw [execute_call (hlength ▸ hi) (hlength ▸ hargs) rfl, callExpr_of_not_intercepted hfunction,
      expr]

/-- Executing the code of several trees puts the first one on top. -/
theorem executeAll_codeLast {game : Game} (hgame : game.usesGmlv2) (ts : List Tree)
    (is : List Instr) (f : Frame) (h : is.map Instr.unplaced = codeLast ts)
    (ht : AllFit f.returnValue.isSome ts) :
    executeAll game is f = .ok [] { f with stack := exprs ts ++ f.stack } := by
  cases ts with
  | nil =>
    obtain rfl := List.map_eq_nil_iff.mp h
    rfl
  | cons t ts =>
    obtain ⟨is₁, is₂, rfl, h₁, h₂⟩ := List.map_eq_append_iff.mp h
    have hlast := executeAll_codeLast hgame ts is₁ f h₁ ht.2
    have hfirst := executeAll_code hgame t is₂ { f with stack := exprs ts ++ f.stack } h₂ ht.1
    exact executeAll_append_ok hlast hfirst

end

/-- Wherever the code of a tree stands and whatever is on the stack, executing it completes no
statement and leaves the tree on top, as a value that no `dup` copied. -/
theorem executeAll_postOrder {game : Game} (hgame : game.usesGmlv2) {t : Tree} {is : List Instr}
    (h : is.map Instr.unplaced = t.code) (f : Frame) (ht : t.Fits f.returnValue.isSome) :
    executeAll game is f = .ok [] { f with stack := t.expr :: f.stack } ∧
      t.expr.duplicated = false := by
  refine ⟨executeAll_code hgame t is f h ht, ?_⟩
  cases t with
  | literal pushedBy l => cases l <;> rfl
  | _ => rfl

/-- `f([self.a, "x"], !(obj.b[-x] == 1))` with an object's number for `obj`. -/
def nestedCall : Tree :=
  .call "f" [.array [.var .push "a" (.scope .own) .normal, .literal .push (.string "x")],
    .not (.compare .equal .var .int32
      (.element .push "b" 0 .array .pushI (.int16 3) (.negate .var (.var .push "x" (.object 7) .normal)))
      (.literal .pushI (.int16 1)))]

/-- A frame with two values on the stack and a value for the return temporary. -/
def busyFrame : Frame :=
  { entry := "", stack := [.ofKind (.bool true) .bool, .ofKind (.int32 5) .int32],
    returnValue := some (.ofKind (.int32 1) .int32) }

theorem executeAll_postOrder_nestedCall :
    executeAll {} nestedCall.code busyFrame =
      .ok [] { busyFrame with stack := nestedCall.expr :: busyFrame.stack } ∧
    nestedCall.expr.duplicated = false :=
  executeAll_postOrder rfl rfl busyFrame (by
    simp [nestedCall, Fits, AllFit, Opcode.isPush, Place.Valid, Access.isArray, intercepted,
      returnTemp, Call.newArray, Call.newObject, Call.throwValue, Call.method])

end Tree

end GmlLift
