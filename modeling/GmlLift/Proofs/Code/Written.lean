import GmlLift.Instr.Text
import GmlLift.Proofs.Code.Lines
import GmlLift.Proofs.Text.Literals
import GmlLift.Proofs.Text.Numerals

/-! # Instructions are read back from their text

A line of a listing is cut into a head, with the mnemonic and the type letters, and the operand. The
text of an instruction has the same two parts. Reading it again gives the instruction back, but for
the type fields that no text shows. -/
namespace GmlLift

open Text

/-- An operand whose text is the listing's own form of it: no double, strings in visible ASCII,
line ends and tabs, a called function with a name of one word. -/
def Operand.Legible : Operand → Prop
  | .double _ => False
  | .string s => ∀ c ∈ s.toList, (' ' ≤ c ∧ c ≤ '~') ∨ c = '\n' ∨ c = '\r' ∨ c = '\t'
  | .call f _ => f ≠ "" ∧ ∀ c ∈ f.toList, isBlank c = false
  | _ => True

/-- Equal in all that a text shows. The address is not shown, nor are the types of a jump; the
second type is shown for conversions, pops, comparisons and operations on two values. -/
structure Instr.ReadsAs (i j : Instr) : Prop where
  opcode : i.opcode = j.opcode
  extended : i.extended = j.extended
  operand : i.operand = j.operand
  type1 : i.opcode.hasOffset = false → i.type1 = j.type1
  type2 : Instr.showsType2 i.opcode = true → i.type2 = j.type2

namespace Listing

/-! ## Heads -/

/-- The letters of types, each after a point. -/
def typeLetters (ts : List DataType) : List Char := ts.flatMap fun t => ['.', t.letter]

theorem letter_ne_dot (t : DataType) : t.letter ≠ '.' := by cases t <;> simp [DataType.letter]

theorem splitOn_head {m : List Char} (hm : '.' ∉ m) (ts : List DataType) :
    (m ++ typeLetters ts).splitOn '.' = m :: ts.map fun t => [t.letter] := by
  have hsolid {s : List Char} (hs : '.' ∉ s) : ∀ c ∈ s, (c == '.') = false := fun c hc => by
    simpa using fun e : c = '.' => hs (e ▸ hc)
  induction ts generalizing m with
  | nil =>
    rw [typeLetters, List.flatMap_nil, List.append_nil]
    exact List.splitOnP_eq_singleton (hsolid hm)
  | cons t ts ih =>
    have hcut := List.splitOnP_append_cons_of_forall_mem (hsolid hm) '.' (by decide)
      (t.letter :: typeLetters ts)
    rw [List.map_cons, ← ih (m := [t.letter]) (by simpa using (letter_ne_dot t).symm)]
    exact hcut

theorem dataType_letter {t : DataType} (h : t ∈ DataType.named) : dataType [t.letter] = .ok t := by
  simp only [DataType.named, List.mem_cons, List.not_mem_nil, or_false] at h
  rcases h with rfl | rfl | rfl | rfl | rfl | rfl | rfl | rfl <;> rfl

theorem mem_named_of_dataType {s : List Char} {t : DataType} (h : dataType s = .ok t) :
    t ∈ DataType.named := by
  unfold dataType orFault at h
  split at h
  · rename_i u hu
    cases h
    split at hu
    · exact List.mem_of_find?_eq_some hu
    · cases hu
  · cases h

theorem isLower_mnemonic (op : Opcode) : op.mnemonic.toList.all Char.isLower = true := by
  cases op <;> rfl

theorem isLower_extMnemonic (op : ExtOpcode) : op.mnemonic.toList.all Char.isLower = true := by
  cases op <;> rfl

theorem bounds_of_isLower {c : Char} (h : c.isLower = true) : 97 ≤ c.toNat ∧ c.toNat ≤ 122 := by
  obtain ⟨hlo, hhi⟩ := (Bool.and_eq_true_iff ..).mp h
  exact ⟨of_decide_eq_true hlo, of_decide_eq_true hhi⟩

theorem isBlank_of_isLower {c : Char} (h : c.isLower = true) : isBlank c = false := by
  obtain ⟨hlo, hhi⟩ := bounds_of_isLower h
  simp [isBlank, inRanges, blankRanges]
  omega

theorem opcode_ofMnemonic? (op : Opcode) : Opcode.ofMnemonic? op.mnemonic = some op := by
  cases op <;> rfl

theorem extOpcode_ofMnemonic? (op : ExtOpcode) : ExtOpcode.ofMnemonic? op.mnemonic = some op := by
  cases op <;> rfl

theorem not_ext_mnemonic (op : Opcode) : ExtOpcode.ofMnemonic? op.mnemonic = none := by
  cases op <;> rfl

/-! ## Operands -/

theorem signed_toString (bits : Nat) {n : Int} (hlo : -(2 : Int) ^ (bits - 1) ≤ n)
    (hhi : n < (2 : Int) ^ (bits - 1)) : signed bits (toString n).toList = .ok n := by
  rw [signed, (solid_toString_int n).tight.trim_eq, readInt_toString hlo hhi]
  rfl

theorem unsigned_toString (bits : Nat) {n : Nat} (h : n < 2 ^ bits) :
    unsigned bits (toString n).toList = .ok n := by
  rw [unsigned, (solid_toString_nat n).tight.trim_eq, readNat_toString h]
  rfl

/-- A text that stands for the operand: read without its blank, it gives the operand again. -/
structure Spelled (read : List Char → Parsed Operand) (o : Operand) (text : List Char) : Prop where
  reads : read (trim text) = .ok o
  oneLine : '\n' ∉ text

theorem not_mem_of_solid {s : List Char} (h : Solid s) : '\n' ∉ s := fun hc => by
  have := h _ hc
  revert this
  decide

theorem Spelled.of_solid {read : List Char → Parsed Operand} {o : Operand} {s : List Char}
    (hs : Solid s) (h : read s = .ok o) : Spelled read o (' ' :: s) where
  reads := by rwa [trim_cons_of_blank (by decide), hs.tight.trim_eq]
  oneLine := by simpa using not_mem_of_solid hs

theorem toList_blank_append (s : String) : (" " ++ s).toList = ' ' :: s.toList := by
  simp

theorem Spelled.signed {read : List Char → Parsed Operand} {o : Operand} (bits : Nat) {n : Int}
    (hlo : -(2 : Int) ^ (bits - 1) ≤ n) (hhi : n < (2 : Int) ^ (bits - 1))
    (h : ∀ s, Listing.signed bits s = .ok n → read s = .ok o) :
    Spelled read o (" " ++ toString n).toList := by
  rw [toList_blank_append]
  exact .of_solid (solid_toString_int n) (h _ (signed_toString bits hlo hhi))

theorem Spelled.unsigned {read : List Char → Parsed Operand} {o : Operand} (bits : Nat) {n : Nat}
    (hn : n < 2 ^ bits) (h : ∀ s, Listing.unsigned bits s = .ok n → read s = .ok o) :
    Spelled read o (" " ++ toString n).toList := by
  rw [toList_blank_append]
  exact .of_solid (solid_toString_nat n) (h _ (unsigned_toString bits hn))

/-! ### Strings -/

/-- The characters that a legible string is made of. -/
def Plain (c : Char) : Prop := (' ' ≤ c ∧ c ≤ '~') ∨ c = '\n' ∨ c = '\r' ∨ c = '\t'

theorem denotes_quotedChar {c : Char} (h : Plain c) : Denotes (quotedChar c) c := by
  unfold quotedChar
  split_ifs with hq hb hn hr ht h0 hs
  · exact .escape (by decide) hq.symm
  · exact .escape (by decide) hb.symm
  · exact .escape (by decide) hn.symm
  · exact .escape (by decide) hr.symm
  · exact .escape (by decide) ht.symm
  · rcases h with ⟨h, -⟩ | h | h | h
    · exact absurd (h0 ▸ h) (by decide)
    all_goals exact absurd (h0 ▸ h) (by decide)
  · exact .plain (by simp [hq, hb, hn, hr])
  · rcases h with ⟨hlo, hhi⟩ | h | h | h
    · have hlo' : 0x20 ≤ c.toNat := hlo
      have hhi' : c.toNat ≤ 0x7E := hhi
      exact absurd (by simp [isShown, hlo', hhi']) hs
    · exact absurd h hn
    · exact absurd h hr
    · exact absurd h ht

theorem tight_enclosed (inside : List Char) : Tight ('"' :: (inside ++ ['"'])) := by
  refine ⟨?_, ?_⟩
  · intro c hc
    cases hc
    decide
  · intro c hc
    rw [← List.cons_append, List.getLast?_concat] at hc
    cases hc
    decide

/-- A literal stands for what its inside is read as. -/
theorem Spelled.literal {inside s : List Char} (h : unescape inside = some s)
    (hi : Enclosed inside) :
    Spelled (pushOperand .string) (.string (String.ofList s)) (' ' :: '"' :: (inside ++ ['"'])) where
  reads := by
    rw [trim_cons_of_blank (by decide), (tight_enclosed inside).trim_eq]
    simp only [pushOperand, stringLiteral_enclosed, h, orFault, map_ok]
  oneLine := by simpa using hi.oneLine '\n' (by decide)

/-! ### Variables -/

/-- What holds of a variable that a listing names: it is reached in one of the ways with a word or
plainly, and it has a name that does not end in a blank. -/
structure Named (v : VariableOperand) : Prop where
  access : ∀ b, v.access ≠ .raw b
  name : v.name.toList ≠ []
  tight : ∀ c ∈ v.name.toList.getLast?, isBlank c = false
  oneLine : '\n' ∉ v.name.toList

/-- The scope's word, or the number of the object. -/
def holderText (v : VariableOperand) : List Char := match v.scope? with
  | some s => s.keyword.toList
  | none => (toString v.instanceId.toInt).toList

theorem toList_text (v : VariableOperand) :
    v.text.toList = v.access.mark.toList ++ (holderText v ++ '.' :: v.name.toList) := by
  unfold VariableOperand.text holderText
  cases v.scope? <;> simp

theorem keyword_letters (s : Scope) : s.keyword.toList.all Char.isLower = true := by
  cases s <;> rfl

theorem ofKeyword?_keyword (s : Scope) : Scope.ofKeyword? s.keyword = some s := by
  cases s <;> rfl

theorem not_keyword_of_numeral (n : Int) : Scope.ofKeyword? (toString n) = none := by
  rw [Scope.ofKeyword?, List.find?_eq_none]
  intro s _ h
  have hs : s.keyword = toString n := by simpa using h
  obtain ⟨c, t, hc⟩ := List.exists_cons_of_ne_nil (toString_int_ne_nil n)
  have hmem : c ∈ (toString n).toList := by rw [hc]; exact List.mem_cons_self
  have hlower : c.isLower = true := by
    rw [← hs] at hmem
    exact List.all_eq_true.mp (keyword_letters s) c hmem
  obtain ⟨hlo, -⟩ := bounds_of_isLower hlower
  rcases mem_toString_int hmem with rfl | hd
  · exact absurd hlo (by decide)
  · simp only [Char.isDigit, Bool.and_eq_true, decide_eq_true_eq] at hd
    have hhi : c.toNat ≤ 57 := hd.2
    omega

/-- What stands before the point of a variable is a word of small letters or a numeral. -/
theorem mem_holderText {v : VariableOperand} {c : Char} (h : c ∈ holderText v) :
    c.isLower = true ∨ c = '-' ∨ c.isDigit = true := by
  unfold holderText at h
  split at h
  · exact .inl (List.all_eq_true.mp (keyword_letters _) c h)
  · exact .inr (mem_toString_int h)

theorem holderText_ne_nil (v : VariableOperand) : holderText v ≠ [] := by
  unfold holderText
  split
  · rename_i s _
    cases s <;> exact List.cons_ne_nil _ _
  · exact toString_int_ne_nil _

theorem solid_holderText (v : VariableOperand) : Solid (holderText v) := by
  intro c hc
  rcases mem_holderText hc with h | rfl | h
  · exact isBlank_of_isLower h
  · decide
  · exact isBlank_of_isDigit h

/-- The rest of a variable, once it is known how the variable is reached. -/
def placed (text : List Char) (access : Access) (rest : List Char) : Parsed VariableOperand := do
  let (holder, name) ← orFault .missingScope text (cutAt (· == '.') rest)
  let id ← match Scope.ofKeyword? (String.ofList holder) with
    | some s => pure s.code
    | none => Int16.ofInt <$> orFault .unknownScope holder (readInt 16 holder)
  if name.isEmpty then throw (.unnamedVariable (String.ofList text))
  return ⟨String.ofList name, id, access⟩

theorem varOperand_marked {text inner : List Char} (h : trim text = '[' :: inner) :
    varOperand text = (do
      let (word, tail) ← orFault .malformedVariable text (cutAt (· == ']') inner)
      let access ← orFault .unknownAccess word (Access.ofWord? (String.ofList word))
      placed text access tail) := by
  unfold varOperand
  rw [h]
  rfl

theorem varOperand_plain {text : List Char} (h : ∀ inner, trim text ≠ '[' :: inner) :
    varOperand text = placed text .normal (trim text) := by
  unfold varOperand
  split
  · rename_i inner hi
    exact absurd hi (h inner)
  · rfl

theorem eq_of_placed {text rest : List Char} {access : Access} {v : VariableOperand}
    (h : placed text access rest = .ok v) :
    v.access = access ∧ v.name.toList ≠ [] ∧ ∃ holder, rest = holder ++ '.' :: v.name.toList := by
  unfold placed at h
  obtain ⟨⟨holder, name⟩, hcut, h⟩ := ok_of_bind h
  obtain ⟨id, hv, hne⟩ : ∃ id, (⟨String.ofList name, id, access⟩ : VariableOperand) = v ∧
      name ≠ [] := by
    dsimp only at h
    split at h
    all_goals
      obtain ⟨id, -, h⟩ := ok_of_bind h
      split at h
      · cases h
      · rename_i hname
        exact ⟨id, Except.ok.inj h, by simpa using hname⟩
  obtain ⟨c, rfl, hc, -⟩ : ∃ c, rest = holder ++ c :: name ∧ (c == '.') = true ∧ _ := by
    unfold orFault at hcut
    split at hcut
    · cases hcut
      exact eq_of_cutAt ‹_›
    · cases hcut
  subst hv
  obtain rfl : c = '.' := by simpa using hc
  exact ⟨rfl, by simpa using hne, holder, by simp⟩

theorem placed_text {v : VariableOperand} (h : v.name.toList ≠ []) (text : List Char) :
    placed text v.access (holderText v ++ '.' :: v.name.toList) = .ok v := by
  have hcut : cutAt (· == '.') (holderText v ++ '.' :: v.name.toList) =
      some (holderText v, v.name.toList) := by
    refine cutAt_append_cons (fun c hc => ?_) (by decide)
    rcases mem_holderText hc with h | rfl | h
    · simpa using fun e : c = '.' => absurd (e ▸ h) (by decide)
    · decide
    · simpa using fun e : c = '.' => absurd (e ▸ h) (by decide)
  have hne : ¬ v.name.toList.isEmpty = true := by simpa using h
  unfold placed
  cases hs : v.scope? with
  | some s =>
    have hk : Scope.ofKeyword? (String.ofList (holderText v)) = some s := by
      simp [holderText, hs, ofKeyword?_keyword]
    have hcode : s.code = v.instanceId := by simpa using List.find?_some hs
    simp only [hcut, orFault, ok_bind, hk, pure_eq_ok, if_neg hne, hcode, String.ofList_toList]
  | none =>
    have hk : Scope.ofKeyword? (String.ofList (holderText v)) = none := by
      simpa [holderText, hs] using not_keyword_of_numeral v.instanceId.toInt
    have hread : readInt 16 (holderText v) = some v.instanceId.toInt := by
      simpa [holderText, hs] using
        readInt_toString v.instanceId.le_toInt v.instanceId.toInt_lt
    simp only [hcut, orFault, ok_bind, hk, hread, map_ok, Int16.ofInt_toInt, pure_eq_ok,
      if_neg hne, String.ofList_toList]

theorem ok_of_orFault {α : Type} {fault : String → ListingFault} {shown : List Char}
    {x : Option α} {a : α} (h : orFault fault shown x = .ok a) : x = some a := by
  cases x with
  | none => cases h
  | some b => cases h; rfl

theorem named_of_varOperand {text : List Char} {v : VariableOperand}
    (h : varOperand text = .ok v) (hn : '\n' ∉ text) : Named v := by
  have of_placed {access : Access} {rest : List Char} (hp : placed text access rest = .ok v)
      (ha : ∀ b, access ≠ .raw b) (hsuf : rest <:+ trim text) : Named v := by
    obtain ⟨rfl, hne, holder, rfl⟩ := eq_of_placed hp
    have hname : v.name.toList <:+ trim text :=
      ((List.suffix_cons _ _).trans (List.suffix_append _ _)).trans hsuf
    refine ⟨ha, hne, fun c hc => ?_, fun hc => hn (mem_of_mem_trim (hname.subset hc))⟩
    obtain ⟨front, hfront⟩ := hname
    refine (tight_trim text).2 c ?_
    rw [← hfront, List.getLast?_append, hc]
    rfl
  by_cases hm : ∃ inner, trim text = '[' :: inner
  · obtain ⟨inner, hi⟩ := hm
    rw [varOperand_marked hi] at h
    obtain ⟨⟨word, tail⟩, hcut, h⟩ := ok_of_bind h
    obtain ⟨access, ha, h⟩ := ok_of_bind h
    obtain ⟨c, hcons, -, -⟩ := eq_of_cutAt (ok_of_orFault hcut)
    refine of_placed h (fun b hb => ?_) ?_
    · subst hb
      have := List.find?_some (ok_of_orFault ha)
      cases this
    · rw [hi, hcons]
      exact ((List.suffix_cons _ _).trans (List.suffix_append _ _)).trans (List.suffix_cons _ _)
  · push Not at hm
    rw [varOperand_plain hm] at h
    exact of_placed h (fun b hb => nomatch hb) (List.suffix_refl _)

theorem mark_of_word {a : Access} {w : String} (h : a.word? = some w) :
    a.mark.toList = '[' :: (w.toList ++ [']']) := by
  simp [Access.mark, h]

theorem ofWord?_word {a : Access} {w : String} (h : a.word? = some w) :
    Access.ofWord? w = some a ∧ ']' ∉ w.toList := by
  cases a <;> cases h <;> exact ⟨rfl, by decide⟩

theorem mark_of_no_word {a : Access} (h : a.word? = none) : a.mark.toList = [] := by
  simp [Access.mark, h]

theorem tight_text {v : VariableOperand} (h : Named v) : Tight v.text.toList := by
  rw [toList_text]
  refine ⟨fun c hc => ?_, fun c hc => ?_⟩
  · cases hw : v.access.word? with
    | some w =>
      rw [mark_of_word hw] at hc
      cases hc
      decide
    | none =>
      rw [mark_of_no_word hw, List.nil_append,
        List.head?_append_of_ne_nil _ (holderText_ne_nil v)] at hc
      exact solid_holderText v c (List.mem_of_mem_head? hc)
  · have hlast : ('.' :: v.name.toList).getLast? = v.name.toList.getLast? := by
      rw [List.getLast?_cons, List.getLast?_eq_some_getLast h.name]
      rfl
    rw [List.getLast?_append, List.getLast?_append, hlast,
      List.getLast?_eq_some_getLast h.name] at hc
    exact h.tight c (by rw [List.getLast?_eq_some_getLast h.name]; exact hc)

theorem varOperand_text {v : VariableOperand} (h : Named v) :
    varOperand v.text.toList = .ok v := by
  have htrim := (tight_text h).trim_eq
  cases hw : v.access.word? with
  | some w =>
    obtain ⟨hof, hfree⟩ := ofWord?_word hw
    have hcons : trim v.text.toList =
        '[' :: (w.toList ++ ']' :: (holderText v ++ '.' :: v.name.toList)) := by
      rw [htrim, toList_text, mark_of_word hw]
      simp
    have hcut := cutAt_append_cons (p := (· == ']')) (b := holderText v ++ '.' :: v.name.toList)
      (fun c hc => by simpa using fun e : c = ']' => hfree (e ▸ hc)) (by decide : (']' == ']') = true)
    rw [varOperand_marked hcons]
    simp only [hcut, orFault, ok_bind, String.ofList_toList, hof]
    exact placed_text h.name _
  | none =>
    have hnormal : v.access = .normal := by
      cases ha : v.access with
      | normal => rfl
      | raw b => exact absurd ha (h.access b)
      | _ => rw [ha] at hw; cases hw
    have hplain : v.text.toList = holderText v ++ '.' :: v.name.toList := by
      rw [toList_text, mark_of_no_word hw, List.nil_append]
    rw [varOperand_plain, htrim, hplain, ← hnormal]
    · exact placed_text h.name _
    · intro inner hi
      rw [htrim, hplain] at hi
      obtain ⟨c, t, hc⟩ := List.exists_cons_of_ne_nil (holderText_ne_nil v)
      rw [hc] at hi
      obtain rfl : c = '[' := (List.cons.inj hi).1
      rcases mem_holderText (hc ▸ List.mem_cons_self) with h | h | h
      · exact absurd h (by decide)
      · exact absurd h (by decide)
      · exact absurd h (by decide)

theorem not_mem_text {v : VariableOperand} (h : Named v) : '\n' ∉ v.text.toList := by
  have hmark : '\n' ∉ v.access.mark.toList := by
    cases ha : v.access with
    | raw b => exact absurd ha (h.access b)
    | _ => decide
  have hholder := not_mem_of_solid (solid_holderText v)
  rw [toList_text]
  simp [hmark, hholder, h.oneLine]

theorem Spelled.var {v : VariableOperand} (h : Named v) {read : List Char → Parsed Operand}
    (hread : ∀ s, varOperand s = .ok v → read s = .ok (.var v)) :
    Spelled read (.var v) (" " ++ v.text).toList := by
  rw [toList_blank_append]
  refine ⟨?_, by simpa using not_mem_text h⟩
  rw [trim_cons_of_blank (by decide), (tight_text h).trim_eq]
  exact hread _ (varOperand_text h)

/-! ### Pushes -/

theorem after?_function_of_numeral (n : Int) :
    after? "[function]".toList (toString n).toList = none := by
  cases h : after? "[function]".toList (toString n).toList with
  | none => rfl
  | some rest =>
    have hmem : '[' ∈ (toString n).toList := by rw [eq_of_after? h]; simp
    rcases mem_toString_int hmem with h | h <;> exact absurd h (by decide)

/-- A function's name starts right after the mark, and the blanks around it are dropped. -/
theorem Spelled.function {name : List Char} (hn : '\n' ∉ name) :
    Spelled (pushOperand .int32) (.function (String.ofList (trim name)))
      (" [function]" ++ String.ofList (trim name)).toList := by
  have hmark : (" [function]" ++ String.ofList (trim name)).toList =
      ' ' :: ("[function]".toList ++ trim name) := by simp
  have hlast : ∀ c ∈ "[function]".toList.getLast?, isBlank c = false := by
    intro c hc
    obtain rfl : ']' = c := by simpa using hc
    decide
  have htrim : trim ("[function]".toList ++ trim name) = "[function]".toList ++ trim name := by
    have hhead : ∀ c ∈ ("[function]".toList ++ trim name).head?, isBlank c = false := by
      intro c hc
      cases hc
      decide
    rw [trim, dropWhile_eq_self hhead, dropEndWhile_append _ hlast,
      dropEndWhile_eq_self (tight_trim name).2]
  rw [hmark]
  refine ⟨?_, by simpa using fun h => hn (mem_of_mem_trim h)⟩
  rw [trim_cons_of_blank (by decide), htrim, pushOperand]
  simp only [after?_append, (tight_trim name).trim_eq]
  rfl

theorem pushInt32_spelled {text : List Char} {o : Operand} (h : pushOperand .int32 text = .ok o)
    (hn : '\n' ∉ text) (address : Nat) :
    Spelled (pushOperand .int32) o (o.text address).toList := by
  unfold pushOperand at h
  dsimp only at h
  split at h
  · rename_i name hname
    cases h
    exact .function fun hc => hn (by rw [eq_of_after? hname]; exact List.mem_append_right _ hc)
  · obtain ⟨n, -, rfl⟩ := ok_of_map h
    change Spelled _ _ (" " ++ toString (Int32.ofInt n).toInt).toList
    rw [toList_blank_append]
    refine .of_solid (solid_toString_int _) ?_
    simp only [pushOperand, after?_function_of_numeral,
      signed_toString 32 (Int32.le_toInt _) (Int32.toInt_lt _), map_ok, Int32.ofInt_toInt]

theorem pushBool_spelled {text : List Char} {o : Operand} (h : pushOperand .bool text = .ok o)
    (address : Nat) : Spelled (pushOperand .bool) o (o.text address).toList := by
  unfold pushOperand at h
  dsimp only at h
  split at h
  · cases h
    have hread : pushOperand .bool "true".toList = .ok (.bool true) := rfl
    exact toList_blank_append "true" ▸ .of_solid (by decide) hread
  · split at h
    · cases h
      have hread : pushOperand .bool "false".toList = .ok (.bool false) := rfl
      exact toList_blank_append "false" ▸ .of_solid (by decide) hread
    · cases h

theorem pushString_spelled {s : List Char} (hs : ∀ c ∈ s, Plain c) (address : Nat) :
    Spelled (pushOperand .string) (.string (String.ofList s))
      ((Operand.string (String.ofList s)).text address).toList := by
  change Spelled _ _ (" " ++ quoted (String.ofList s)).toList
  have htext : (quoted (String.ofList s)).toList = quotedChars s := by simp [quoted]
  rw [toList_blank_append, htext]
  have hdenotes : ∀ c ∈ s, Denotes (quotedChar c) c := fun c hc => denotes_quotedChar (hs c hc)
  exact .literal (unescape_flatMap hdenotes) (enclosed_flatMap hdenotes)

theorem pushOperand_spelled {type : DataType} {text : List Char} {o : Operand}
    (h : pushOperand type text = .ok o) (hl : o.Legible) (hn : '\n' ∉ text) (address : Nat) :
    Spelled (pushOperand type) o (o.text address).toList := by
  cases type with
  | int16 =>
    obtain ⟨n, -, rfl⟩ := ok_of_map h
    refine .signed 16 (Int16.le_toInt _) (Int16.toInt_lt _) fun s hs => ?_
    simp only [pushOperand, hs, map_ok, Int16.ofInt_toInt]
  | int32 => exact pushInt32_spelled h hn address
  | int64 =>
    obtain ⟨n, -, rfl⟩ := ok_of_map h
    refine .signed 64 (Int64.le_toInt _) (Int64.toInt_lt _) fun s hs => ?_
    simp only [pushOperand, hs, map_ok, Int64.ofInt_toInt]
  | double =>
    obtain ⟨v, -, rfl⟩ := ok_of_map h
    exact hl.elim
  | float =>
    obtain ⟨v, -, rfl⟩ := ok_of_map h
    exact hl.elim
  | bool => exact pushBool_spelled h address
  | string =>
    obtain ⟨s, -, rfl⟩ := ok_of_map h
    exact pushString_spelled (by simpa [Operand.Legible, Plain] using hl) address
  | var =>
    obtain ⟨v, hv, rfl⟩ := ok_of_map h
    refine .var (named_of_varOperand hv hn) fun s hs => ?_
    simp only [pushOperand, hs, map_ok]
  | raw b => cases h

theorem Spelled.pair {read : List Char → Parsed Operand} {o : Operand} {a b : List Char}
    (ha : Solid a) (hane : a ≠ []) (hb : Solid b) (hbne : b ≠ [])
    (h : ∀ s, s = a ++ ' ' :: b → words s = [a, b] → read s = .ok o) :
    Spelled read o (' ' :: (a ++ ' ' :: b)) := by
  refine ⟨?_, ?_⟩
  · rw [trim_cons_of_blank (by decide), (tight_pair ha hane hb hbne).trim_eq]
    exact h _ rfl (words_pair ha hane hb hbne)
  · simpa using ⟨not_mem_of_solid ha, not_mem_of_solid hb⟩

/-! ### Calls -/

theorem exists_of_call {text : List Char} {o : Operand} (h : call text = .ok o) :
    ∃ f n, o = .call f n ∧ '(' ∉ f.toList := by
  unfold call at h
  split at h
  · rename_i name rest hcut
    obtain ⟨n, -, h⟩ := ok_of_bind h
    cases h
    refine ⟨_, _, rfl, fun hmem => ?_⟩
    obtain ⟨c, -, -, hfree⟩ := eq_of_cutAt hcut
    have := hfree '(' (mem_of_mem_trim (by simpa using hmem))
    cases this
  · rename_i hcut
    split at h
    · cases h
    · rename_i name rest hwords
      obtain ⟨n, -, h⟩ := ok_of_bind h
      cases h
      refine ⟨_, _, rfl, fun hmem => ?_⟩
      have hin : name ∈ words text := by rw [hwords]; exact List.mem_cons_self
      have := forall_of_cutAt hcut '(' (mem_of_mem_words hin (by simpa using hmem))
      cases this

theorem call_spelled {text : List Char} {o : Operand} (h : call text = .ok o) (hl : o.Legible)
    (address : Nat) : Spelled call o (o.text address).toList := by
  obtain ⟨f, n, rfl, hfree⟩ := exists_of_call h
  obtain ⟨hne, hsolid⟩ := hl
  have hne : f.toList ≠ [] := by simpa using hne
  have hdigits := solid_toString_nat n.toNat
  have htext : (Operand.text address (.call f n)).toList =
      ' ' :: (f.toList ++ ' ' :: (toString n.toNat).toList) := by simp [Operand.text]
  have hcut : cutAt (· == '(') (f.toList ++ ' ' :: (toString n.toNat).toList) = none := by
    refine cutAt_of_forall fun c hc => ?_
    simp only [List.mem_append, List.mem_cons] at hc
    rcases hc with hc | rfl | hc
    · simpa using fun e : c = '(' => hfree (e ▸ hc)
    · decide
    · rw [toList_toString_nat] at hc
      simpa using fun e : c = '(' => absurd (e ▸ isDigit_of_mem hc) (by decide)
  have hdne := toString_nat_ne_nil n.toNat
  rw [htext]
  refine .pair hsolid hne hdigits hdne fun s hs hwords => ?_
  subst hs
  rw [call, hcut]
  simp only [hwords, List.headD_cons, unsigned_toString 16 n.toNat_lt, ok_bind, pure_eq_ok,
    String.ofList_toList, UInt16.ofNat_toNat]

/-! ### Any operation -/

section

variable {op : Opcode} {type : DataType} {text : List Char} {o : Operand}
  {read : List Char → Parsed Operand}

/-- An operation whose operands one reader reads. -/
theorem Spelled.operand (h : Spelled read o text)
    (hop : ∀ s, operand op type s = (·, none) <$> read s) :
    operand op type (trim text) = .ok (o, none) ∧ '\n' ∉ text := by
  refine ⟨?_, h.oneLine⟩
  rw [hop, h.reads]
  rfl

theorem ok_of_operand {parsed : Parsed Operand} (hop : operand op type text = (·, none) <$> parsed)
    (h : operand op type text = .ok (o, none)) : parsed = .ok o := by
  obtain ⟨o', ho, he⟩ := ok_of_map (hop ▸ h)
  cases he
  exact ho

/-- A pop of two bytes shifts the stack, and any other stores a variable. -/
theorem pop_spelled (h : operand .pop type text = .ok (o, none)) (hn : '\n' ∉ text)
    (address : Nat) : operand .pop type (trim (o.text address).toList) = .ok (o, none) ∧
      '\n' ∉ (o.text address).toList := by
  by_cases htype : type = .int16
  · have hop : ∀ s, operand .pop type s =
        (·, none) <$> ((fun n => .popSwap (.ofNat n)) <$> unsigned 8 s) := fun _ => if_pos htype
    obtain ⟨n, -, rfl⟩ := ok_of_map (ok_of_operand (hop text) h)
    refine Spelled.operand (.unsigned 8 (UInt8.toNat_lt _) fun s hs => ?_) hop
    rw [hs, map_ok, UInt8.ofNat_toNat]
  · have hop : ∀ s, operand .pop type s = (·, none) <$> (.var <$> varOperand s) :=
      fun _ => if_neg htype
    obtain ⟨v, hv, rfl⟩ := ok_of_map (ok_of_operand (hop text) h)
    refine Spelled.operand (.var (named_of_varOperand hv hn) fun s hs => ?_) hop
    rw [hs, map_ok]

theorem exists_of_dup (h : operand .dup type text = .ok (o, none)) :
    ∃ size swap, o = .dup size swap := by
  obtain ⟨o', ho, he⟩ := ok_of_map h
  cases he
  obtain ⟨size, -, ho⟩ := ok_of_bind ho
  dsimp only at ho
  split at ho
  all_goals
    obtain ⟨swap, -, ho⟩ := ok_of_bind ho
    exact ⟨_, _, (Except.ok.inj ho).symm⟩

end

theorem dup_spelled (size swap : UInt8) (address : Nat) :
    Spelled (fun text => do
      let fields := words text
      let size ← Listing.unsigned 8 (fields.headD [])
      let swap ← match fields[1]? with
        | some s => Listing.unsigned 8 s
        | none => pure 0
      return .dup (.ofNat size) (.ofNat swap))
      (.dup size swap) ((Operand.dup size swap).text address).toList := by
  have hsize := solid_toString_nat size.toNat
  have hsizene := toString_nat_ne_nil size.toNat
  by_cases h0 : swap = 0
  · have htext : ((Operand.dup size swap).text address).toList =
        ' ' :: (toString size.toNat).toList := by simp [Operand.text, h0]
    rw [htext]
    refine .of_solid hsize ?_
    simp only [words_of_solid hsize hsizene, List.headD_cons, List.getElem?_cons_succ,
      List.getElem?_nil, unsigned_toString 8 size.toNat_lt, ok_bind, pure_eq_ok,
      UInt8.ofNat_toNat, h0]
    rfl
  · have htext : ((Operand.dup size swap).text address).toList =
        ' ' :: ((toString size.toNat).toList ++ ' ' :: (toString swap.toNat).toList) := by
      simp [Operand.text, h0]
    rw [htext]
    refine .pair hsize hsizene (solid_toString_nat _) (toString_nat_ne_nil _) fun s _ hs => ?_
    simp only [hs, List.headD_cons, List.getElem?_cons_succ, List.getElem?_cons_zero,
      unsigned_toString 8 size.toNat_lt, unsigned_toString 8 swap.toNat_lt, ok_bind, pure_eq_ok,
      UInt8.ofNat_toNat]

theorem comparison_spelled (k : Comparison) (address : Nat) :
    Spelled (fun text => .comparison <$> orFault .unknownComparison text
      (Comparison.ofMnemonic? (String.ofList text)))
      (.comparison k) ((Operand.comparison k).text address).toList := by
  change Spelled _ _ (" " ++ k.mnemonic).toList
  rw [toList_blank_append]
  refine .of_solid (by cases k <;> decide) ?_
  have hk : Comparison.ofMnemonic? k.mnemonic = some k := by cases k <;> rfl
  simp only [String.ofList_toList, hk, orFault, map_ok]

/-- The operand of a plain operation is read back. The type of a jump does not matter. -/
theorem operand_spelled {op : Opcode} {type type' : DataType} {text : List Char} {o : Operand}
    (h : operand op type text = .ok (o, none)) (hl : o.Legible) (hn : '\n' ∉ text)
    (ht : op.hasOffset = false → type' = type) (address : Nat) :
    operand op type' (trim (o.text address).toList) = .ok (o, none) ∧
      '\n' ∉ (o.text address).toList := by
  cases op with
  | push | pushLoc | pushGlb | pushBltn | pushI =>
    obtain rfl := ht rfl
    exact (pushOperand_spelled (ok_of_operand rfl h) hl hn address).operand fun _ => rfl
  | pop =>
    obtain rfl := ht rfl
    exact pop_spelled h hn address
  | b | bt | bf | pushEnv =>
    obtain ⟨label, -, he⟩ := ok_of_bind h
    cases he
  | popEnv =>
    obtain rfl := operand_eq_envExit rfl h
    have htext : (Operand.envExit.text address).toList = " <drop>".toList := rfl
    have htrim : trim " <drop>".toList = "<drop>".toList := rfl
    rw [htext, htrim, operand, if_pos ⟨rfl, rfl⟩]
    exact ⟨rfl, by decide⟩
  | cmp =>
    obtain ⟨k, -, rfl⟩ := ok_of_map (ok_of_operand rfl h)
    exact (comparison_spelled k address).operand fun _ => rfl
  | call => exact (call_spelled (ok_of_operand rfl h) hl address).operand fun _ => rfl
  | callV =>
    obtain ⟨n, -, rfl⟩ := ok_of_map (ok_of_operand rfl h)
    have hspelled : Spelled (fun s => (fun n => .callVariable (.ofNat n)) <$> unsigned 16 s)
        (.callVariable (.ofNat n)) (" " ++ toString (UInt16.ofNat n).toNat).toList := by
      refine .unsigned 16 (UInt16.toNat_lt _) fun s hs => ?_
      rw [hs, map_ok, UInt16.ofNat_toNat]
    exact hspelled.operand fun _ => rfl
  | dup =>
    obtain ⟨size, swap, rfl⟩ := exists_of_dup h
    exact (dup_spelled size swap address).operand fun _ => rfl
  | _ =>
    obtain rfl : o = .none := by
      unfold operand at h
      dsimp only at h
      split at h
      · cases h
        rfl
      · cases h
    exact ⟨rfl, by simp [Operand.text]⟩

/-- The operand of an extended operation is read back. -/
theorem extendedOperand_spelled {op : ExtOpcode} {type : DataType} {text : List Char} {o : Operand}
    (h : extendedOperand op type text = .ok o) (address : Nat) :
    Spelled (extendedOperand op type) o (o.text address).toList := by
  unfold extendedOperand at h
  split at h
  · rename_i hop
    subst hop
    obtain ⟨id, -, h⟩ := ok_of_bind h
    obtain ⟨kind, -, h⟩ := ok_of_bind h
    cases h
    have htext (i : Int32) (k : UInt8) : ((Operand.reference i k).text address).toList =
        ' ' :: ((toString i.toInt).toList ++ ' ' :: (toString k.toNat).toList) := by
      simp [Operand.text]
    rw [htext]
    refine .pair (solid_toString_int _) (toString_int_ne_nil _) (solid_toString_nat _)
      (toString_nat_ne_nil _) fun s _ hs => ?_
    rw [extendedOperand, if_pos rfl]
    simp only [hs, List.headD_cons, List.getD_cons_succ, List.getD_cons_zero,
      signed_toString 32 (Int32.le_toInt _) (Int32.toInt_lt _),
      unsigned_toString 8 (UInt8.toNat_lt _), ok_bind, pure_eq_ok, Int32.ofInt_toInt,
      UInt8.ofNat_toNat]
  · rename_i hop
    split at h
    · rename_i htype
      obtain ⟨n, -, rfl⟩ := ok_of_map h
      refine .signed 32 (Int32.le_toInt _) (Int32.toInt_lt _) fun s hs => ?_
      rw [extendedOperand, if_neg hop, if_pos htype, hs, map_ok, Int32.ofInt_toInt]
    · rename_i htype
      cases h
      exact ⟨by rw [extendedOperand, if_neg hop, if_neg htype]; rfl, by simp [Operand.text]⟩

/-! ## Lines -/

/-- Read an instruction from its mnemonic, its types and its operand. -/
def typed (mnemonic : String) (type1 type2 : Option DataType) (text : List Char) (address : Nat) :
    Parsed (Instr × Option String) :=
  match ExtOpcode.ofMnemonic? mnemonic with
  | some ext => do
    let t1 := type1.getD .int16
    let operand ← extendedOperand ext t1 text
    return (⟨address, .extended, some ext, t1, type2.getD .int16, operand⟩, none)
  | none => match Opcode.ofMnemonic? mnemonic with
    | none => throw (.unknownMnemonic mnemonic)
    | some op => do
      let t1 := type1.getD .int32
      let (operand, label) ← operand op t1 text
      return (⟨address, op, none, t1, type2.getD t1, operand⟩, label)

theorem instr_eq (line : List Char) (address : Nat) : instr line address = (do
    let (head, rest) := (cutAt isBlank line).getD (line, [])
    let parts := head.splitOn '.'
    let type1 ← parts[1]?.mapM dataType
    let type2 ← parts[2]?.mapM dataType
    typed (String.ofList (parts.headD [])) type1 type2 (trim rest) address) := rfl

theorem mapM_letters {ts : List DataType} (h : ∀ t ∈ ts, t ∈ DataType.named) (n : Nat) :
    ((ts.map fun t => [t.letter])[n]?).mapM dataType = .ok ts[n]? := by
  rw [List.getElem?_map]
  cases ht : ts[n]? with
  | none => rfl
  | some t =>
    rw [Option.map_some, Option.mapM_some, dataType_letter (h t (List.mem_of_getElem? ht))]
    rfl

theorem solid_head {m : List Char} (hm : m.all Char.isLower = true) (ts : List DataType) :
    Solid (m ++ typeLetters ts) := by
  intro c hc
  rcases List.mem_append.mp hc with hc | hc
  · exact isBlank_of_isLower (List.all_eq_true.mp hm c hc)
  · obtain ⟨t, -, hc⟩ := List.mem_flatMap.mp hc
    cases t <;> simp only [DataType.letter, List.mem_cons, List.not_mem_nil, or_false] at hc <;>
      rcases hc with rfl | rfl <;> decide

/-- A line whose head has known letters is read by its parts, with or without blanks at its end. -/
theorem instr_of_parts {m : List Char} {ts : List DataType} (hm : m.all Char.isLower = true)
    (hne : m ≠ []) (hts : ∀ t ∈ ts, t ∈ DataType.named) {text : List Char}
    (htext : text = [] ∨ ∃ s, text = ' ' :: s) (address : Nat) :
    instr (trim (m ++ typeLetters ts ++ text)) address =
      typed (String.ofList m) ts[0]? ts[1]? (trim text) address := by
  have hsolid := solid_head hm ts
  have hdot : '.' ∉ m := fun hc => absurd (List.all_eq_true.mp hm _ hc) (by decide)
  have hcut : (cutAt isBlank (trim (m ++ typeLetters ts ++ text))).getD
      (trim (m ++ typeLetters ts ++ text), []) =
        (m ++ typeLetters ts, (dropEndWhile isBlank text).drop 1) := by
    rw [trim_append hsolid (by simp [hne])]
    have hshape : dropEndWhile isBlank text = [] ∨ ∃ s, dropEndWhile isBlank text = ' ' :: s := by
      obtain ⟨t, ht⟩ : dropEndWhile isBlank text <+: text := List.rdropWhile_prefix isBlank text
      cases hd : dropEndWhile isBlank text with
      | nil => exact .inl rfl
      | cons c s =>
        rw [hd] at ht
        rcases htext with rfl | ⟨u, rfl⟩
        · cases ht
        · exact .inr ⟨s, by rw [(List.cons.inj ht).1]⟩
    rcases hshape with h | ⟨s, h⟩
    · rw [h, List.append_nil, cutAt_of_forall hsolid]
      rfl
    · rw [h, cutAt_append_cons hsolid (by decide)]
      rfl
  have htrim : trim ((dropEndWhile isBlank text).drop 1) = trim text := by
    rw [← trim_dropEndWhile text]
    cases hd : dropEndWhile isBlank text with
    | nil => rfl
    | cons c s =>
      obtain ⟨t, ht⟩ : dropEndWhile isBlank text <+: text := List.rdropWhile_prefix isBlank text
      rw [hd] at ht
      rcases htext with rfl | ⟨u, rfl⟩
      · cases ht
      · obtain rfl : c = ' ' := (List.cons.inj ht).1
        exact (trim_cons_of_blank (by decide) s).symm
  rw [instr_eq, hcut]
  simp only [splitOn_head hdot, List.headD_cons, List.getElem?_cons_succ, mapM_letters hts, ok_bind,
    htrim]

/-- What an instruction line without a label gives. -/
theorem typed_of_instr {line : List Char} {address : Nat} {i : Instr}
    (h : instr line address = .ok (i, none)) :
    i.type1 ∈ DataType.named ∧ i.type2 ∈ DataType.named ∧ ∃ text, (∀ c ∈ text, c ∈ line) ∧
      ((∃ ext, i.opcode = .extended ∧ i.extended = some ext ∧
        extendedOperand ext i.type1 text = .ok i.operand) ∨
      (i.extended = none ∧ operand i.opcode i.type1 text = .ok (i.operand, none))) := by
  have hnamed {s : Option (List Char)} {t : Option DataType} (hs : s.mapM dataType = .ok t)
      {d : DataType} (hd : d ∈ DataType.named) : t.getD d ∈ DataType.named := by
    cases s with
    | none => cases hs; exact hd
    | some s =>
      obtain ⟨u, hu, ht⟩ := ok_of_bind hs
      cases ht
      exact mem_named_of_dataType hu
  rw [instr_eq] at h
  have hrest : ∀ c ∈ ((cutAt isBlank line).getD (line, [])).2, c ∈ line := by
    cases hcut : cutAt isBlank line with
    | none => simp
    | some p =>
      obtain ⟨c, hline, -, -⟩ := eq_of_cutAt (a := p.1) (b := p.2) hcut
      intro x hx
      rw [hline]
      exact List.mem_append_right _ (List.mem_cons_of_mem _ hx)
  dsimp only at h
  obtain ⟨type1, h1, h⟩ := ok_of_bind h
  obtain ⟨type2, h2, h⟩ := ok_of_bind h
  have htext : ∀ c ∈ trim ((cutAt isBlank line).getD (line, [])).2, c ∈ line := fun c hc =>
    hrest c (mem_of_mem_trim hc)
  unfold typed at h
  split at h
  · rename_i ext _
    obtain ⟨o, ho, h⟩ := ok_of_bind h
    cases h
    exact ⟨hnamed h1 (by decide), hnamed h2 (by decide), _, htext, .inl ⟨ext, rfl, rfl, ho⟩⟩
  · split at h
    · cases h
    · obtain ⟨⟨o, label⟩, ho, h⟩ := ok_of_bind h
      cases h
      have ht1 := hnamed h1 (d := .int32) (by decide)
      exact ⟨ht1, hnamed h2 ht1, _, htext, .inr ⟨rfl, ho⟩⟩

/-- The types that a text shows. -/
def shownTypes (i : Instr) : List DataType :=
  if i.opcode.hasOffset then []
  else i.type1 :: if Instr.showsType2 i.opcode then [i.type2] else []

theorem showsType2_of_hasOffset {op : Opcode} (h : op.hasOffset = true) :
    Instr.showsType2 op = false := by
  cases op <;> first | rfl | cases h

theorem typeText_toList (i : Instr) : i.typeText.toList = typeLetters (shownTypes i) := by
  unfold Instr.typeText shownTypes
  cases i.opcode.hasOffset <;> cases Instr.showsType2 i.opcode <;> simp [typeLetters]

theorem text_shape (o : Operand) (address : Nat) :
    (o.text address).toList = [] ∨ ∃ s, (o.text address).toList = ' ' :: s := by
  cases o with
  | none => exact .inl rfl
  | bool b =>
    cases b
    · exact .inr ⟨_, toList_blank_append "false"⟩
    · exact .inr ⟨_, toList_blank_append "true"⟩
  | function name => exact .inr ⟨"[function]".toList ++ name.toList, by simp [Operand.text]⟩
  | dup size swap =>
    by_cases h : swap = 0
    · exact .inr ⟨(toString size.toNat).toList, by simp [Operand.text, h]⟩
    · exact .inr ⟨(toString size.toNat).toList ++ ' ' :: (toString swap.toNat).toList, by
        simp [Operand.text, h]⟩
  | envExit => exact .inr ⟨_, toList_blank_append "<drop>"⟩
  | call f argc => exact .inr ⟨f.toList ++ ' ' :: (toString argc.toNat).toList, by
      simp [Operand.text]⟩
  | reference id kind => exact .inr ⟨(toString id.toInt).toList ++ ' ' :: (toString kind.toNat).toList,
      by simp [Operand.text]⟩
  | _ => exact .inr ⟨_, toList_blank_append _⟩

/-- The two parts of an instruction's text. -/
theorem toList_instrText (i : Instr) : i.text.toList =
    i.mnemonic.toList ++ typeLetters (shownTypes i) ++ (i.operand.text i.address).toList := by
  simp [Instr.text, typeText_toList]

theorem isLower_instrMnemonic (i : Instr) : i.mnemonic.toList.all Char.isLower = true := by
  unfold Instr.mnemonic
  split
  · exact isLower_extMnemonic _
  · exact isLower_mnemonic _

theorem instrMnemonic_ne_nil (i : Instr) : i.mnemonic.toList ≠ [] := by
  unfold Instr.mnemonic
  split
  · rename_i ext _
    cases ext <;> exact List.cons_ne_nil _ _
  · cases i.opcode <;> exact List.cons_ne_nil _ _

theorem shownTypes_named {i : Instr} (h1 : i.type1 ∈ DataType.named) (h2 : i.type2 ∈ DataType.named) :
    ∀ t ∈ shownTypes i, t ∈ DataType.named := by
  intro t ht
  unfold shownTypes at ht
  split at ht
  · cases ht
  · split at ht
    · rcases List.mem_pair.mp ht with rfl | rfl
      · exact h1
      · exact h2
    · rw [List.mem_singleton.mp ht]
      exact h1

/-- The text of an instruction that a line gave is read as that instruction at any address. -/
theorem instr_text {line : List Char} {address : Nat} {i : Instr}
    (h : instr line address = .ok (i, none)) (hl : i.operand.Legible) (hn : '\n' ∉ line)
    (place : Nat) :
    '\n' ∉ i.text.toList ∧
      ∃ j, instr (trim i.text.toList) place = .ok (j, none) ∧ i.ReadsAs j ∧ j.address = place := by
  obtain ⟨h1, h2, text, hsub, hread⟩ := typed_of_instr h
  have htn : '\n' ∉ text := fun hc => hn (hsub _ hc)
  have hhead := not_mem_of_solid (solid_head (isLower_instrMnemonic i) (shownTypes i))
  have hparts := instr_of_parts (isLower_instrMnemonic i) (instrMnemonic_ne_nil i)
    (shownTypes_named h1 h2) (text_shape i.operand i.address) place
  rw [← toList_instrText, String.ofList_toList] at hparts
  rw [toList_instrText, List.mem_append, not_or]
  rw [toList_instrText] at hparts
  rw [hparts]
  rcases hread with ⟨ext, hop, hext, ho⟩ | ⟨hext, ho⟩
  · have hs := extendedOperand_spelled ho i.address
    have hshown : shownTypes i = [i.type1] := by simp [shownTypes, hop]; rfl
    refine ⟨⟨hhead, hs.oneLine⟩, ⟨place, .extended, some ext, i.type1, .int16, i.operand⟩, ?_, ?_,
      rfl⟩
    · have hm : i.mnemonic = ext.mnemonic := by simp [Instr.mnemonic, hext]
      simp only [typed, hm, extOpcode_ofMnemonic?, hshown, List.getElem?_cons_zero,
        List.getElem?_cons_succ, List.getElem?_nil, Option.getD_some, Option.getD_none, hs.reads,
        ok_bind, pure_eq_ok]
    · exact ⟨hop, hext, rfl, fun _ => rfl, fun h2 => by rw [hop] at h2; cases h2⟩
  · have hm : i.mnemonic = i.opcode.mnemonic := by simp [Instr.mnemonic, hext]
    cases hoff : i.opcode.hasOffset with
    | true =>
      have hs := @operand_spelled _ _ .int32 _ _ ho hl htn (by simp [hoff]) i.address
      have hshown : shownTypes i = [] := by simp [shownTypes, hoff]
      refine ⟨⟨hhead, hs.2⟩, ⟨place, i.opcode, none, .int32, .int32, i.operand⟩, ?_, ?_, rfl⟩
      · simp only [typed, hm, not_ext_mnemonic, opcode_ofMnemonic?, hshown, List.getElem?_nil,
          Option.getD_none, hs.1, ok_bind, pure_eq_ok]
      · refine ⟨rfl, hext, rfl, fun h => ?_, fun h => ?_⟩
        · rw [hoff] at h
          cases h
        · rw [showsType2_of_hasOffset hoff] at h
          cases h
    | false =>
      have hs := operand_spelled ho hl htn (fun _ => rfl) i.address
      have hshown : shownTypes i = i.type1 :: if Instr.showsType2 i.opcode then [i.type2] else [] :=
        by simp [shownTypes, hoff]
      refine ⟨⟨hhead, hs.2⟩, ⟨place, i.opcode, none, i.type1, (shownTypes i)[1]?.getD i.type1,
        i.operand⟩, ?_, ⟨rfl, hext, rfl, fun _ => rfl, fun h => ?_⟩, rfl⟩
      · simp only [typed, hm, not_ext_mnemonic, opcode_ofMnemonic?, hshown, List.getElem?_cons_zero,
          Option.getD_some, hs.1, ok_bind, pure_eq_ok]
      · simp [hshown, h]

end Listing

open Listing

/-- The text of every instruction that a line gives assembles to that instruction alone. -/
theorem assemble_text {line : List Char} {address : Nat} {i : Instr} (hn : '\n' ∉ line)
    (h : instr line address = .ok (i, none)) (hl : i.operand.Legible) (name : String) :
    ∃ j, assemble name i.text = .ok { name, length := j.size, instrs := [j] } ∧ i.ReadsAs j ∧
      j.address = 0 := by
  obtain ⟨hone, j, hj, hreads, haddress⟩ := instr_text h hl hn 0
  obtain ⟨c, s, hcs, hlower⟩ : ∃ c s, trim i.text.toList = c :: s ∧ c.isLower = true := by
    obtain ⟨c, t, hct⟩ := List.exists_cons_of_ne_nil (instrMnemonic_ne_nil i)
    have hc : c.isLower = true := List.all_eq_true.mp (isLower_instrMnemonic i) c (by simp [hct])
    rw [toList_instrText, trim_append (solid_head (isLower_instrMnemonic i) _) (by simp [hct]), hct]
    exact ⟨c, _, rfl, hc⟩
  have hdraft : ({} : Draft).line 1 (trim i.text.toList) =
      .ok { instrs := #[(j, none)], address := j.size } := by
    rw [hcs] at hj ⊢
    unfold Draft.line
    -- a line that starts with a letter is neither blank nor a comment, a label or an embedded entry
    split
    · rename_i heq
      cases heq
    · rename_i heq
      cases heq
      cases hlower
    · rename_i heq
      cases heq
      cases hlower
    · rename_i heq
      cases heq
      cases hlower
    · rw [hj, ok_bind]
      simp only [Option.map_none, pure_eq_ok, Array.push_empty, Nat.zero_add]
  have hlines : lines i.text.toList = [i.text.toList] :=
    lines_single (fun e => by rw [e] at hcs; cases hcs) hone
  refine ⟨j, ?_, hreads, haddress⟩
  simp only [assemble, hlines, List.zipIdx_cons, List.zipIdx_nil, List.foldlM_cons, List.foldlM_nil,
    hdraft]
  rfl

/-- A literal with a quotation mark in it, read off `push.s "say \"hi\""`. -/
theorem assemble_text_quotation :
    let i : Instr := ⟨8, .push, none, .string, .string, .string "say \"hi\""⟩
    instr "push.s \"say \\\"hi\\\"\"".toList 8 = .ok (i, none) ∧ i.operand.Legible ∧
      ∃ j, assemble "s" i.text = .ok { name := "s", length := j.size, instrs := [j] } ∧
        i.ReadsAs j ∧ j.address = 0 := by
  intro i
  have hread : instr "push.s \"say \\\"hi\\\"\"".toList 8 = .ok (i, none) := by decide +kernel
  have hlegible : i.operand.Legible := by
    have hall : ("say \"hi\"".toList.all fun c => decide (' ' ≤ c ∧ c ≤ '~')) = true := by
      decide +kernel
    exact fun c hc => .inl (of_decide_eq_true (List.all_eq_true.mp hall c hc))
  exact ⟨hread, hlegible, assemble_text (by decide +kernel) hread hlegible "s"⟩

end GmlLift
