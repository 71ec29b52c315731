import GmlLift.Decode
import GmlLift.Proofs.Flow.Tiling

/-! # Code bytes and instruction sizes

How many bytes an instruction takes is decided twice: operand by operand while it is read, and by
operation and type in `Instr.size`. `Coded` cuts a byte string into one chunk for each instruction,
as long as the instruction's size says and read without a look past its end. Decoding gives exactly
the lists that the bytes are cut for, so the two decisions agree. -/
namespace GmlLift

open ByteReader

namespace Decode

variable {α β : Type}

/-- On bytes that start with the chunk a reading gives `a` and goes no further, whatever follows. -/
def Spells (m : Reading α) (position : Nat) (chunk : List UInt8) (a : α) : Prop :=
  ∀ rest, m ⟨chunk ++ rest, position⟩ = .ok (a, ⟨rest, position + chunk.length⟩)

/-- Whenever a reading returns, the next `n` bytes alone made it do so. -/
def Takes (m : Reading α) (n : Nat) : Prop :=
  ∀ r a r', m r = .ok (a, r') →
    ∃ chunk rest, r.rest = chunk ++ rest ∧ chunk.length = n ∧ Spells m r.position chunk a

/-- What a reading leaves is what follows the bytes it took. -/
theorem Spells.rest_eq {m : Reading α} {r r' : ByteReader} {chunk rest : List UInt8} {a b : α}
    (hs : Spells m r.position chunk a) (hr : r.rest = chunk ++ rest) (h : m r = .ok (b, r')) :
    b = a ∧ r' = ⟨rest, r.position + chunk.length⟩ := by
  have hm := hs rest
  rw [← hr, h] at hm
  cases hm
  exact ⟨rfl, rfl⟩

theorem bind_eq_of_ok {m : Reading α} {f : α → Reading β} {r r₁ : ByteReader} {a : α}
    (h : m r = .ok (a, r₁)) : (m >>= f) r = f a r₁ := by
  show (m r >>= fun p => f p.1 p.2) = f a r₁
  rw [h]
  rfl

theorem Spells.bind {m : Reading α} {f : α → Reading β} {position : Nat} {c d : List UInt8} {a : α}
    {b : β} (hm : Spells m position c a) (hf : Spells (f a) (position + c.length) d b) :
    Spells (m >>= f) position (c ++ d) b := by
  intro rest
  rw [List.append_assoc, bind_eq_of_ok (hm (d ++ rest)), hf rest, List.length_append, Nat.add_assoc]

theorem ok_of_bind_reading {m : Reading α} {f : α → Reading β} {r r' : ByteReader} {b : β}
    (h : (m >>= f) r = .ok (b, r')) : ∃ a r₁, m r = .ok (a, r₁) ∧ f a r₁ = .ok (b, r') := by
  obtain ⟨⟨a, r₁⟩, h₁, h₂⟩ := ok_of_bind h
  exact ⟨a, r₁, h₁, h₂⟩

theorem Takes.bind {m : Reading α} {f : α → Reading β} {n k : Nat} (hm : Takes m n)
    (hf : ∀ a, Takes (f a) k) : Takes (m >>= f) (n + k) := by
  intro r b r' h
  obtain ⟨a, r₁, h₁, h₂⟩ := ok_of_bind_reading h
  obtain ⟨c, rest, hr, hc, hs⟩ := hm r a r₁ h₁
  obtain ⟨-, rfl⟩ := hs.rest_eq hr h₁
  obtain ⟨d, rest', hr', hd, hs'⟩ := hf a _ b r' h₂
  refine ⟨c ++ d, rest', ?_, ?_, hs.bind hs'⟩
  · rw [hr, List.append_assoc, ← hr']
  · rw [List.length_append, hc, hd]

theorem takes_pure (a : α) : Takes (pure a) 0 := by
  intro r b r' h
  cases h
  exact ⟨[], r.rest, rfl, rfl, fun rest => rfl⟩

theorem takes_throw (e : CodeError) (n : Nat) : Takes (throw e : Reading α) n := by
  intro r a r' h
  cases h

theorem Takes.map {m : Reading α} {n : Nat} (hm : Takes m n) (f : α → β) : Takes (f <$> m) n := by
  have h : Takes (m >>= fun a => pure (f a)) (n + 0) := hm.bind fun a => takes_pure (f a)
  rwa [bind_pure_comp] at h

theorem takes_number (n : Nat) : Takes (number n) n := by
  intro r a r' h
  unfold number at h
  split at h
  · rename_i hn
    cases h
    have hlen : (r.rest.take n).length = n := List.length_take_of_le hn
    refine ⟨r.rest.take n, r.rest.drop n, (List.take_append_drop ..).symm, hlen, fun rest => ?_⟩
    have htake : (r.rest.take n ++ rest).take n = r.rest.take n := by
      rw [List.take_append_of_le_length (Nat.le_of_eq hlen.symm), List.take_take, Nat.min_self]
    have hdrop : (r.rest.take n ++ rest).drop n = rest := by
      rw [List.drop_append_of_le_length (Nat.le_of_eq hlen.symm), List.drop_take, Nat.sub_self,
        List.take_zero, List.nil_append]
    have hle : n ≤ (r.rest.take n ++ rest).length := by
      rw [List.length_append, hlen]
      exact Nat.le_add_right ..
    show number n ⟨r.rest.take n ++ rest, r.position⟩ = _
    unfold number
    rw [if_pos hle, htake, hdrop, hlen]
  · cases h

theorem takes_uint32 : Takes uint32 4 := (takes_number 4).map _

theorem takes_int32 : Takes int32 4 := (takes_number 4).map _

/-! ## Operands -/

section

variable (symbols : Symbols) (address : Nat) (w : Word)

theorem takes_varOperand : Takes (varOperand symbols address w) 4 :=
  takes_uint32.bind fun _ => takes_pure _

/-- The bytes after the instruction word of a push. -/
def pushExtra : DataType → Nat
  | .double | .int64 => 8
  | .int16 => 0
  | _ => 4

theorem takes_pushOperand : Takes (pushOperand symbols address w) (pushExtra w.type1) := by
  unfold pushOperand
  cases w.type1 with
  | double => exact (takes_number 8).map _ |>.map _
  | float => exact takes_uint32.map _
  | int32 => exact takes_int32.bind fun _ => takes_pure _
  | int64 => exact (takes_number 8).map _ |>.map _
  | bool => exact takes_uint32.map _
  | string =>
    refine takes_uint32.bind (k := 0) fun index => ?_
    split
    · exact takes_pure _
    · exact takes_throw _ _
  | var => exact takes_varOperand symbols address w
  | int16 => exact takes_pure _
  | raw v => exact takes_throw _ _

theorem takes_extendedOperand (op : ExtOpcode) :
    Takes (extendedOperand op w) (if w.type1 = .int32 then 4 else 0) := by
  unfold extendedOperand
  split
  · refine takes_int32.bind (k := 0) fun value => ?_
    split
    · exact takes_pure _
    · exact takes_pure _
  · exact takes_pure _

/-- The bytes after the instruction word. -/
def extra (op : Opcode) (type : DataType) : Nat := match op with
  | .push | .pushLoc | .pushGlb | .pushBltn | .pushI => pushExtra type
  | .pop => if type = .int16 then 0 else 4
  | .call => 4
  | .extended => if type = .int32 then 4 else 0
  | _ => 0

theorem takes_operand (op : Opcode) (kind : Option UInt8) :
    Takes (operand symbols address w op kind) (extra op w.type1) := by
  unfold operand extra
  cases op with
  | push | pushLoc | pushGlb | pushBltn | pushI =>
    exact (takes_pushOperand symbols address w).map _
  | pop =>
    dsimp only
    split
    · exact takes_pure _
    · exact (takes_varOperand symbols address w).map _
  | b | bt | bf | pushEnv | popEnv =>
    dsimp only
    split
    · exact takes_pure _
    · exact takes_pure _
  | cmp =>
    dsimp only
    split
    · exact takes_pure _
    · exact takes_throw _ _
  | call => exact takes_uint32.bind fun _ => takes_pure _
  | extended =>
    dsimp only
    split
    · exact (takes_extendedOperand w _).map _
    · exact takes_throw _ _
  | _ => exact takes_pure _

end

/-- The size of an instruction is its word and what follows it. -/
theorem size_eq_extra (i : Instr) : i.size = 4 + extra i.opcode i.type1 := by
  unfold Instr.size extra pushExtra
  cases i.opcode with
  | push | pushLoc | pushGlb | pushBltn | pushI => cases i.type1 <;> rfl
  | pop | extended => dsimp only; split <;> rfl
  | _ => rfl

/-- An instruction is read from its own bytes and stands where they start. -/
theorem instr_spells {version : Version} {symbols : Symbols} {r r' : ByteReader} {i : Instr}
    (h : instr version symbols r = .ok (i, r')) :
    ∃ chunk rest, r.rest = chunk ++ rest ∧ chunk.length = i.size ∧ i.address = r.position ∧
      Spells (instr version symbols) r.position chunk i := by
  obtain ⟨r₀, r₁, h₀, h₁⟩ := ok_of_bind_reading h
  cases h₀
  obtain ⟨word, r₂, hword, h₂⟩ := ok_of_bind_reading h₁
  obtain ⟨c, rest, hr, hc, hs⟩ := takes_uint32 r word r₂ hword
  obtain ⟨-, rfl⟩ := hs.rest_eq hr hword
  dsimp only at h₂
  cases hop : operation version (Word.opcodeByte ⟨word⟩) with
  | none =>
    rw [hop] at h₂
    cases h₂
  | some found =>
    obtain ⟨op, kind⟩ := found
    rw [hop] at h₂
    have htakes := takes_operand symbols r.position ⟨word⟩ op kind
    obtain ⟨⟨ext, operand⟩, r₃, hoperand, h₃⟩ := ok_of_bind_reading h₂
    obtain ⟨d, rest', hr', hd, hs'⟩ := htakes _ _ _ hoperand
    obtain ⟨-, rfl⟩ := hs'.rest_eq hr' hoperand
    cases h₃
    refine ⟨c ++ d, rest', ?_, ?_, rfl, fun more => ?_⟩
    · rw [hr, List.append_assoc, ← hr']
    · rw [List.length_append, hc, hd, size_eq_extra]
    · -- the word is read as before, so the operation and with it the operand are the same
      have hword' := hs (d ++ more)
      have hoperand' := hs' more
      rw [List.append_assoc, List.length_append, ← Nat.add_assoc]
      unfold instr
      rw [bind_eq_of_ok (m := get) rfl, bind_eq_of_ok hword']
      dsimp only
      rw [hop]
      exact bind_eq_of_ok hoperand'

end Decode

/-- Bytes cut into one chunk for each instruction: as long as its size says, read as the instruction
at the chunk's address, and followed at once by the next. -/
inductive Coded (version : Version) (symbols : Symbols) : Nat → List UInt8 → List Instr → Prop
  | nil (start : Nat) : Coded version symbols start [] []
  | cons {chunk rest : List UInt8} {i : Instr} {is : List Instr}
      (hread : Decode.Spells (Decode.instr version symbols) i.address chunk i)
      (hsize : chunk.length = i.size) (hrest : Coded version symbols i.endAddress rest is) :
      Coded version symbols i.address (chunk ++ rest) (i :: is)

namespace Coded

variable {version : Version} {symbols : Symbols} {start : Nat} {bytes : List UInt8}
  {is : List Instr}

theorem contiguous (h : Coded version symbols start bytes is) : Contiguous start is := by
  induction h with
  | nil => trivial
  | cons _ _ _ ih => exact ⟨rfl, ih⟩

theorem endFrom_eq (h : Coded version symbols start bytes is) :
    endFrom start is = start + bytes.length := by
  induction h with
  | nil => rfl
  | @cons chunk rest i is _ hsize _ ih =>
    simp only [endFrom]
    rw [ih, List.length_append, hsize, Instr.endAddress, Nat.add_assoc]

/-- An instruction takes at least one byte. -/
theorem length_pos_of_size {chunk : List UInt8} {i : Instr} (h : chunk.length = i.size) :
    0 < chunk.length := by
  have := i.address_lt_endAddress
  unfold Instr.endAddress at this
  omega

/-- Reading instructions until the bytes end reads those that the bytes are cut for. -/
theorem of_instrs {fuel : Nat} {r r' : ByteReader}
    (h : Decode.instrs version symbols fuel r = .ok (is, r')) (hfuel : r.rest.length ≤ fuel) :
    Coded version symbols r.position r.rest is := by
  induction fuel generalizing r is r' with
  | zero =>
    cases h
    rw [List.eq_nil_of_length_eq_zero (Nat.le_zero.mp hfuel)]
    exact .nil _
  | succ fuel ih =>
    obtain ⟨r₀, r₁, h₀, h₁⟩ := Decode.ok_of_bind_reading h
    cases h₀
    cases hempty : r.isEmpty with
    | true =>
      simp only [hempty, if_true] at h₁
      cases h₁
      rw [List.isEmpty_iff.mp hempty]
      exact .nil _
    | false =>
      simp only [hempty, Bool.false_eq_true, if_false] at h₁
      obtain ⟨i, r₂, hi, h₂⟩ := Decode.ok_of_bind_reading h₁
      obtain ⟨js, r₃, hjs, h₃⟩ := Decode.ok_of_bind_reading h₂
      cases h₃
      obtain ⟨chunk, rest, hr, hsize, haddress, hread⟩ := Decode.instr_spells hi
      obtain ⟨-, rfl⟩ := hread.rest_eq hr hi
      have hpos := length_pos_of_size hsize
      have hlen : rest.length ≤ fuel := by
        rw [hr, List.length_append] at hfuel
        omega
      have hrest := ih hjs hlen
      rw [hsize, ← haddress] at hrest
      rw [hr, ← haddress]
      exact .cons (haddress ▸ hread) hsize hrest

theorem instrs_eq {fuel : Nat} (h : Coded version symbols start bytes is)
    (hfuel : bytes.length ≤ fuel) : ∃ r, Decode.instrs version symbols fuel ⟨bytes, start⟩ =
      .ok (is, r) := by
  induction h generalizing fuel with
  | nil start =>
    cases fuel with
    | zero => exact ⟨_, rfl⟩
    | succ fuel => exact ⟨_, rfl⟩
  | @cons chunk rest i is hread hsize hrest ih =>
    have hpos := length_pos_of_size hsize
    rw [List.length_append] at hfuel
    obtain ⟨fuel, rfl⟩ := Nat.exists_eq_succ_of_ne_zero (n := fuel) (by omega)
    obtain ⟨r, hr⟩ := @ih fuel (by omega)
    have hfull : ByteReader.isEmpty ⟨chunk ++ rest, i.address⟩ = false :=
      List.isEmpty_eq_false_iff.mpr fun he => by
        rw [(List.append_eq_nil_iff.mp he).1] at hpos
        exact Nat.lt_irrefl _ hpos
    refine ⟨r, ?_⟩
    unfold Decode.instrs
    rw [Decode.bind_eq_of_ok (m := get) rfl]
    simp only [hfull, Bool.false_eq_true, if_false]
    rw [Decode.bind_eq_of_ok (hread rest), hsize]
    exact Decode.bind_eq_of_ok hr

theorem decode_eq_ok_iff : decode version symbols bytes = .ok is ↔
    Coded version symbols 0 bytes is := by
  unfold decode
  constructor
  · intro h
    cases hrun : (Decode.instrs version symbols bytes.length).run ⟨bytes, 0⟩ with
    | error e => rw [hrun] at h; cases h
    | ok found =>
      obtain ⟨js, r⟩ := found
      rw [hrun] at h
      cases h
      exact of_instrs hrun (Nat.le_refl _)
  · intro h
    obtain ⟨r, hr⟩ := h.instrs_eq (Nat.le_refl _)
    show Except.map Prod.fst (Decode.instrs version symbols bytes.length ⟨bytes, 0⟩) = _
    rw [hr]
    rfl

/-- Bytes cut at a boundary between instructions are cut for the instructions before it. -/
theorem take (h : Coded version symbols start bytes is) {k : Nat}
    (hk : k = start + bytes.length ∨ ∃ i ∈ is, i.address = k) :
    Coded version symbols start (bytes.take (k - start)) (is.filter fun i => i.address < k) := by
  induction h with
  | nil start => simpa using Coded.nil start
  | @cons chunk rest i is hread hsize hrest ih =>
    have hi := i.address_lt_endAddress
    have hend : i.endAddress = i.address + chunk.length := by rw [hsize]; rfl
    by_cases hfirst : i.address = k
    · -- nothing stands before the first instruction
      have hnone : (i :: is).filter (fun j => j.address < k) = [] := by
        refine List.filter_eq_nil_iff.mpr fun j hj => ?_
        have hle : i.address ≤ j.address := by
          rcases List.mem_cons.mp hj with rfl | hj
          · exact Nat.le_refl _
          · have := (hrest.contiguous.bounds hj).1
            omega
        simp only [decide_eq_true_eq]
        omega
      rw [hnone, hfirst, Nat.sub_self, List.take_zero, ← hfirst]
      exact .nil _
    · have hk' : k = i.endAddress + rest.length ∨ ∃ j ∈ is, j.address = k := by
        rcases hk with hk | ⟨j, hj, hjk⟩
        · left
          rw [hk, List.length_append, hend, Nat.add_assoc]
        · rcases List.mem_cons.mp hj with rfl | hj
          · exact absurd hjk hfirst
          · exact .inr ⟨j, hj, hjk⟩
      have hle : i.endAddress ≤ k := by
        rcases hk' with hk | ⟨j, hj, hjk⟩
        · omega
        · have := (hrest.contiguous.bounds hj).1
          omega
      have hkeep : (i :: is).filter (fun j => j.address < k) =
          i :: is.filter fun j => j.address < k := by
        rw [List.filter_cons, if_pos (by simp only [decide_eq_true_eq]; omega)]
      have htake : (chunk ++ rest).take (k - i.address) =
          chunk ++ rest.take (k - i.endAddress) := by
        rw [List.take_append, List.take_of_length_le (by omega)]
        congr 2
        omega
      rw [hkeep, htake]
      exact .cons hread hsize (ih hk')

end Coded

/-- Decoded instructions follow one another from address zero to the end of the bytes, and the bytes
before a boundary decode to the instructions before it. -/
theorem decode_layout {version : Version} {symbols : Symbols} {bytes : List UInt8}
    {is : List Instr} (h : decode version symbols bytes = .ok is) :
    Contiguous 0 is ∧ (∀ name, (CodeEntry.ofInstrs name is).length = bytes.length) ∧
      ∀ k, (k = bytes.length ∨ ∃ i ∈ is, i.address = k) →
        decode version symbols (bytes.take k) = .ok (is.filter fun i => i.address < k) := by
  have hcoded := Coded.decode_eq_ok_iff.mp h
  refine ⟨hcoded.contiguous, fun name => ?_, fun k hk => ?_⟩
  · have hend := hcoded.endFrom_eq
    rw [Nat.zero_add] at hend
    show CodeEntry.endOf is = bytes.length
    rw [endOf_eq_endFrom_zero, hend]
  · have hbefore := hcoded.take (k := k) (by rwa [Nat.zero_add])
    exact Coded.decode_eq_ok_iff.mpr hbefore

/-- A short and a long push, a store and an exit. -/
def fourForms : List UInt8 :=
  [5, 0, 0x0F, 0x84, 0, 0, 3, 0xC0, 1, 0, 0, 0, 0, 0, 0, 0, 0xFF, 0xFF, 0x25, 0x45, 0, 0, 0, 0xA0,
    0, 0, 2, 0x9D]

/-- Symbols with a single variable. -/
def oneVariable : Symbols := SymbolTables.symbols { variableNames := ["x"] }

theorem decode_layout_fourForms : ∃ is, decode ⟨17⟩ oneVariable fourForms = .ok is ∧
    is.map (fun i => (i.address, i.size)) = [(0, 4), (4, 12), (16, 8), (24, 4)] ∧
    Contiguous 0 is ∧ (CodeEntry.ofInstrs "f" is).length = 28 ∧
    decode ⟨17⟩ oneVariable (fourForms.take 16) = .ok (is.filter fun i => i.address < 16) := by
  have hrun : decode ⟨17⟩ oneVariable fourForms = .ok _ := rfl
  obtain ⟨hcontiguous, hlength, hbefore⟩ := decode_layout hrun
  exact ⟨_, hrun, by decide, hcontiguous, hlength "f", hbefore 16 (.inr (by decide))⟩

end GmlLift
