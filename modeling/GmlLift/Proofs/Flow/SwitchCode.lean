import GmlLift.Flow.Switch
import GmlLift.Proofs.Flow.Resolved

/-! # The code of a switch

A switch tests its value against one constant after the other. Each test ends a block, the jump to
the default or past the switch is a block of its own, and the end is found by counting values. -/
namespace GmlLift

open GmlLift.Graph

namespace Switch

/-! ## Tests -/

/-- A copy of the value is compared with a constant, and equality leads to a case. -/
structure Test where
  copy : Instr
  key : Instr
  compare : Instr
  jump : Instr

namespace Test

def front (t : Test) : List Instr := [t.copy, t.key, t.compare]

def instrs (t : Test) : List Instr := t.front ++ [t.jump]

/-- The opcodes and operands of a test that leads to an address. -/
structure Leads (t : Test) (target : Nat) : Prop where
  copy : t.copy.opcode = .dup ∧ t.copy.operand = .dup 0 0
  key : t.key.opcode.isPush = true
  compare : t.compare.opcode = .cmp ∧ t.compare.comparison? = some .equal
  jump : t.jump.opcode = .bt ∧ t.jump.target? = some target

def case (t : Test) (target : Nat) : Case := ⟨[t.key], target⟩

variable {t : Test} {target : Nat} (h : t.Leads target)
include h

theorem key_ne_dup : t.key.opcode ≠ .dup := by
  intro hop
  have hkey := h.key
  rw [hop] at hkey
  cases hkey

theorem caseTest?_eq (before : List Instr) :
    caseTest? (before ++ t.instrs) before.length = some (t.case target) := by
  rw [caseTest?, List.drop_left, instrs, front, List.cons_append]
  simp [h.copy, h.compare, h.jump, case]

theorem lastDup?_eq (before : List Instr) : lastDup? (before ++ t.instrs) = some before.length := by
  have hfront : (before ++ t.instrs).take ((before ++ t.instrs).length - 2) =
      before ++ [t.copy, t.key] := by
    have hsplit : before ++ t.instrs = (before ++ [t.copy, t.key]) ++ [t.compare, t.jump] := by
      simp [instrs, front]
    rw [hsplit, List.length_append, List.length_cons, List.length_singleton, Nat.add_sub_cancel,
      List.take_left]
  have hkey : (t.key.opcode == .dup) = false := by simpa using key_ne_dup h
  rw [lastDup?, hfront]
  simp [List.findIdx?_cons, hkey, h.copy]

omit h in
theorem caseTest?_jump {jump : Instr} (hop : jump.opcode = .b) : caseTest? [jump] 0 = none := by
  simp [caseTest?, hop]

end Test

variable {g : Graph}

/-- Blocks with tests, then the block of the default jump. -/
theorem tests_eq {jump : Instr} {otherwise : Nat} (hop : jump.opcode = .b)
    (htarget : jump.target? = some otherwise) (ts : List (Test × Nat)) (start : Nat)
    (hleads : ∀ t ∈ ts, t.1.Leads t.2)
    (hblocks : ∀ k t, ts[k]? = some t → g.instrs (start + k) = t.1.instrs)
    (hjump : g.instrs (start + ts.length) = [jump]) (more : List NodeId) :
    tests g (List.range' start (ts.length + 1) ++ more) =
      (ts.map fun t => t.1.case t.2, List.range' start (ts.length + 1), some otherwise) := by
  induction ts generalizing start with
  | nil =>
    have hfirst : g.instrs start = [jump] := hjump
    rw [List.length_nil, List.range'_one, List.singleton_append, tests, hfirst,
      Test.caseTest?_jump hop]
    simp [hop, htarget]
  | cons t ts ih =>
    have hfirst : g.instrs start = t.1.instrs := hblocks 0 t rfl
    have hrest := ih (start + 1) (fun u hu => hleads u (by simp [hu]))
      (fun k u hu => by
        have hk := hblocks (k + 1) u hu
        rwa [← Nat.add_assoc, Nat.add_right_comm] at hk)
      (by
        rw [List.length_cons, ← Nat.add_assoc, Nat.add_right_comm] at hjump
        exact hjump)
    have htest := Test.caseTest?_eq (hleads t (by simp)) []
    rw [List.nil_append, List.length_nil] at htest
    rw [List.length_cons, List.range'_succ, List.cons_append, tests, hfirst, htest, hrest]
    rfl

/-- Blocks of another switch, and blocks that test nothing, start no switch. -/
theorem candidatesIn_eq_nil {claimed bs : List NodeId}
    (h : ∀ b ∈ bs, b ∈ claimed ∨ candidate? g b = none) : candidatesIn g claimed bs = [] := by
  induction bs with
  | nil => rfl
  | cons b bs ih =>
    have hrest := ih fun c hc => h c (by simp [hc])
    rw [candidatesIn]
    split
    · exact hrest
    · rename_i hno
      rcases h b (by simp) with hclaimed | hnone
      · exact absurd (List.contains_iff_mem.mpr hclaimed) hno
      · rw [hnone]
        exact hrest

/-! ## Counting values -/

/-- Code that from a height of the stack on takes nothing from below and leaves nothing behind, as
its instructions count. -/
def Balances : (height : Nat) → List Instr → Prop
  | height, [] => height = 0
  | height, i :: rest => i.stackEffect.pops ≤ height ∧
    Balances (height - i.stackEffect.pops + i.stackEffect.pushes) rest

instance decidableBalances : (height : Nat) → (is : List Instr) → Decidable (Balances height is)
  | height, [] => inferInstanceAs (Decidable (height = 0))
  | _, _ :: _ => @instDecidableAnd _ _ _ (decidableBalances ..)

theorem Balances.append {is js : List Instr} {height : Nat} (h : Balances height is)
    (h' : Balances 0 js) : Balances height (is ++ js) := by
  induction is generalizing height with
  | nil =>
    rw [Balances] at h
    rw [h]
    exact h'
  | cons i is ih => exact ⟨h.1, ih h.2⟩

theorem Balances.flatMap {α : Type} {f : α → List Instr} {as : List α}
    (h : ∀ a ∈ as, Balances 0 (f a)) : Balances 0 (as.flatMap f) := by
  induction as with
  | nil => rfl
  | cons a as ih => exact (h a (by simp)).append (ih fun b hb => h b (by simp [hb]))

/-- The search for the end passes over balanced code. -/
theorem closingPop?_balances {is : List Instr} {height : Nat} (h : Balances height is)
    (rest : List Instr) : closingPop? g height (is ++ rest) = closingPop? g 0 rest := by
  induction is generalizing height with
  | nil =>
    rw [Balances] at h
    rw [h]
    rfl
  | cons i is ih =>
    obtain ⟨hpops, hrest⟩ := h
    have hstay : ¬ (i.opcode = .popz ∧ (height : Int) = 0 ∧
        (!isEarlyDiscard g (is ++ rest)) = true) := by
      rintro ⟨hop, hzero, -⟩
      have hone : i.stackEffect.pops = 1 := by rw [Instr.stackEffect, hop]
      omega
    have hnet : (height : Int) + i.stackEffect.net =
        (height - i.stackEffect.pops + i.stackEffect.pushes : Nat) := by
      rw [StackEffect.net]
      omega
    rw [List.cons_append, closingPop?, if_neg hstay, hnet, ih hrest]

/-- What the search finds is a `popz` that is not followed by a way out of the switch. -/
theorem closingPop?_spec {is : List Instr} {depth : Int} {a : Nat}
    (h : closingPop? g depth is = some a) : ∃ before i rest, is = before ++ i :: rest ∧
      i.address = a ∧ isEarlyDiscard g rest = false := by
  induction is generalizing depth with
  | nil => cases h
  | cons i is ih =>
    rw [closingPop?] at h
    split at h
    · rename_i hfound
      obtain ⟨-, -, hstay⟩ := hfound
      exact ⟨[], i, is, rfl, Option.some.inj h, by simpa using hstay⟩
    · obtain ⟨before, j, rest, rfl, ha, hstay⟩ := ih h
      exact ⟨i :: before, j, rest, rfl, ha, hstay⟩

/-- The last of the addresses that the tests lead to. -/
theorem targetRange_snd {c : Candidate} {last : Nat} (hlast : c.otherwise = last)
    (hcases : ∀ k ∈ c.cases, k.target ≤ last) : (targetRange c).2 = last := by
  have hfold (as : List Nat) (h : ∀ a ∈ as, a ≤ last) : as.foldl max last = last := by
    induction as with
    | nil => rfl
    | cons a as ih =>
      rw [List.foldl_cons, Nat.max_eq_left (h a (by simp))]
      exact ih fun b hb => h b (by simp [hb])
  rw [targetRange, hlast]
  refine hfold _ fun a ha => ?_
  obtain ⟨k, hk, rfl⟩ := List.mem_map.mp ha
  exact hcases k hk

end Switch

end GmlLift
