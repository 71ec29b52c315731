import GmlLift.Proofs.Text.Cuts
import GmlLift.Text.Numeral
import Mathlib.Algebra.Group.Int.Defs
import Mathlib.Algebra.Group.Nat.Defs

/-! # Numerals are read back

The decimal digits of a number are read as that number, in every word that holds it. -/
namespace GmlLift.Text

theorem toList_toString_nat (n : Nat) : (toString n).toList = Nat.toDigits 10 n := by
  simp

theorem toList_toString_int (n : Int) : (toString n).toList =
    if 0 ≤ n then Nat.toDigits 10 n.toNat else '-' :: Nat.toDigits 10 (-n).toNat := by
  rw [Int.toString_eq_repr, Int.repr_eq_if]
  split <;> simp [Nat.repr]

theorem toDigits_ne_nil (n : Nat) : Nat.toDigits 10 n ≠ [] := fun h => by
  have hpos := Nat.length_toDigits_pos (b := 10) (n := n)
  simp [h] at hpos

theorem isDigit_of_mem {n : Nat} {c : Char} (h : c ∈ Nat.toDigits 10 n) : c.isDigit = true :=
  Nat.isDigit_of_mem_toDigits (by decide) (by decide) h

theorem readDigits_toDigits (n : Nat) : readDigits (Nat.toDigits 10 n) = some n := by
  have hall : (Nat.toDigits 10 n).all Char.isDigit = true :=
    List.all_eq_true.mpr fun _ => isDigit_of_mem
  simp [readDigits, hall, Nat.ofDigitChars_toDigits]

/-- The first digit is no sign. -/
theorem exists_toDigits_cons (n : Nat) :
    ∃ c s, Nat.toDigits 10 n = c :: s ∧ c ≠ '+' ∧ c ≠ '-' := by
  obtain ⟨c, s, hcs⟩ := List.exists_cons_of_ne_nil (toDigits_ne_nil n)
  have hd : c.isDigit = true := isDigit_of_mem (by rw [hcs]; exact List.mem_cons_self)
  refine ⟨c, s, hcs, ?_, ?_⟩ <;> rintro rfl <;> exact absurd hd (by decide)

theorem readUnsigned_toDigits (n : Nat) : readUnsigned (Nat.toDigits 10 n) = some n := by
  obtain ⟨c, s, hcs, hplus, -⟩ := exists_toDigits_cons n
  rw [← readDigits_toDigits n, hcs]
  unfold readUnsigned
  split
  · simp_all
  · rfl

theorem readSigned_toDigits (n : Nat) : readSigned (Nat.toDigits 10 n) = some (n : Int) := by
  obtain ⟨c, s, hcs, hplus, hminus⟩ := exists_toDigits_cons n
  have hread : readSigned (c :: s) = (readDigits (c :: s)).map Int.ofNat := by
    unfold readSigned
    split
    · simp_all
    · simp_all
    · rfl
  rw [hcs, hread, ← hcs, readDigits_toDigits]
  rfl

theorem readSigned_toString (n : Int) : readSigned (toString n).toList = some n := by
  rw [toList_toString_int]
  split
  · rename_i h
    rw [readSigned_toDigits, Int.toNat_of_nonneg h]
  · rename_i h
    have hneg : -((-n).toNat : Int) = n := by omega
    simp only [readSigned, readDigits_toDigits]
    exact congrArg some hneg

theorem readInt_toString {bits : Nat} {n : Int} (hlo : -(2 : Int) ^ (bits - 1) ≤ n)
    (hhi : n < (2 : Int) ^ (bits - 1)) : readInt bits (toString n).toList = some n := by
  have hpow : ((Nat.pow 2 (bits - 1) : Nat) : Int) = (2 : Int) ^ (bits - 1) := by
    simp [Nat.pow_eq]
  rw [readInt, readSigned_toString]
  simp only [Option.bind_eq_bind, Option.bind_some, hpow, hlo, hhi, and_self, if_true]

theorem readNat_toString {bits n : Nat} (h : n < 2 ^ bits) :
    readNat bits (toString n).toList = some n := by
  rw [toList_toString_nat]
  simpa [readNat, readUnsigned_toDigits] using h

/-- What stands in a numeral. -/
theorem mem_toString_int {n : Int} {c : Char} (h : c ∈ (toString n).toList) :
    c = '-' ∨ c.isDigit = true := by
  rw [toList_toString_int] at h
  split at h
  · exact .inr (isDigit_of_mem h)
  · rcases List.mem_cons.mp h with rfl | h
    · exact .inl rfl
    · exact .inr (isDigit_of_mem h)

theorem toString_int_ne_nil (n : Int) : (toString n).toList ≠ [] := by
  rw [toList_toString_int]
  split
  · exact toDigits_ne_nil _
  · exact List.cons_ne_nil _ _

theorem toString_nat_ne_nil (n : Nat) : (toString n).toList ≠ [] := by
  rw [toList_toString_nat]
  exact toDigits_ne_nil n

/-- Digits stand well below the blanks outside the first 128 characters, and above the others. -/
theorem isBlank_of_isDigit {c : Char} (h : c.isDigit = true) : isBlank c = false := by
  simp only [Char.isDigit, Bool.and_eq_true, decide_eq_true_eq] at h
  have hlo : 48 ≤ c.toNat := h.1
  have hhi : c.toNat ≤ 57 := h.2
  simp [isBlank, inRanges, blankRanges]
  omega

theorem solid_toString_nat (n : Nat) : Solid (toString n).toList := by
  rw [toList_toString_nat]
  exact fun c hc => isBlank_of_isDigit (isDigit_of_mem hc)

theorem solid_toString_int (n : Int) : Solid (toString n).toList := by
  intro c hc
  rcases mem_toString_int hc with rfl | h
  · decide
  · exact isBlank_of_isDigit h

end GmlLift.Text
