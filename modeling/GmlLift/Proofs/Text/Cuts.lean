import GmlLift.Text.Blank
import Mathlib.Data.List.DropRight

/-! # Cutting texts

Where a text is cut, and that cutting again what has been cut changes nothing. -/
namespace GmlLift.Text

section

variable {p : Char → Bool} {a b s : List Char} {c : Char}

theorem cutAt_of_forall (h : ∀ c ∈ s, p c = false) : cutAt p s = none := by
  induction s with
  | nil => rfl
  | cons c s ih =>
    simp [cutAt, h c List.mem_cons_self, ih fun x hx => h x (List.mem_cons_of_mem _ hx)]

theorem cutAt_append_cons (h : ∀ c ∈ a, p c = false) (hc : p c = true) :
    cutAt p (a ++ c :: b) = some (a, b) := by
  induction a with
  | nil => simp [cutAt, hc]
  | cons d a ih =>
    simp [cutAt, h d List.mem_cons_self, ih fun x hx => h x (List.mem_cons_of_mem _ hx)]

theorem eq_of_cutAt (h : cutAt p s = some (a, b)) :
    ∃ c, s = a ++ c :: b ∧ p c = true ∧ ∀ x ∈ a, p x = false := by
  induction s generalizing a with
  | nil => cases h
  | cons d s ih =>
    by_cases hd : p d
    · obtain ⟨rfl, rfl⟩ : a = [] ∧ b = s := by simpa [cutAt, hd, eq_comm] using h
      exact ⟨d, rfl, hd, by simp⟩
    · obtain ⟨u, hu, rfl⟩ : ∃ u, cutAt p s = some (u, b) ∧ d :: u = a := by
        simpa [cutAt, hd] using h
      obtain ⟨c, rfl, hc, hpu⟩ := ih hu
      exact ⟨c, rfl, hc, by simpa [hd] using hpu⟩

theorem forall_of_cutAt (h : cutAt p s = none) : ∀ c ∈ s, p c = false := by
  induction s with
  | nil => simp
  | cons d s ih =>
    by_cases hd : p d
    · simp [cutAt, hd] at h
    · simpa [hd] using ih (by simpa [cutAt, hd] using h)

theorem after?_append (o s : List Char) : after? o (o ++ s) = some s := by
  simp [after?]

theorem eq_of_after? {o : List Char} (h : after? o s = some b) : s = o ++ b := by
  unfold after? at h
  split at h
  · obtain ⟨t, rfl⟩ := List.isPrefixOf_iff_prefix.mp ‹_›
    simpa using h
  · cases h

theorem before?_append (c : Char) (s : List Char) : before? c (s ++ [c]) = some s := by
  simp [before?]

end

/-! ## Blanks at the ends -/

/-- The text neither starts nor ends with a blank. -/
def Tight (s : List Char) : Prop :=
  (∀ c ∈ s.head?, isBlank c = false) ∧ ∀ c ∈ s.getLast?, isBlank c = false

/-- There is no blank in the text. -/
def Solid (s : List Char) : Prop := ∀ c ∈ s, isBlank c = false

instance (s : List Char) : Decidable (Solid s) :=
  decidable_of_iff (s.all fun c => !isBlank c) (by simp [Solid])

theorem Solid.tight {s : List Char} (h : Solid s) : Tight s :=
  ⟨fun c hc => h c (List.mem_of_mem_head? hc), fun c hc => h c (List.mem_of_mem_getLast? hc)⟩

theorem dropEndWhile_append {p : Char → Bool} {a : List Char} (b : List Char)
    (ha : ∀ c ∈ a.getLast?, p c = false) :
    dropEndWhile p (a ++ b) = a ++ dropEndWhile p b := by
  induction b using List.reverseRecOn with
  | nil =>
    have hself : dropEndWhile p a = a := List.rdropWhile_eq_self_iff.mpr fun hne => by
      simpa using ha _ (List.getLast?_eq_some_getLast hne)
    rw [List.append_nil, hself]
    exact (List.append_nil a).symm
  | append_singleton b c ih =>
    have hcat (l : List Char) : dropEndWhile p (l ++ [c]) =
        if p c then dropEndWhile p l else l ++ [c] := List.rdropWhile_concat p l c
    rw [← List.append_assoc, hcat, hcat]
    split
    · exact ih
    · simp

theorem trim_cons_of_blank {c : Char} (h : isBlank c = true) (s : List Char) :
    trim (c :: s) = trim s := by
  simp [trim, h]

theorem dropWhile_eq_self {p : Char → Bool} {s : List Char} (h : ∀ c ∈ s.head?, p c = false) :
    s.dropWhile p = s := by
  cases s with
  | nil => rfl
  | cons c s => simp [h c rfl]

theorem dropEndWhile_eq_self {p : Char → Bool} {s : List Char} (h : ∀ c ∈ s.getLast?, p c = false) :
    dropEndWhile p s = s := by
  have hend := dropEndWhile_append [] h
  rw [List.append_nil] at hend
  exact hend.trans (List.append_nil s)

theorem Tight.trim_eq {s : List Char} (h : Tight s) : trim s = s := by
  rw [trim, dropWhile_eq_self h.1, dropEndWhile_eq_self h.2]

theorem tight_trim (s : List Char) : Tight (trim s) := by
  refine ⟨fun c hc => ?_, fun c hc => ?_⟩
  · obtain ⟨t, ht⟩ : trim s <+: s.dropWhile isBlank := List.rdropWhile_prefix isBlank _
    have hhead : c ∈ (s.dropWhile isBlank).head? := by
      cases hs : trim s with
      | nil => rw [hs] at hc; cases hc
      | cons d u => rw [hs] at hc; cases hc; simp [← ht, hs]
    have := List.head?_dropWhile_not isBlank s
    rw [hhead] at this
    simpa using this
  · have hne : trim s ≠ [] := fun e => by rw [e] at hc; cases hc
    obtain rfl : (trim s).getLast hne = c := by
      simpa [List.getLast?_eq_some_getLast hne] using hc
    have hlast := List.rdropWhile_last_not isBlank (s.dropWhile isBlank) hne
    exact Bool.eq_false_iff.mpr hlast

theorem mem_of_mem_trim {s : List Char} {c : Char} (h : c ∈ trim s) : c ∈ s :=
  (List.dropWhile_sublist isBlank).subset ((List.rdropWhile_prefix isBlank _).subset h)

/-- Blanks at the end of what follows a word do not matter. -/
theorem trim_append {a : List Char} (ha : Solid a) (hne : a ≠ []) (b : List Char) :
    trim (a ++ b) = a ++ dropEndWhile isBlank b := by
  rw [trim, dropWhile_eq_self, dropEndWhile_append b ha.tight.2]
  intro c hc
  rw [List.head?_append_of_ne_nil _ hne] at hc
  exact ha.tight.1 c hc

theorem trim_dropEndWhile (s : List Char) : trim (dropEndWhile isBlank s) = trim s := by
  induction s with
  | nil => rfl
  | cons c s ih =>
    by_cases hc : isBlank c
    · rw [trim_cons_of_blank hc, ← ih]
      have hcons : dropEndWhile isBlank (c :: s) =
          if dropEndWhile isBlank s = [] then [] else c :: dropEndWhile isBlank s := by
        simp only [dropEndWhile, List.reverse_cons, List.dropWhile_append]
        split <;> simp_all
      rw [hcons]
      split
      · simp [*]
      · exact trim_cons_of_blank hc _
    · have hne : isBlank c = false := by simpa using hc
      have := dropEndWhile_append (p := isBlank) (a := [c]) s (by simpa using hne)
      rw [List.singleton_append, List.singleton_append] at this
      rw [trim, trim, this, dropWhile_eq_self (by simpa using hne),
        dropWhile_eq_self (by simpa using hne), ← this]
      exact List.rdropWhile_idempotent isBlank (c :: s)

/-! ## Words and lines -/

theorem mem_of_mem_splitOnP {p : Char → Bool} {s w : List Char} {c : Char}
    (hw : w ∈ s.splitOnP p) (hc : c ∈ w) : c ∈ s := by
  induction s generalizing w with
  | nil =>
    rw [List.splitOnP_nil, List.mem_singleton] at hw
    exact hw ▸ hc
  | cons d s ih =>
    rw [List.splitOnP_cons_eq_if_modifyHead] at hw
    split at hw
    · rcases List.mem_cons.mp hw with rfl | hw
      · cases hc
      · exact List.mem_cons_of_mem _ (ih hw hc)
    · obtain ⟨u, us, hu⟩ := List.exists_cons_of_ne_nil (List.splitOnP_ne_nil (p := p) s)
      rw [hu, List.modifyHead_cons, List.mem_cons] at hw
      rcases hw with rfl | hw
      · rcases List.mem_cons.mp hc with rfl | hc
        · exact List.mem_cons_self
        · exact List.mem_cons_of_mem _ (ih (hu ▸ List.mem_cons_self) hc)
      · exact List.mem_cons_of_mem _ (ih (hu ▸ List.mem_cons_of_mem _ hw) hc)

theorem mem_of_mem_words {s w : List Char} {c : Char} (hw : w ∈ words s) (hc : c ∈ w) : c ∈ s :=
  mem_of_mem_splitOnP (List.mem_of_mem_filter hw) hc

theorem words_of_solid {a : List Char} (ha : Solid a) (hne : a ≠ []) : words a = [a] := by
  rw [words, List.splitOnP_eq_singleton ha]
  simp [hne]

theorem words_pair {a b : List Char} (ha : Solid a) (hane : a ≠ []) (hb : Solid b)
    (hbne : b ≠ []) : words (a ++ ' ' :: b) = [a, b] := by
  rw [words, List.splitOnP_append_cons_of_forall_mem ha ' ' (by decide),
    List.splitOnP_eq_singleton hb]
  simp [hane, hbne]

theorem tight_pair {a b : List Char} (ha : Solid a) (hane : a ≠ []) (hb : Solid b)
    (hbne : b ≠ []) : Tight (a ++ ' ' :: b) := by
  refine ⟨fun c hc => ?_, fun c hc => ?_⟩
  · rw [List.head?_append_of_ne_nil _ hane] at hc
    exact ha.tight.1 c hc
  · rw [List.getLast?_append, List.getLast?_cons, List.getLast?_eq_some_getLast hbne] at hc
    cases hc
    exact hb _ (List.getLast_mem _)

theorem lines_single {s : List Char} (hne : s ≠ []) (h : '\n' ∉ s) : lines s = [s] := by
  have hs : s.splitOn '\n' = [s] := List.splitOnP_eq_singleton fun c hc => by
    simpa using fun e : c = '\n' => h (e ▸ hc)
  cases s with
  | nil => exact absurd rfl hne
  | cons c s => simp [lines, hs]

end GmlLift.Text
