import Mathlib.Data.List.Nodup
import GmlLift.Flow.Graph

/-! # Spans opened and closed in one pass

Embedded functions are opened and closed while the blocks are gone through in address order. Only
the innermost open one is ever compared with an address, and its end was read off a jump, so nothing
orders the ends of those below it. That spans nest all the same follows from what a stack is: a span
can only be closed when everything opened after it has been. -/
namespace GmlLift

/-- A node by the addresses it covers. -/
structure Span where
  node : NodeId
  start : Nat
  stop : Nat

namespace Span

variable {kids opened : List Span} {lo hi now : Nat} {f : Span}

/-- The spans opened so far, in order, and those of them still open, the innermost first. All of
them start below `lo`, and those that have been closed end below `hi`. -/
structure Nesting (kids opened : List Span) (lo hi : Nat) : Prop where
  mem : ∀ k ∈ opened, k ∈ kids
  inner : opened.Pairwise fun a b => b.start < a.start
  order : kids.Pairwise fun a b => a.start < b.start
  reached : ∀ k ∈ kids, k.start < lo
  closed : ∀ k ∈ kids, k ∉ opened → k.start < k.stop ∧ k.stop < hi
  nested : ∀ a ∈ kids, a ∉ opened → ∀ b ∈ kids, a.start < b.start →
    a.stop ≤ b.start ∨ b ∉ opened ∧ b.stop ≤ a.stop

/-- What has been closed was closed before the span just opened. -/
theorem closed_of_concat {k : Span} (hk : k ∈ kids ++ [f]) (hno : k ∉ f :: opened) :
    k ∈ kids ∧ k ∉ opened := by
  have hkf : k ≠ f := fun he => hno (by simp [he])
  exact ⟨by simpa [hkf] using hk, fun hm => hno (by simp [hm])⟩

namespace Nesting

theorem none : Nesting [] [] lo hi := by
  refine ⟨?_, .nil, .nil, ?_, ?_, ?_⟩ <;> intro k hk <;> cases hk

theorem mono (h : Nesting kids opened lo hi) {lo' hi' : Nat} (hlo : lo ≤ lo') (hhi : hi ≤ hi') :
    Nesting kids opened lo' hi' where
  mem := h.mem
  inner := h.inner
  order := h.order
  reached k hk := Nat.lt_of_lt_of_le (h.reached k hk) hlo
  closed k hk hno := by
    obtain ⟨hlt, hstop⟩ := h.closed k hk hno
    exact ⟨hlt, Nat.lt_of_lt_of_le hstop hhi⟩
  nested := h.nested

/-- Nothing starts yet at an address just reached. -/
theorem start_ne (h : Nesting kids opened now now) : ∀ k ∈ kids, k.start ≠ now :=
  fun k hk => Nat.ne_of_lt (h.reached k hk)

/-- Nothing has been closed yet at an address just reached. -/
theorem stop_ne (h : Nesting kids opened now now) : ∀ k ∈ kids, k ∉ opened → k.stop ≠ now :=
  fun k hk hno => Nat.ne_of_lt (h.closed k hk hno).2

theorem ne_of_start (h : Nesting kids opened now now) (hstart : f.start = now) :
    ∀ k ∈ kids, k ≠ f := by
  intro k hk he
  exact h.start_ne k hk (he ▸ hstart)

/-- A span is known by where it starts. -/
theorem eq_of_start (h : Nesting kids opened lo hi) {a b : Span} (ha : a ∈ kids) (hb : b ∈ kids)
    (he : a.start = b.start) : a = b := by
  have hnodup : (kids.map Span.start).Nodup :=
    (List.pairwise_map.mpr h.order).imp fun hlt => Nat.ne_of_lt hlt
  exact List.inj_on_of_nodup_map hnodup ha hb he

/-- The innermost span is closed where it ends. -/
theorem close (h : Nesting kids (f :: opened) now now) (hstop : f.stop = now) :
    Nesting kids opened now (now + 1) := by
  obtain ⟨hinner, hrest⟩ := List.pairwise_cons.mp h.inner
  have hf : f ∈ kids := h.mem f (by simp)
  have hstart := h.reached f hf
  refine ⟨fun k hk => h.mem k (by simp [hk]), hrest, h.order, h.reached, ?_, ?_⟩
  · intro k hk hno
    by_cases he : k = f
    · subst he
      omega
    · obtain ⟨hlt, hend⟩ := h.closed k hk (by simp [he, hno])
      omega
  · intro a ha hno b hb hlt
    by_cases he : a = f
    · -- what starts after the innermost open span is not open
      subst he
      have hnb : b ∉ a :: opened := by
        intro hm
        rcases List.mem_cons.mp hm with rfl | hm
        · omega
        · have := hinner b hm
          omega
      obtain ⟨-, hend⟩ := h.closed b hb hnb
      exact .inr ⟨fun hm => hnb (by simp [hm]), by omega⟩
    · rcases h.nested a ha (by simp [he, hno]) b hb hlt with hbefore | ⟨hnb, hin⟩
      · exact .inl hbefore
      · exact .inr ⟨fun hm => hnb (by simp [hm]), hin⟩

/-- A span is opened where it starts. -/
theorem opening (h : Nesting kids opened now now) (hstart : f.start = now) :
    Nesting (kids ++ [f]) (f :: opened) (now + 1) (now + 1) := by
  refine ⟨?_, ?_, ?_, ?_, ?_, ?_⟩
  · intro k hk
    rcases List.mem_cons.mp hk with rfl | hk
    · simp
    · simp [h.mem k hk]
  · refine List.pairwise_cons.mpr ⟨fun k hk => ?_, h.inner⟩
    have := h.reached k (h.mem k hk)
    omega
  · refine List.pairwise_append.mpr ⟨h.order, by simp, fun a ha b hb => ?_⟩
    rw [List.mem_singleton.mp hb, hstart]
    exact h.reached a ha
  · intro k hk
    rcases List.mem_append.mp hk with hk | hk
    · have := h.reached k hk
      omega
    · rw [List.mem_singleton.mp hk]
      omega
  · intro k hk hno
    obtain ⟨hk, hno⟩ := closed_of_concat hk hno
    obtain ⟨hlt, hend⟩ := h.closed k hk hno
    omega
  · intro a ha hno b hb hlt
    obtain ⟨ha, hno⟩ := closed_of_concat ha hno
    rcases List.mem_append.mp hb with hb | hb
    · rcases h.nested a ha hno b hb hlt with hbefore | ⟨hnb, hin⟩
      · exact .inl hbefore
      · exact .inr ⟨by simp [h.ne_of_start hstart b hb, hnb], hin⟩
    · -- a span closed before ends by now
      have hend := (h.closed a ha hno).2
      rw [List.mem_singleton.mp hb]
      exact .inl (by omega)

end Nesting

/-! ## What lies in which span -/

/-- The innermost span around an address, if any: what else starts by then starts before it or has
been closed. -/
inductive Innermost (kids opened : List Span) (address : Nat) : Option Span → Prop
  | outside (h : ∀ k ∈ kids, k.start ≤ address → k ∉ opened ∧ k.stop ≤ address) :
    Innermost kids opened address .none
  | inside (f : Span) (hf : f ∈ kids) (hstart : f.start ≤ address)
    (hstop : f ∈ opened ∨ address < f.stop)
    (h : ∀ k ∈ kids, k.start ≤ address → k.start ≤ f.start ∨ k ∉ opened ∧ k.stop ≤ address) :
    Innermost kids opened address (some f)

namespace Innermost

variable {address : Nat} {o : Option Span}

/-- Around an address just reached it is the top of the stack. -/
theorem top (h : Nesting kids opened (now + 1) (now + 1)) :
    Innermost kids opened now opened.head? := by
  cases opened with
  | nil =>
    refine .outside fun k hk _ => ⟨by simp, ?_⟩
    have := (h.closed k hk (by simp)).2
    omega
  | cons f opened =>
    have hf := h.mem f (by simp)
    have hstart := h.reached f hf
    refine .inside f hf (by omega) (.inl (by simp)) fun k hk _ => ?_
    by_cases hm : k ∈ f :: opened
    · rcases List.mem_cons.mp hm with rfl | hm
      · exact .inl (Nat.le_refl _)
      · exact .inl (Nat.le_of_lt ((List.pairwise_cons.mp h.inner).1 k hm))
    · have := (h.closed k hk hm).2
      exact .inr ⟨hm, by omega⟩

theorem close (h : Innermost kids (f :: opened) address o) (hlt : address < f.stop) :
    Innermost kids opened address o := by
  cases h with
  | outside h =>
    refine .outside fun k hk hle => ?_
    obtain ⟨hno, hstop⟩ := h k hk hle
    exact ⟨fun hm => hno (by simp [hm]), hstop⟩
  | inside k hk hstart hstop h =>
    refine .inside k hk hstart ?_ fun l hl hle => ?_
    · rcases hstop with hm | hstop
      · rcases List.mem_cons.mp hm with rfl | hm
        · exact .inr hlt
        · exact .inl hm
      · exact .inr hstop
    · rcases h l hl hle with hbefore | ⟨hno, hend⟩
      · exact .inl hbefore
      · exact .inr ⟨fun hm => hno (by simp [hm]), hend⟩

theorem opening (h : Innermost kids opened address o) (hlt : address < f.start) :
    Innermost (kids ++ [f]) (f :: opened) address o := by
  have old : ∀ k ∈ kids ++ [f], k.start ≤ address → k ∈ kids ∧ k ≠ f := by
    intro k hk hle
    have hne : k ≠ f := fun he => by subst he; omega
    exact ⟨by simpa [hne] using hk, hne⟩
  cases h with
  | outside h =>
    refine .outside fun k hk hle => ?_
    obtain ⟨hk, hne⟩ := old k hk hle
    obtain ⟨hno, hstop⟩ := h k hk hle
    exact ⟨by simp [hne, hno], hstop⟩
  | inside l hl hstart hstop h =>
    refine .inside l (by simp [hl]) hstart (hstop.imp_left fun hm => by simp [hm])
      fun k hk hle => ?_
    obtain ⟨hk, hne⟩ := old k hk hle
    rcases h k hk hle with hbefore | ⟨hno, hend⟩
    · exact .inl hbefore
    · exact .inr ⟨by simp [hne, hno], hend⟩

end Innermost

/-! ## What is cut off before an address -/

/-- The instructions taken off the code before an address: the jump around the span that starts
there, the exit of the span that ends there, or nothing. -/
inductive Cut (kids opened : List Span) (address : Nat) : List Instr → Prop
  | nothing (hstart : ∀ k ∈ kids, k.start ≠ address)
    (hstop : ∀ k ∈ kids, k ∉ opened → k.stop ≠ address) : Cut kids opened address []
  | jump (f : Span) (hf : f ∈ kids) (hstart : f.start = address) (i : Instr) (hi : i.opcode = .b)
    (htarget : i.target? = some f.stop) (hstop : ∀ k ∈ kids, k ∉ opened → k.stop ≠ address) :
    Cut kids opened address [i]
  | exit (f : Span) (hf : f ∈ kids) (hclosed : f ∉ opened) (hstop : f.stop = address) (i : Instr)
    (hi : i.opcode = .exit) (hstart : ∀ k ∈ kids, k.start ≠ address)
    (hone : ∀ k ∈ kids, k ∉ opened → k.stop = address → k = f) : Cut kids opened address [i]

namespace Cut

variable {address : Nat} {gone : List Instr}

theorem close (h : Cut kids (f :: opened) address gone) (hne : f.stop ≠ address) :
    Cut kids opened address gone := by
  have other : ∀ k, k ∉ opened → k.stop = address → k ∉ f :: opened := by
    intro k hno he hm
    rcases List.mem_cons.mp hm with rfl | hm
    · exact hne he
    · exact hno hm
  cases h with
  | nothing hstart hstop =>
    exact .nothing hstart fun k hk hno he => hstop k hk (other k hno he) he
  | jump k hk hstart i hi htarget hstop =>
    exact .jump k hk hstart i hi htarget fun l hl hno he => hstop l hl (other l hno he) he
  | exit k hk hclosed hstop i hi hstart hone =>
    exact .exit k hk (fun hm => hclosed (by simp [hm])) hstop i hi hstart
      fun l hl hno he => hone l hl (other l hno he) he

theorem opening (h : Cut kids opened address gone) (hreached : ∀ k ∈ kids, k ≠ f)
    (hne : f.start ≠ address) : Cut (kids ++ [f]) (f :: opened) address gone := by
  have starts : (∀ k ∈ kids, k.start ≠ address) → ∀ k ∈ kids ++ [f], k.start ≠ address := by
    intro hstart k hk
    rcases List.mem_append.mp hk with hk | hk
    · exact hstart k hk
    · rw [List.mem_singleton.mp hk]
      exact hne
  cases h with
  | nothing hstart hstop =>
    refine .nothing (starts hstart) fun k hk hno => ?_
    obtain ⟨hk, hno⟩ := closed_of_concat hk hno
    exact hstop k hk hno
  | jump k hk hstart i hi htarget hstop =>
    refine .jump k (by simp [hk]) hstart i hi htarget fun l hl hno => ?_
    obtain ⟨hl, hno⟩ := closed_of_concat hl hno
    exact hstop l hl hno
  | exit k hk hclosed hstop i hi hstart hone =>
    refine .exit k (by simp [hk]) (by simp [hreached k hk, hclosed]) hstop i hi (starts hstart)
      fun l hl hno => ?_
    obtain ⟨hl, hno⟩ := closed_of_concat hl hno
    exact hone l hl hno

/-! The cut at an address just reached: nothing, the jump of what is opened there, or the exit of
what is closed. -/

theorem passing (h : Nesting kids opened now now) : Cut kids opened now [] :=
  .nothing h.start_ne h.stop_ne

theorem at_opening (h : Nesting kids opened now now) (hstart : f.start = now) {i : Instr}
    (hi : i.opcode = .b) (htarget : i.target? = some f.stop) :
    Cut (kids ++ [f]) (f :: opened) now [i] := by
  refine .jump f (by simp) hstart i hi htarget fun k hk hno => ?_
  obtain ⟨hk, hno⟩ := closed_of_concat hk hno
  exact h.stop_ne k hk hno

theorem at_close (h : Nesting kids (f :: opened) now now) (hstop : f.stop = now) {i : Instr}
    (hi : i.opcode = .exit) : Cut kids opened now [i] := by
  have hclosed : f ∉ opened := fun hm =>
    Nat.lt_irrefl _ ((List.pairwise_cons.mp h.inner).1 f hm)
  refine .exit f (h.mem f (by simp)) hclosed hstop i hi h.start_ne fun k hk hno he => ?_
  by_contra hkf
  exact h.stop_ne k hk (by simp [hkf, hno]) he

end Cut

end Span

end GmlLift
