import GmlLift.Listing
import GmlLift.Proofs.Text.Cuts
import GmlLift.Source.Literal
import Mathlib.Algebra.Ring.Parity

/-! # String literals denote their string

Listings and source text do not escape the same characters, and the reader of listings takes both.
In source text a literal ends at its first quote that is not escaped: what is written for a string
may hold no such quote, nor end in a backslash that would escape the closing one. -/
namespace GmlLift

open Text Source
open Listing (unescape)

/-! ## Escaped characters -/

namespace Text

/-- What comes after these characters is escaped: an odd number of backslashes stands right before
it. Each pair of them is one backslash, the last one escapes. -/
def Escaped (before : List Char) : Prop := Odd (before.rtakeWhile (· == '\\')).length

instance (before : List Char) : Decidable (Escaped before) := inferInstanceAs (Decidable (Odd _))

theorem escaped_concat (a : List Char) (c : Char) :
    Escaped (a ++ [c]) ↔ c = '\\' ∧ ¬ Escaped a := by
  unfold Escaped
  rw [List.rtakeWhile_concat]
  by_cases h : c = '\\'
  · simp [h, Nat.odd_add_one]
  · simp [h]

/-- Only the characters after one that is not escaped matter. -/
theorem escaped_append_iff {a : List Char} (ha : ¬ Escaped a) (b : List Char) :
    Escaped (a ++ b) ↔ Escaped b := by
  induction b using List.reverseRecOn with
  | nil =>
    have hnil : ¬ Escaped [] := by decide
    simp [ha, hnil]
  | append_singleton b c ih => rw [← List.append_assoc, escaped_concat, escaped_concat, ih]

theorem not_escaped_single {c : Char} (h : c ≠ '\\') : ¬ Escaped [c] := fun he =>
  h ((escaped_concat [] c).mp he).1

theorem not_escaped_pair (c : Char) : ¬ Escaped ['\\', c] := fun he =>
  ((escaped_concat ['\\'] c).mp he).2 (by decide)

/-- The inside of a literal that its closing quote ends, and no quote before, all on one line. -/
structure Enclosed (inside : List Char) : Prop where
  quotes : ∀ a b, inside = a ++ '"' :: b → Escaped a
  closing : ¬ Escaped inside
  oneLine : ∀ c ∈ ['\n', '\r'], c ∉ inside

end Text

namespace Listing

/-! ## Reading -/

/-- What a character after a backslash denotes. -/
def denoted (c : Char) : Char :=
  if c = 'n' then '\n' else if c = 't' then '\t' else if c = 'r' then '\r' else c

theorem unescape_plain {c : Char} (h : c ≠ '\\') (rest : List Char) :
    unescape (c :: rest) = (unescape rest).map (c :: ·) := by
  simp [unescape]

theorem unescape_backslash (c : Char) (rest : List Char) :
    unescape ('\\' :: c :: rest) = (unescape rest).map (denoted c :: ·) := rfl

/-- The reader refuses nothing but a backslash that escapes the closing quote. -/
theorem unescape_eq_none_iff (inside : List Char) : unescape inside = none ↔ Escaped inside := by
  fun_induction unescape inside with
  | case1 => decide
  | case2 => decide
  | case3 c rest d ih =>
    have hrest := escaped_append_iff (not_escaped_pair c) rest
    rw [List.cons_append, List.singleton_append] at hrest
    rw [Option.map_eq_none_iff, ih, hrest]
  | case4 c rest hc ih =>
    have hrest := escaped_append_iff (not_escaped_single hc) rest
    rw [List.singleton_append] at hrest
    rw [Option.map_eq_none_iff, ih, hrest]

theorem stringLiteral_enclosed (inside : List Char) :
    Listing.stringLiteral ('"' :: (inside ++ ['"'])) = unescape inside := by
  have ho : after? ['"'] ('"' :: (inside ++ ['"'])) = some (inside ++ ['"']) :=
    after?_append ['"'] _
  rw [Listing.stringLiteral, ho, Option.bind_some, before?_append, Option.bind_some]

/-! ## Writing -/

/-- What may be written between quotes for one character. -/
inductive Denotes : List Char → Char → Prop
  | plain {c : Char} (h : c ∉ ['\\', '"', '\n', '\r']) : Denotes [c] c
  | escape {c d : Char} (h : d ∉ ['\n', '\r']) (hd : denoted d = c) : Denotes ['\\', d] c

namespace Denotes

variable {t : List Char} {c : Char}

theorem unescape_append (h : Denotes t c) (rest : List Char) :
    unescape (t ++ rest) = (unescape rest).map (c :: ·) := by
  cases h with
  | plain h => exact unescape_plain (List.ne_of_not_mem_cons h) rest
  | escape _ hd => exact hd ▸ unescape_backslash _ rest

theorem not_escaped (h : Denotes t c) : ¬ Escaped t := by
  cases h with
  | plain h => exact not_escaped_single (List.ne_of_not_mem_cons h)
  | escape => exact not_escaped_pair _

/-- A quote is written behind a backslash of its own. -/
theorem escaped_of_quote (h : Denotes t c) {a b : List Char} (ht : t = a ++ '"' :: b) :
    Escaped a := by
  cases h with
  | plain h =>
    have hquote : '"' ∈ [c] := by simp [ht]
    obtain rfl := List.mem_singleton.mp hquote
    exact absurd (by decide) h
  | escape =>
    cases a with
    | nil => cases ht
    | cons x a =>
      obtain ⟨rfl, ht⟩ := List.cons.inj ht
      cases a with
      | nil => decide
      | cons y a =>
        obtain ⟨-, ht⟩ := List.cons.inj ht
        cases a <;> cases ht

theorem oneLine (h : Denotes t c) {x : Char} (hx : x ∈ ['\n', '\r']) : x ∉ t := by
  intro hmem
  cases h with
  | plain h =>
    obtain rfl := List.mem_singleton.mp hmem
    exact h (List.mem_cons_of_mem _ (List.mem_cons_of_mem _ hx))
  | escape h _ =>
    rcases List.mem_pair.mp hmem with rfl | rfl
    · exact absurd hx (by decide)
    · exact h hx

end Denotes

section

variable {f : Char → List Char} {s : List Char}

/-- Whatever is written for each character, the reader gives the characters back. -/
theorem unescape_flatMap (h : ∀ c ∈ s, Denotes (f c) c) : unescape (s.flatMap f) = some s := by
  induction s with
  | nil => rfl
  | cons c s ih =>
    have hrest := ih fun d hd => h d (List.mem_cons_of_mem _ hd)
    rw [List.flatMap_cons, (h c List.mem_cons_self).unescape_append, hrest, Option.map_some]

theorem escaped_of_quote (h : ∀ c ∈ s, Denotes (f c) c) {a b : List Char}
    (hs : s.flatMap f = a ++ '"' :: b) : Escaped a := by
  induction s generalizing a with
  | nil => cases a <;> cases hs
  | cons c s ih =>
    have hc := h c List.mem_cons_self
    have hrest {a' : List Char} (hs : s.flatMap f = a' ++ '"' :: b) : Escaped a' :=
      ih (fun d hd => h d (List.mem_cons_of_mem _ hd)) hs
    rw [List.flatMap_cons] at hs
    -- the quote lies behind what is written for the first character, or in it
    rcases List.append_eq_append_iff.mp hs with ⟨l, rfl, hl⟩ | ⟨l, hfirst, hl⟩
    · exact (escaped_append_iff hc.not_escaped l).mpr (hrest hl)
    · cases l with
      | nil =>
        have hempty : Escaped [] := hrest hl.symm
        exact absurd hempty (by decide)
      | cons q l =>
        obtain ⟨rfl, -⟩ := List.cons.inj hl
        exact hc.escaped_of_quote hfirst

theorem enclosed_flatMap (h : ∀ c ∈ s, Denotes (f c) c) : Enclosed (s.flatMap f) where
  quotes _ _ hs := escaped_of_quote h hs
  closing hclosing := by
    have hnone := (unescape_eq_none_iff _).mpr hclosing
    rw [unescape_flatMap h] at hnone
    cases hnone
  oneLine x hx hmem := by
    obtain ⟨c, hc, hxc⟩ := List.mem_flatMap.mp hmem
    exact (h c hc).oneLine hx hxc

end

end Listing

/-! ## Source text -/

namespace Source

open Listing (Denotes)

theorem denotes_escapeChar (c : Char) : Denotes (escapeChar c) c := by
  unfold escapeChar
  split_ifs with hb hq hn hr ht
  · exact .escape (by decide) hb.symm
  · exact .escape (by decide) hq.symm
  · exact .escape (by decide) hn.symm
  · exact .escape (by decide) hr.symm
  · exact .escape (by decide) ht.symm
  · exact .plain (by simp [hb, hq, hn, hr])

theorem toList_escape (s : String) : (escape s).toList = s.toList.flatMap escapeChar :=
  String.toList_ofList

theorem toList_stringLiteral (s : String) :
    (stringLiteral s).toList = '"' :: ((escape s).toList ++ ['"']) := by
  simp [stringLiteral]

theorem unescape_escape (s : String) : unescape (escape s).toList = some s.toList := by
  rw [toList_escape]
  exact Listing.unescape_flatMap fun c _ => denotes_escapeChar c

theorem enclosed_escape (s : String) : Enclosed (escape s).toList := by
  rw [toList_escape]
  exact Listing.enclosed_flatMap fun c _ => denotes_escapeChar c

theorem read_stringLiteral (s : String) :
    Listing.stringLiteral (stringLiteral s).toList = some s.toList := by
  rw [toList_stringLiteral, Listing.stringLiteral_enclosed, unescape_escape]

theorem escape_injective : Function.Injective escape := by
  intro s t h
  have hread := unescape_escape s
  rw [h, unescape_escape t] at hread
  exact String.toList_inj.mp (Option.some.inj hread).symm

/-- What is written for a string is read as that string again, so that different strings have
different literals, and nothing inside a literal ends it or breaks its line. -/
theorem stringLiteral_denotes :
    (∀ s, Listing.stringLiteral (stringLiteral s).toList = some s.toList) ∧
      Function.Injective escape ∧ ∀ s, Enclosed (escape s).toList :=
  ⟨read_stringLiteral, escape_injective, enclosed_escape⟩

/-- Three backslashes before the quote: two are the one of the string, the third escapes. -/
example : (escape "a\\\"").toList = ['a', '\\', '\\', '\\', '"'] := by decide

end Source

end GmlLift
