import GmlLift.Proofs.Flow.ControlFlow

/-! # Which code can be cut into blocks

Every split point has to be a boundary between instructions. The cut makes a block start at each
point that is one, so an entry has a block graph if and only if all of its points are. -/
namespace GmlLift

open GmlLift.Graph

/-- Where an instruction starts, or the end of the code. -/
def CodeEntry.Boundary (code : CodeEntry) (address : Nat) : Prop :=
  address = code.length ∨ ∃ i ∈ code.instrs, i.address = address

namespace Contiguous

variable {start : Nat} {is : List Instr}

theorem start_boundary (h : Contiguous start is) :
    start = endFrom start is ∨ ∃ i ∈ is, i.address = start := by
  cases is with
  | nil => exact .inl rfl
  | cons i is => exact .inr ⟨i, by simp, h.1⟩

/-- What follows an instruction is the next instruction or the end. -/
theorem end_boundary (h : Contiguous start is) {i : Instr} (hi : i ∈ is) :
    i.endAddress = endFrom start is ∨ ∃ j ∈ is, j.address = i.endAddress := by
  induction is generalizing start with
  | nil => cases hi
  | cons k is ih =>
    rcases List.mem_cons.mp hi with rfl | hi
    · rcases start_boundary h.2 with he | ⟨j, hj, he⟩
      · exact .inl he
      · exact .inr ⟨j, List.mem_cons_of_mem _ hj, he⟩
    · rcases ih h.2 hi with he | ⟨j, hj, he⟩
      · exact .inl he
      · exact .inr ⟨j, List.mem_cons_of_mem _ hj, he⟩

end Contiguous

namespace CodeEntry

variable {code : CodeEntry}

theorem boundary_zero (hc : Contiguous 0 code.instrs) (h : endOf code.instrs = code.length) :
    code.Boundary 0 := by
  rcases hc.start_boundary with he | hi
  · exact .inl (by rw [he, ← h, endOf_eq_endFrom_zero])
  · exact .inr hi

theorem boundary_endAddress (hc : Contiguous 0 code.instrs)
    (h : endOf code.instrs = code.length) {i : Instr} (hi : i ∈ code.instrs) :
    code.Boundary i.endAddress := by
  rcases hc.end_boundary hi with he | hj
  · exact .inl (by rw [he, ← h, endOf_eq_endFrom_zero])
  · exact .inr hj

end CodeEntry

namespace Blocks

/-- An instruction at a split point is the first of its group. -/
theorem cut_head {points : List Nat} {is : List Instr} {i : Instr} (hi : i ∈ is)
    (hp : i.address ∈ points) : ∃ group ∈ cut points is, group.head? = some i := by
  induction is with
  | nil => cases hi
  | cons k is ih =>
    simp only [cut]
    rcases List.mem_cons.mp hi with rfl | hi
    · -- whatever follows it, the first instruction opens a group
      cases cut points is with
      | nil => exact ⟨[i], by simp, rfl⟩
      | cons first rest =>
        cases first with
        | nil => exact ⟨[i], by simp, rfl⟩
        | cons j first =>
          dsimp only
          split
          · exact ⟨[i], by simp, rfl⟩
          · exact ⟨i :: j :: first, by simp, rfl⟩
    · obtain ⟨group, hg, hhead⟩ := ih hi
      cases hcut : cut points is with
      | nil =>
        rw [hcut] at hg
        cases hg
      | cons first rest =>
        rw [hcut] at hg
        cases first with
        | nil =>
          rcases List.mem_cons.mp hg with rfl | hg
          · cases hhead
          · exact ⟨group, by simp [hg], hhead⟩
        | cons j first =>
          dsimp only
          split
          · exact ⟨group, List.mem_cons_of_mem _ hg, hhead⟩
          · rename_i hj
            rcases List.mem_cons.mp hg with rfl | hg
            · cases hhead
              exact absurd (List.contains_iff_mem.mpr hp) hj
            · exact ⟨group, List.mem_cons_of_mem _ hg, hhead⟩

/-- Blocks start where their groups do, and one more at the end. -/
theorem nodesFrom_starts {stop start : Nat} {groups : List (List Instr)} (hne : groups ≠ [])
    (hg : ∀ group ∈ groups, group ≠ []) (hc : Contiguous start groups.flatten) (address : Nat) :
    (∃ n ∈ nodesFrom stop start groups, n.start = address) ↔
      address = stop ∨ ∃ group ∈ groups, ∃ i, group.head? = some i ∧ i.address = address := by
  induction groups generalizing start with
  | nil => exact absurd rfl hne
  | cons group groups ih =>
    obtain ⟨i, group, rfl⟩ := List.exists_cons_of_ne_nil (hg group (by simp))
    have hi : i.address = start := hc.1
    cases groups with
    | nil => simp [nodesFrom, Node.ofKind, hi, or_comm, eq_comm]
    | cons next groups =>
      obtain ⟨j, next, rfl⟩ := List.exists_cons_of_ne_nil (hg next (by simp))
      have hrest : Contiguous j.address ((j :: next) :: groups).flatten := by
        rw [List.flatten_cons] at hc
        obtain ⟨-, hc⟩ := Contiguous.append.mp hc
        exact ⟨rfl, hc.2⟩
      have ih := ih (by simp) (fun g hm => hg g (List.mem_cons_of_mem _ hm)) hrest
      have hnodes : nodesFrom stop start ((i :: group) :: (j :: next) :: groups) =
          .ofKind (.block (i :: group)) start j.address 0 ::
            nodesFrom stop j.address ((j :: next) :: groups) := rfl
      simp only [hnodes, List.mem_cons, exists_eq_or_imp] at ih ⊢
      simp only [ih, Node.ofKind, List.head?_cons, Option.some.injEq, exists_eq_left', hi]
      exact or_left_comm

theorem nodesOf_starts {points : List Nat} {code : CodeEntry} (hc : Contiguous 0 code.instrs)
    {address : Nat} (hp : address ∈ points) :
    (∃ n ∈ nodesOf points code, n.start = address) ↔ code.Boundary address := by
  have hflat := cut_flatten points code.instrs
  unfold nodesOf CodeEntry.Boundary
  split
  · rename_i hcut
    rw [hcut, List.flatten_nil] at hflat
    simp [← hflat, Node.ofKind, eq_comm]
  · rename_i hne
    rw [nodesFrom_starts hne (cut_ne_nil points code.instrs) (hflat.symm ▸ hc)]
    refine or_congr_right ⟨?_, ?_⟩
    · rintro ⟨group, hgroup, i, hi, he⟩
      refine ⟨i, ?_, he⟩
      rw [← hflat]
      exact List.mem_flatten.mpr ⟨group, hgroup, List.mem_of_head? hi⟩
    · rintro ⟨i, hi, rfl⟩
      obtain ⟨group, hgroup, hhead⟩ := cut_head hi hp
      exact ⟨group, hgroup, i, hhead, rfl⟩

end Blocks

open Blocks

theorem afterPop_mem {rest : List Instr} {p : Nat} (hp : p ∈ afterPop rest) :
    ∃ i ∈ rest, p = i.endAddress := by
  cases rest with
  | nil => cases hp
  | cons i rest =>
    simp only [afterPop] at hp
    split at hp
    · exact ⟨i, by simp, List.mem_singleton.mp hp⟩
    · cases hp

/-- Without exception hooks the split points of code are the ends of instructions and the targets of
jumps. -/
theorem splitsFrom_of_no_hook {is before : List Instr}
    (hhook : ∀ i ∈ is, i.isCallTo Hook.try_ = false) :
    ∃ points, splitsFrom before is = .ok points ∧ ∀ p ∈ points,
      (∃ i ∈ is, p = i.endAddress) ∨ ∃ i ∈ is, i.opcode.hasOffset = true ∧ i.target? = some p := by
  induction is generalizing before with
  | nil => exact ⟨[], rfl, by simp⟩
  | cons i is ih =>
    obtain ⟨later, hlater, hall⟩ := @ih (i :: before) fun j hj => hhook j (by simp [hj])
    have here : ∃ points, splitsAt before i is = .ok points ∧ ∀ p ∈ points,
        (∃ j ∈ i :: is, p = j.endAddress) ∨ i.opcode.hasOffset = true ∧ i.target? = some p := by
      unfold splitsAt
      cases hop : i.opcode with
      | b | bt | bf | pushEnv | popEnv =>
        refine ⟨_, rfl, fun p hp => ?_⟩
        rcases List.mem_append.mp hp with hp | hp
        · exact .inr ⟨rfl, by simpa using hp⟩
        · exact .inl ⟨i, by simp, List.mem_singleton.mp hp⟩
      | ret | exit => exact ⟨_, rfl, fun p hp => .inl ⟨i, by simp, List.mem_singleton.mp hp⟩⟩
      | call =>
        rw [hhook i (by simp)]
        dsimp only
        split
        · cases ‹false = true›
        · split
          · refine ⟨_, rfl, fun p hp => .inl ?_⟩
            obtain ⟨j, hj, he⟩ := afterPop_mem hp
            exact ⟨j, by simp [hj], he⟩
          · exact ⟨[], rfl, by simp⟩
      | _ => exact ⟨[], rfl, by simp⟩
    obtain ⟨now, hnow, hfirst⟩ := here
    refine ⟨now ++ later, ?_, fun p hp => ?_⟩
    · rw [splitsFrom, hnow, hlater]
      rfl
    · rcases List.mem_append.mp hp with hp | hp
      · rcases hfirst p hp with h | ⟨hop, ht⟩
        · exact .inl h
        · exact .inr ⟨i, by simp, hop, ht⟩
      · rcases hall p hp with ⟨j, hj, he⟩ | ⟨j, hj, hop, ht⟩
        · exact .inl ⟨j, by simp [hj], he⟩
        · exact .inr ⟨j, by simp [hj], hop, ht⟩

/-- An entry has a block graph if and only if its length is where its code ends and all of its split
points are boundaries. -/
theorem exists_findBlocks_iff {code : CodeEntry} (hc : Contiguous 0 code.instrs) :
    (∃ g, findBlocks code = .ok g) ↔ CodeEntry.endOf code.instrs = code.length ∧
      ∃ points, splitPoints code = .ok points ∧ ∀ p ∈ points, code.Boundary p := by
  -- no point is left over exactly if a block starts at each
  have hnone : ∀ points : List Nat, (points.filter fun p =>
      !((nodesOf points code).map Node.start).contains p).min? = none ↔
        ∀ p ∈ points, code.Boundary p := by
    intro points
    rw [List.min?_eq_none_iff, List.filter_eq_nil_iff]
    refine forall₂_congr fun p hp => ?_
    rw [← nodesOf_starts hc hp]
    simp
  constructor
  · rintro ⟨g, h⟩
    unfold findBlocks at h
    dsimp only at h
    split at h
    · cases h
    · rename_i hlength
      obtain ⟨points, hpoints, h⟩ := ok_of_bind h
      split at h
      · cases h
      · rename_i hmin
        exact ⟨Classical.not_not.mp hlength, points, hpoints, (hnone points).mp hmin⟩
  · rintro ⟨hlength, points, hpoints, hall⟩
    have hmin := (hnone points).mpr hall
    cases hfind : findBlocks code with
    | ok g => exact ⟨g, rfl⟩
    | error e =>
      unfold findBlocks at hfind
      dsimp only at hfind
      rw [if_neg (not_not_intro hlength), hpoints, ok_bind] at hfind
      rw [hmin] at hfind
      cases hfind

/-- Code without exception hooks can be cut if its embedded entries and its jumps stay on
boundaries. -/
theorem exists_findBlocks_of_no_hook {code : CodeEntry} (hc : Contiguous 0 code.instrs)
    (hlength : CodeEntry.endOf code.instrs = code.length)
    (hhook : ∀ i ∈ code.instrs, i.isCallTo Hook.try_ = false)
    (hentries : ∀ c ∈ code.descendants, code.Boundary c.start)
    (hjumps : ∀ i ∈ code.instrs, i.opcode.hasOffset = true → ∀ t, i.target? = some t →
      code.Boundary t) : ∃ g, findBlocks code = .ok g := by
  obtain ⟨asked, hasked, hall⟩ := @splitsFrom_of_no_hook code.instrs [] hhook
  refine (exists_findBlocks_iff hc).mpr ⟨hlength, _, by rw [splitPoints, hasked]; rfl, ?_⟩
  intro p hp
  rcases List.mem_append.mp hp with hp | hp
  · rcases List.mem_cons.mp hp with rfl | hp
    · exact CodeEntry.boundary_zero hc hlength
    · rcases List.mem_cons.mp hp with rfl | hp
      · exact .inl rfl
      · obtain ⟨c, hm, rfl⟩ := List.mem_map.mp hp
        exact hentries c hm
  · rcases hall p hp with ⟨i, hi, rfl⟩ | ⟨i, hi, hop, ht⟩
    · exact CodeEntry.boundary_endAddress hc hlength hi
    · exact hjumps i hi hop p ht

end GmlLift
