import GmlLift.Proofs.Flow.SplitPoints

/-! # Which code is accepted

Code is well formed when its length is where it ends, every address pushed for an exception handler
fits a word and every address where a block has to start is a boundary between instructions.
`exists_findBlocks_iff_boundaries` says that exactly this code has a block graph, but for one gap: a
jump to before the code counts as a jump to its start. Words have 32 bits here, and what is said is
about code in which no jump leads to an address that needs more. -/
namespace GmlLift

open GmlLift.Graph

/-- Pushed two or four instructions before a call that hooks an exception handler, where `before`
holds what precedes the code, the nearest first. -/
def HooksIn (before is : List Instr) (operand : Instr) : Prop :=
  ∃ front call after, is = front ++ call :: after ∧ call.isCallTo Hook.try_ = true ∧
    ((front.reverse ++ before)[1]? = some operand ∨ (front.reverse ++ before)[3]? = some operand)

/-- Whether a number that the instruction carries is small enough for an address. -/
def Instr.FitsWord (i : Instr) : Prop := ∀ value, i.intValue? = some value → value < 0x100000000

/-- Whether the exact address that the instruction jumps to is small enough for a word. -/
def Instr.LeadsInWord (i : Instr) : Prop :=
  ∀ offset, i.offset? = some offset → (i.address : Int) + offset < 0x100000000

/-- Where the instruction jumps, as a word: an address before the code counts as its start, and of
one that is too large the low bits are kept. -/
def Instr.wordTarget? (i : Instr) : Option UInt32 :=
  i.offset?.map fun offset => UInt32.ofNat ((i.address : Int) + offset).toNat

namespace CodeEntry

/-- The addresses where a block has to start, as exact numbers: where jumps lead, where embedded
entries start and where exception handlers are. -/
inductive SplitPoint (code : CodeEntry) : Int → Prop
  | jump {i : Instr} {offset : Int} (hi : i ∈ code.instrs) (hop : i.opcode.hasOffset = true)
      (ho : i.offset? = some offset) : SplitPoint code (i.address + offset)
  | entry {c : CodeEntry} (hc : c ∈ code.descendants) : SplitPoint code c.start
  | handler {i : Instr} {value : Int} (hi : HooksIn [] code.instrs i)
      (hv : i.intValue? = some value) (hnonneg : 0 ≤ value) : SplitPoint code value

/-- What block building asks of code. -/
structure WellFormed (code : CodeEntry) : Prop where
  length : endOf code.instrs = code.length
  hooks : ∀ i, HooksIn [] code.instrs i → i.FitsWord
  splits : ∀ p, code.SplitPoint p → ∃ address, code.Boundary address ∧ p = (address : Int)

/-- What block building checks of code: the same, but with jumps where words have them lead. -/
structure Accepted (code : CodeEntry) : Prop where
  length : endOf code.instrs = code.length
  hooks : ∀ i, HooksIn [] code.instrs i → i.FitsWord
  jumps : ∀ i ∈ code.instrs, i.opcode.hasOffset = true → ∀ t, i.wordTarget? = some t →
    code.Boundary t.toNat
  entries : ∀ c ∈ code.descendants, code.Boundary c.start
  handlers : ∀ i value, HooksIn [] code.instrs i → i.intValue? = some value → 0 ≤ value →
    code.Boundary value.toNat

end CodeEntry

/-! ## Addresses of handlers -/

theorem hooksIn_nil {before : List Instr} {operand : Instr} : ¬ HooksIn before [] operand := by
  rintro ⟨front, call, after, he, -⟩
  cases front <;> cases he

theorem hooksIn_cons {before is : List Instr} {i operand : Instr} :
    HooksIn before (i :: is) operand ↔
      (i.isCallTo Hook.try_ = true ∧ (before[1]? = some operand ∨ before[3]? = some operand)) ∨
        HooksIn (i :: before) is operand := by
  constructor
  · rintro ⟨front, call, after, he, hcall, hback⟩
    cases front with
    | nil =>
      obtain ⟨rfl, rfl⟩ := List.cons.inj he
      exact .inl ⟨hcall, hback⟩
    | cons j front =>
      obtain ⟨rfl, rfl⟩ := List.cons.inj he
      exact .inr ⟨front, call, after, rfl, hcall, by simpa using hback⟩
  · rintro (⟨hcall, hback⟩ | ⟨front, call, after, rfl, hcall, hback⟩)
    · exact ⟨[], i, is, rfl, hcall, hback⟩
    · exact ⟨i :: front, call, after, rfl, hcall, by simpa using hback⟩

theorem Hook.exists_address?_iff {i : Instr} : (∃ a, Hook.address? i = .ok a) ↔ i.FitsWord := by
  unfold Hook.address? Instr.FitsWord
  cases i.intValue? with
  | none => simp
  | some value =>
    dsimp only
    split
    · simpa using (by omega : value < 0x100000000)
    · split <;> simpa using by omega

theorem Hook.mem_address? {i : Instr} {a : Option Nat} (h : Hook.address? i = .ok a) {p : Nat} :
    p ∈ a.toList ↔ i.intValue? = some (p : Int) := by
  unfold Hook.address? at h
  cases hv : i.intValue? with
  | none =>
    rw [hv] at h
    cases h
    simp
  | some value =>
    rw [hv] at h
    dsimp only at h
    split at h
    · cases h
      simp only [Option.toList_none, List.not_mem_nil, Option.some.injEq, false_iff]
      omega
    · split at h
      · cases h
        simp only [Option.toList_some, List.mem_singleton, Option.some.injEq]
        omega
      · cases h

namespace Blocks

variable {before is rest : List Instr} {i : Instr}

theorem exists_pushedAddress_iff (before : List Instr) (back : Nat) :
    (∃ ps, pushedAddress before back = .ok ps) ↔ ∀ j, before[back - 1]? = some j → j.FitsWord := by
  unfold pushedAddress
  cases before[back - 1]? with
  | none => simp
  | some j =>
    simp only [Option.some.injEq, forall_eq', ← Hook.exists_address?_iff]
    cases Hook.address? j <;> simp [Except.map]

theorem mem_pushedAddress {back : Nat} {ps : List Nat} (h : pushedAddress before back = .ok ps)
    {p : Nat} : p ∈ ps ↔ ∃ j, before[back - 1]? = some j ∧ j.intValue? = some (p : Int) := by
  unfold pushedAddress at h
  cases hj : before[back - 1]? with
  | none =>
    rw [hj] at h
    cases h
    simp
  | some j =>
    rw [hj] at h
    obtain ⟨a, ha, rfl⟩ := ok_of_map (f := Option.toList) h
    simp [Hook.mem_address? ha]

/-! ## What is asked for -/

/-- The addresses at which an instruction wants a block to start, besides those after itself. -/
def Asks (before : List Instr) (i : Instr) (p : Nat) : Prop :=
  (i.opcode.hasOffset = true ∧ i.target? = some p) ∨
    i.isCallTo Hook.try_ = true ∧ ∃ j, (before[1]? = some j ∨ before[3]? = some j) ∧
      j.intValue? = some (p : Int)

theorem opcode_of_isCallTo {name : String} (h : i.isCallTo name = true) : i.opcode = .call := by
  simp only [Instr.isCallTo, Bool.and_eq_true, beq_iff_eq] at h
  exact h.1

/-- The split points of a hook call. -/
theorem splitsAt_hook (h : i.isCallTo Hook.try_ = true) : splitsAt before i rest = do
    let finally_ ← pushedAddress before 4
    let catch_ ← pushedAddress before 2
    return afterPop rest ++ finally_ ++ catch_ := by
  simp only [splitsAt, opcode_of_isCallTo h, h, if_true]

/-- Any other instruction asks for the addresses it jumps to and for some after instructions. -/
theorem splitsAt_of_not_hook (before rest : List Instr) (h : i.isCallTo Hook.try_ = false) :
    ∃ ps, splitsAt before i rest = .ok ps ∧
      (∀ p, i.opcode.hasOffset = true → i.target? = some p → p ∈ ps) ∧
      ∀ p ∈ ps, (i.opcode.hasOffset = true ∧ i.target? = some p) ∨
        ∃ j ∈ i :: rest, p = j.endAddress := by
  unfold splitsAt
  cases hop : i.opcode with
  | b | bt | bf | pushEnv | popEnv =>
    refine ⟨_, rfl, fun p _ ht => by simp [ht], fun p hp => ?_⟩
    rcases List.mem_append.mp hp with hp | hp
    · exact .inl ⟨rfl, by simpa using hp⟩
    · exact .inr ⟨i, by simp, List.mem_singleton.mp hp⟩
  | ret | exit =>
    exact ⟨_, rfl, nofun, fun p hp => .inr ⟨i, by simp, List.mem_singleton.mp hp⟩⟩
  | call =>
    simp only [h, Bool.false_eq_true, if_false]
    split
    · refine ⟨_, rfl, nofun, fun p hp => .inr ?_⟩
      obtain ⟨j, hj, he⟩ := afterPop_mem hp
      exact ⟨j, by simp [hj], he⟩
    · exact ⟨[], rfl, nofun, nofun⟩
  | _ => exact ⟨[], rfl, nofun, nofun⟩

theorem exists_splitsAt_iff (rest : List Instr) : (∃ ps, splitsAt before i rest = .ok ps) ↔
    (i.isCallTo Hook.try_ = true →
      ∀ j, before[1]? = some j ∨ before[3]? = some j → j.FitsWord) := by
  cases hcall : i.isCallTo Hook.try_ with
  | false =>
    obtain ⟨ps, hps, -⟩ := splitsAt_of_not_hook before rest hcall
    simp [hps]
  | true =>
    rw [splitsAt_hook hcall]
    constructor
    · rintro ⟨ps, h⟩ - j hj
      obtain ⟨f, hf, h⟩ := ok_of_bind h
      obtain ⟨c, hc, -⟩ := ok_of_bind h
      rcases hj with hj | hj
      · exact (exists_pushedAddress_iff _ 2).mp ⟨c, hc⟩ j hj
      · exact (exists_pushedAddress_iff _ 4).mp ⟨f, hf⟩ j hj
    · intro h
      obtain ⟨f, hf⟩ := (exists_pushedAddress_iff before 4).mpr fun j hj => h rfl j (.inr hj)
      obtain ⟨c, hc⟩ := (exists_pushedAddress_iff before 2).mpr fun j hj => h rfl j (.inl hj)
      exact ⟨afterPop rest ++ f ++ c, by rw [hf, hc]; rfl⟩

theorem asks_splitsAt {ps : List Nat} (h : splitsAt before i rest = .ok ps) (p : Nat) :
    (Asks before i p → p ∈ ps) ∧
      (p ∈ ps → Asks before i p ∨ ∃ j ∈ i :: rest, p = j.endAddress) := by
  cases hcall : i.isCallTo Hook.try_ with
  | false =>
    obtain ⟨ps', hps, htarget, hall⟩ := splitsAt_of_not_hook before rest hcall
    cases h.symm.trans hps
    refine ⟨?_, fun hp => (hall p hp).imp_left .inl⟩
    rintro (⟨hop, ht⟩ | ⟨h, -⟩)
    · exact htarget p hop ht
    · rw [hcall] at h
      cases h
  | true =>
    rw [splitsAt_hook hcall] at h
    obtain ⟨f, hf, h⟩ := ok_of_bind h
    obtain ⟨c, hc, h⟩ := ok_of_bind h
    cases h
    have hop : i.opcode.hasOffset = false := by rw [opcode_of_isCallTo hcall]; rfl
    constructor
    · rintro (⟨h, -⟩ | ⟨-, j, hj | hj, hv⟩)
      · rw [hop] at h
        cases h
      · exact List.mem_append_right _ ((mem_pushedAddress hc).mpr ⟨j, hj, hv⟩)
      · exact List.mem_append_left _ (List.mem_append_right _ ((mem_pushedAddress hf).mpr ⟨j, hj, hv⟩))
    · intro hp
      rcases List.mem_append.mp hp with hp | hp
      · rcases List.mem_append.mp hp with hp | hp
        · obtain ⟨j, hj, he⟩ := afterPop_mem hp
          exact .inr ⟨j, by simp [hj], he⟩
        · obtain ⟨j, hj, hv⟩ := (mem_pushedAddress hf).mp hp
          exact .inl (.inr ⟨hcall, j, .inr hj, hv⟩)
      · obtain ⟨j, hj, hv⟩ := (mem_pushedAddress hc).mp hp
        exact .inl (.inr ⟨hcall, j, .inl hj, hv⟩)

theorem exists_splitsFrom_iff : (∃ ps, splitsFrom before is = .ok ps) ↔
    ∀ j, HooksIn before is j → j.FitsWord := by
  induction is generalizing before with
  | nil => exact ⟨fun _ _ h => absurd h hooksIn_nil, fun _ => ⟨[], rfl⟩⟩
  | cons i is ih =>
    constructor
    · rintro ⟨ps, h⟩ j hj
      obtain ⟨here, hhere, h⟩ := ok_of_bind h
      obtain ⟨later, hlater, -⟩ := ok_of_bind h
      rcases hooksIn_cons.mp hj with ⟨hcall, hj⟩ | hj
      · exact (exists_splitsAt_iff _).mp ⟨here, hhere⟩ hcall j hj
      · exact ih.mp ⟨later, hlater⟩ j hj
    · intro h
      obtain ⟨here, hhere⟩ := (exists_splitsAt_iff is).mpr fun hcall j hj =>
        h j (hooksIn_cons.mpr (.inl ⟨hcall, hj⟩))
      obtain ⟨later, hlater⟩ := ih.mpr fun j hj => h j (hooksIn_cons.mpr (.inr hj))
      exact ⟨here ++ later, by rw [splitsFrom, hhere, hlater]; rfl⟩

/-- The addresses at which code wants a block to start, besides those after its instructions. -/
def Asked (before is : List Instr) (p : Nat) : Prop :=
  (∃ i ∈ is, i.opcode.hasOffset = true ∧ i.target? = some p) ∨
    ∃ j, HooksIn before is j ∧ j.intValue? = some (p : Int)

theorem asked_cons {p : Nat} :
    Asked before (i :: is) p ↔ Asks before i p ∨ Asked (i :: before) is p := by
  simp only [Asked, Asks, hooksIn_cons, List.exists_mem_cons_iff]
  grind

theorem asked_splitsFrom {ps : List Nat} (h : splitsFrom before is = .ok ps) (p : Nat) :
    (Asked before is p → p ∈ ps) ∧
      (p ∈ ps → Asked before is p ∨ ∃ j ∈ is, p = j.endAddress) := by
  induction is generalizing before ps with
  | nil =>
    cases h
    refine ⟨?_, nofun⟩
    rintro (⟨i, hi, -⟩ | ⟨j, hj, -⟩)
    · cases hi
    · exact absurd hj hooksIn_nil
  | cons i is ih =>
    obtain ⟨here, hhere, h⟩ := ok_of_bind h
    obtain ⟨later, hlater, h⟩ := ok_of_bind h
    cases h
    have hnow := asks_splitsAt hhere p
    have hrest := ih hlater
    rw [asked_cons, List.mem_append]
    refine ⟨Or.imp hnow.1 hrest.1, ?_⟩
    rintro (hp | hp)
    · exact (hnow.2 hp).imp_left .inl
    · rcases hrest.2 hp with hp | ⟨j, hj, he⟩
      · exact .inl (.inr hp)
      · exact .inr ⟨j, List.mem_cons_of_mem _ hj, he⟩

end Blocks

open Blocks

/-! ## Acceptance -/

/-- A jump leads to an exact address or, where that is negative, to the start of the code. -/
theorem Instr.target?_eq_some {i : Instr} {p : Nat} :
    i.target? = some p ↔ ∃ offset, i.offset? = some offset ∧ (i.address + offset : Int).toNat = p := by
  simp [Instr.target?]

/-- As a word, an exact target that fits one is the same but for negative ones, which are zero. -/
theorem Instr.toNat_of_wordTarget? {i : Instr} {offset : Int} (h : i.LeadsInWord)
    (ho : i.offset? = some offset) :
    i.wordTarget? = some (UInt32.ofNat ((i.address : Int) + offset).toNat) ∧
      (UInt32.ofNat ((i.address : Int) + offset).toNat).toNat =
        ((i.address : Int) + offset).toNat := by
  refine ⟨by rw [wordTarget?, ho]; rfl, UInt32.toNat_ofNat_of_lt' ?_⟩
  have hlt := h offset ho
  have hsize : UInt32.size = 4294967296 := rfl
  omega

namespace CodeEntry

variable {code : CodeEntry}

/-- What the blocks ask for are the split points, negative ones moved to the start. -/
theorem asked_iff {p : Nat} : (Asked [] code.instrs p ∨ p ∈ code.descendants.map start) ↔
    ∃ q, code.SplitPoint q ∧ q.toNat = p := by
  constructor
  · rintro ((⟨i, hi, hop, ht⟩ | ⟨j, hj, hv⟩) | hp)
    · obtain ⟨offset, ho, he⟩ := Instr.target?_eq_some.mp ht
      exact ⟨_, .jump hi hop ho, he⟩
    · exact ⟨_, .handler hj hv (by omega), by omega⟩
    · obtain ⟨c, hc, rfl⟩ := List.mem_map.mp hp
      exact ⟨_, .entry hc, by omega⟩
  · rintro ⟨q, hq, rfl⟩
    cases hq with
    | jump hi hop ho => exact .inl (.inl ⟨_, hi, hop, Instr.target?_eq_some.mpr ⟨_, ho, rfl⟩⟩)
    | entry hc => exact .inr (List.mem_map.mpr ⟨_, hc, by omega⟩)
    | handler hi hv hnonneg => exact .inl (.inr ⟨_, hi, by rw [hv]; congr 1; omega⟩)

/-- Block building gets its split points unless a handler's address is too large. The points are
boundaries if those of the code are, negative ones apart. -/
theorem exists_splitPoints_iff (hc : Contiguous 0 code.instrs)
    (hlength : endOf code.instrs = code.length) :
    (∃ points, splitPoints code = .ok points ∧ ∀ p ∈ points, code.Boundary p) ↔
      (∀ i, HooksIn [] code.instrs i → i.FitsWord) ∧
        ∀ p, code.SplitPoint p → 0 ≤ p → code.Boundary p.toNat := by
  constructor
  · rintro ⟨points, hpoints, hall⟩
    obtain ⟨asked, hasked, h⟩ := ok_of_bind hpoints
    cases h
    refine ⟨exists_splitsFrom_iff.mp ⟨asked, hasked⟩, fun p hp _ => hall _ ?_⟩
    rcases asked_iff.mpr ⟨p, hp, rfl⟩ with h | h
    · exact List.mem_append_right _ ((asked_splitsFrom hasked _).1 h)
    · exact List.mem_append_left _ (by simp [h])
  · rintro ⟨hhooks, hall⟩
    obtain ⟨asked, hasked⟩ := exists_splitsFrom_iff.mpr hhooks
    -- a negative split point has become the start of the code
    have hclamped : ∀ q, code.SplitPoint q → code.Boundary q.toNat := by
      intro q hq
      by_cases hnonneg : 0 ≤ q
      · exact hall q hq hnonneg
      · rw [Int.toNat_of_nonpos (by omega)]
        exact boundary_zero hc hlength
    refine ⟨_, by rw [splitPoints, hasked]; rfl, fun p hp => ?_⟩
    rcases List.mem_append.mp hp with hp | hp
    · rcases List.mem_cons.mp hp with rfl | hp
      · exact boundary_zero hc hlength
      · rcases List.mem_cons.mp hp with rfl | hp
        · exact .inl rfl
        · obtain ⟨q, hq, rfl⟩ := asked_iff.mp (.inr hp)
          exact hclamped q hq
    · rcases (asked_splitsFrom hasked p).2 hp with hp | ⟨j, hj, rfl⟩
      · obtain ⟨q, hq, rfl⟩ := asked_iff.mp (.inl hp)
        exact hclamped q hq
      · exact boundary_endAddress hc hlength hj

/-- What block building checks, said of split points: those that are not negative are boundaries. -/
theorem accepted_iff (hc : Contiguous 0 code.instrs)
    (hfit : ∀ i ∈ code.instrs, i.opcode.hasOffset = true → i.LeadsInWord) :
    code.Accepted ↔ endOf code.instrs = code.length ∧
      (∀ i, HooksIn [] code.instrs i → i.FitsWord) ∧
        ∀ p, code.SplitPoint p → 0 ≤ p → code.Boundary p.toNat := by
  constructor
  · intro h
    refine ⟨h.length, h.hooks, fun p hp hnonneg => ?_⟩
    cases hp with
    | jump hi hop ho =>
      have hexact := Instr.toNat_of_wordTarget? (hfit _ hi hop) ho
      rw [← hexact.2]
      exact h.jumps _ hi hop _ hexact.1
    | entry hentry => exact h.entries _ hentry
    | handler hi hv _ => exact h.handlers _ _ hi hv hnonneg
  · rintro ⟨hlength, hhooks, hsplits⟩
    refine ⟨hlength, hhooks, fun i hi hop t ht => ?_, fun c hentry => ?_,
      fun i value hi hv hnonneg => hsplits value (.handler hi hv hnonneg) hnonneg⟩
    · obtain ⟨offset, ho, -⟩ := Option.map_eq_some_iff.mp ht
      obtain ⟨hword, hexact⟩ := Instr.toNat_of_wordTarget? (hfit i hi hop) ho
      obtain rfl := Option.some.inj (hword.symm.trans ht)
      rw [hexact]
      by_cases hnonneg : 0 ≤ (i.address : Int) + offset
      · exact hsplits _ (.jump hi hop ho) hnonneg
      · rw [Int.toNat_of_nonpos (by omega)]
        exact boundary_zero hc hlength
    · exact hsplits c.start (.entry hentry) (Int.natCast_nonneg _)

/-- Well-formed code is code that block building accepts with no jump to before the code. -/
theorem wellFormed_iff : code.WellFormed ↔ (endOf code.instrs = code.length ∧
    (∀ i, HooksIn [] code.instrs i → i.FitsWord) ∧
      ∀ p, code.SplitPoint p → 0 ≤ p → code.Boundary p.toNat) ∧ ∀ p, code.SplitPoint p → 0 ≤ p := by
  constructor
  · intro h
    have hnonneg : ∀ p, code.SplitPoint p → 0 ≤ p := by
      intro p hp
      obtain ⟨a, -, rfl⟩ := h.splits p hp
      omega
    refine ⟨⟨h.length, h.hooks, fun p hp _ => ?_⟩, hnonneg⟩
    obtain ⟨a, ha, rfl⟩ := h.splits p hp
    exact ha
  · rintro ⟨⟨hlength, hhooks, hsplits⟩, hnonneg⟩
    refine ⟨hlength, hhooks, fun p hp => ⟨p.toNat, hsplits p hp (hnonneg p hp), ?_⟩⟩
    have := hnonneg p hp
    omega

end CodeEntry

/-- Code has a block graph if and only if its length is right, its handlers have addresses, and
embedded entries, handlers and jumps, the latter as words have them lead, are at boundaries. So code
is well formed if and only if it has a block graph and no jump in it leads to before its start. -/
theorem exists_findBlocks_iff_boundaries {code : CodeEntry} (hc : Contiguous 0 code.instrs)
    (hfit : ∀ i ∈ code.instrs, i.opcode.hasOffset = true → i.LeadsInWord) :
    ((∃ g, findBlocks code = .ok g) ↔ code.Accepted) ∧
      (code.WellFormed ↔ (∃ g, findBlocks code = .ok g) ∧ ∀ p, code.SplitPoint p → 0 ≤ p) := by
  have hiff : (∃ g, findBlocks code = .ok g) ↔ CodeEntry.endOf code.instrs = code.length ∧
      (∀ i, HooksIn [] code.instrs i → i.FitsWord) ∧
      ∀ p, code.SplitPoint p → 0 ≤ p → code.Boundary p.toNat := by
    rw [exists_findBlocks_iff hc]
    exact and_congr_right fun hlength => CodeEntry.exists_splitPoints_iff hc hlength
  rw [hiff]
  exact ⟨(CodeEntry.accepted_iff hc hfit).symm, CodeEntry.wellFormed_iff⟩

/-- A call behind a hook whose finally part is the `exit` at the end. -/
def hookedCall : CodeEntry := .ofInstrs "hooked_call"
  [⟨0, .push, none, .int32, .double, .int32 52⟩, ⟨8, .conv, none, .int32, .var, .none⟩,
    ⟨12, .push, none, .int32, .double, .int32 (-1)⟩, ⟨20, .conv, none, .int32, .var, .none⟩,
    ⟨24, .call, none, .int32, .int32, .call Hook.try_ 2⟩, ⟨32, .popz, none, .var, .var, .none⟩,
    ⟨36, .call, none, .int32, .int32, .call "f" 0⟩, ⟨44, .popz, none, .var, .var, .none⟩,
    ⟨48, .b, none, .int32, .int32, .branch 4⟩, ⟨52, .exit, none, .int32, .int32, .none⟩]

theorem exists_findBlocks_iff_boundaries_hookedCall :
    (Contiguous 0 hookedCall.instrs ∧
      ∀ i ∈ hookedCall.instrs, i.opcode.hasOffset = true → i.LeadsInWord) ∧
    hookedCall.SplitPoint 52 ∧ hookedCall.WellFormed := by
  have hc : Contiguous 0 hookedCall.instrs :=
    ⟨rfl, rfl, rfl, rfl, rfl, rfl, rfl, rfl, rfl, rfl, trivial⟩
  have hjump : ∀ i ∈ hookedCall.instrs, i.opcode.hasOffset = true → ∀ offset ∈ i.offset?.toList,
      0 ≤ (i.address : Int) + offset ∧ (i.address : Int) + offset < 0x100000000 := by decide
  have hfit : ∀ i ∈ hookedCall.instrs, i.opcode.hasOffset = true → i.LeadsInWord :=
    fun i hi hop offset ho => (hjump i hi hop offset (by simp [ho])).2
  have hhandler : HooksIn [] hookedCall.instrs ⟨0, .push, none, .int32, .double, .int32 52⟩ :=
    ⟨hookedCall.instrs.take 4, _, hookedCall.instrs.drop 5, rfl, rfl, .inr rfl⟩
  refine ⟨⟨hc, hfit⟩, .handler hhandler rfl (by decide),
    (exists_findBlocks_iff_boundaries hc hfit).2.mpr ⟨⟨_, rfl⟩, fun p hp => ?_⟩⟩
  cases hp with
  | jump hi hop ho => exact (hjump _ hi hop _ (by simp [ho])).1
  | entry hc => exact Int.natCast_nonneg _
  | handler _ _ hnonneg => exact hnonneg

/-- A jump that leads one instruction back from the start, and an `exit`. -/
def jumpBefore : CodeEntry := .ofInstrs "jump_before"
  [⟨0, .b, none, .int16, .raw 7, .branch (-4)⟩, ⟨4, .exit, none, .double, .double, .none⟩]

/-- The jump is taken for one to the start. -/
theorem not_wellFormed_jumpBefore : Contiguous 0 jumpBefore.instrs ∧
    (∃ g, findBlocks jumpBefore = .ok g ∧ (g.node 0).succs = [0, 1]) ∧ ¬ jumpBefore.WellFormed := by
  refine ⟨⟨rfl, rfl, trivial⟩, ⟨_, rfl, by decide⟩, fun h => ?_⟩
  obtain ⟨a, -, ha⟩ := h.splits (-4)
    (.jump (i := ⟨0, .b, none, .int16, .raw 7, .branch (-4)⟩) (by decide) rfl rfl)
  omega

end GmlLift
