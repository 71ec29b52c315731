import GmlLift.Proofs.Flow.LoopLayouts

/-! # The layout of a short-circuit chain

Each operand but the last may decide the chain, and the constant that they then jump to is a block
of its own. From the edges into that block the pass finds the operands again, however many there
are, and hangs them in order under one node. -/
namespace GmlLift

open GmlLift.Graph Cell Pass

/-! ## Code that only computes -/

/-- An instruction that no pass before that for short circuits looks for, and that drops nothing. -/
structure Instr.Unsought (i : Instr) : Prop where
  hook : i.isCallTo Hook.try_ = false
  keeps : i.opcode ≠ .popz
  notStatic : i.isExtended .hasStatic = false
  notNullish : i.isExtended .isNullish = false
  notLoop : Loops.kind? i = none

/-- Such an instruction after which control goes on to the next one. -/
structure Instr.Computes (i : Instr) : Prop extends Instr.Unsought i where
  endsBlock : i.endsBlock = false

theorem Instr.computes_of_opcode {i : Instr} (h : i.endsBlock = false)
    (hop : i.opcode = .push ∨ i.opcode = .pop) : i.Computes where
  hook := by rcases hop with hop | hop <;> simp [isCallTo, hop]
  keeps := by rcases hop with hop | hop <;> simp [hop]
  notStatic := by rcases hop with hop | hop <;> simp [isExtended, hop]
  notNullish := by rcases hop with hop | hop <;> simp [isExtended, hop]
  notLoop := Loops.kind?_of_not_endsBlock h
  endsBlock := h

theorem Instr.unsought_of_endsBlock {i : Instr} (h : i.endsBlock = true)
    (hloop : Loops.kind? i = none) : i.Unsought where
  hook := by
    have hcall : i.opcode ≠ .call := fun he => by simp [endsBlock, he] at h
    simp [isCallTo, hcall]
  keeps := fun he => by simp [endsBlock, he] at h
  notStatic := isExtended_of_endsBlock h _
  notNullish := isExtended_of_endsBlock h _
  notLoop := hloop

namespace Planted

variable {cells : List Cell} {code : CodeEntry} {g : Graph} (hp : Planted cells code g)
  (h : ∀ c ∈ cells, ∀ i ∈ c.instrs, i.Unsought)
include hp h

theorem findStaticInits_unsought : GmlLift.findStaticInits.run g = .ok [] g :=
  findStaticInits_idle fun _ hb => StaticInit.guard?_eq_none
    (hp.forall_instrs (fun c hc i hi => (h c hc i hi).notStatic) hb)

theorem findNullish_unsought : GmlLift.findNullish.run g = .ok [] g :=
  findNullish_idle fun _ hb => Nullish.test?_eq_none
    (hp.forall_instrs (fun c hc i hi => (h c hc i hi).notNullish) hb)

theorem findLoops_unsought : findLoops.run g = .ok [] g := by
  refine findLoops_idle fun b hb => ?_
  cases hlast : g.lastInstr? b with
  | none => rfl
  | some i =>
    exact hp.forall_instrs (fun c hc i hi => (h c hc i hi).notLoop) hb i (List.mem_of_getLast? hlast)

end Planted

namespace ShortCircuit

/-! ## The layout -/

/-- An operand that may decide the chain, and the jump by which it does. -/
structure Term where
  operand : List Instr
  jump : Instr

/-- Code of a chain of two or more operands whose result is stored. The operands before the last
jump to the push of the result, which the last one jumps over. -/
structure ChainCode (op : Logic) (terms : List Term) (last : List Instr)
    (skip result store exit : Instr) (is : List Instr) : Prop where
  instrs : is = (terms.flatMap fun t => t.operand ++ [t.jump]) ++ last ++
    [skip, result, store, exit]
  several : terms ≠ []
  decides : ∀ t ∈ terms, t.jump.opcode = jumpOf op ∧ t.jump.target? = some result.address
  skips : skip.opcode = .b ∧ skip.target? = some store.address
  pushes : result.opcode = .push ∧ result.type1 = .int16 ∧
    ∃ k, result.intValue? = some k ∧ (k = 0 ↔ op = .and)
  stores : store.opcode = .pop
  exits : exit.opcode = .exit

section

variable (terms : List Term) (last : List Instr) (skip result store exit : Instr)

/-- The operands that may decide the chain. -/
def deciding : List Cell :=
  terms.mapIdx fun j t => ⟨t.operand, some t.jump, [j + 1, terms.length + 1]⟩

def cells : List Cell := deciding terms ++ [⟨last, some skip, [terms.length + 2]⟩,
  ⟨[result], none, [terms.length + 2]⟩, ⟨[store], some exit, []⟩]

/-- The blocks with the empty one at the end, which hangs after the exit. -/
def wired : List Cell := deciding terms ++ [⟨last, some skip, [terms.length + 2]⟩,
  ⟨[result], none, [terms.length + 2]⟩, ⟨[store], some exit, [terms.length + 3]⟩, ⟨[], none, []⟩]

@[simp] theorem length_deciding : (deciding terms).length = terms.length := by
  simp [deciding]

theorem deciding_getElem? {j : Nat} {t : Term} (ht : terms[j]? = some t) :
    (deciding terms)[j]? = some ⟨t.operand, some t.jump, [j + 1, terms.length + 1]⟩ := by
  rw [deciding, List.getElem?_mapIdx, ht]
  rfl

theorem length_cells : (cells terms last skip result store exit).length = terms.length + 3 := by
  simp [cells]

theorem cells_term {j : Nat} {t : Term} (ht : terms[j]? = some t) :
    (cells terms last skip result store exit)[j]? =
      some ⟨t.operand, some t.jump, [j + 1, terms.length + 1]⟩ := by
  have hlt : j < terms.length := (List.getElem?_eq_some_iff.mp ht).1
  rw [cells, List.getElem?_append_left (by simpa using hlt), deciding_getElem? terms ht]

theorem cells_last : (cells terms last skip result store exit)[terms.length]? =
    some ⟨last, some skip, [terms.length + 2]⟩ := by
  simp [cells]

theorem cells_result : (cells terms last skip result store exit)[terms.length + 1]? =
    some ⟨[result], none, [terms.length + 2]⟩ := by
  simp [cells]

theorem cells_store : (cells terms last skip result store exit)[terms.length + 2]? =
    some ⟨[store], some exit, []⟩ := by
  simp [cells]

/-- A property of the operands before the last. -/
theorem eachFrom_deciding {P : Nat → Cell → Prop} (h : ∀ j t, terms[j]? = some t →
    P j ⟨t.operand, some t.jump, [j + 1, terms.length + 1]⟩) : EachFrom P 0 (deciding terms) := by
  refine eachFrom_iff.mpr fun j c hc => ?_
  rw [deciding, List.getElem?_mapIdx] at hc
  obtain ⟨t, ht, rfl⟩ := Option.map_eq_some_iff.mp hc
  rw [Nat.zero_add]
  exact h j t ht

theorem code_deciding : Cell.code (deciding terms) =
    terms.flatMap fun t => t.operand ++ [t.jump] := by
  rw [Cell.code, List.flatMap_def, List.flatMap_def]
  refine congrArg List.flatten (List.ext_getElem? fun j => ?_)
  rw [List.getElem?_map, List.getElem?_map, deciding, List.getElem?_mapIdx]
  cases terms[j]? <;> rfl

end

/-! ## The graph before the fold -/

section

variable {op : Logic} {terms : List Term} {last : List Instr} {skip result store exit : Instr}
  {code : CodeEntry}

/-- What a block of the layout has to satisfy. -/
structure Fits (cells : List Cell) (j : Nat) (c : Cell) : Prop where
  filled : c.instrs ≠ []
  computes : ∀ i ∈ c.straight, i.Computes
  ends : Ends cells j c
  nexts : ∀ k ∈ c.nexts, k ≤ cells.length

namespace ChainCode

theorem code_cells (h : ChainCode op terms last skip result store exit code.instrs) :
    code.instrs = Cell.code (cells terms last skip result store exit) := by
  rw [h.instrs, cells, Cell.code, List.flatMap_append]
  change _ = Cell.code (deciding terms) ++ _
  simp [code_deciding, Cell.instrs]

/-- Where the jumps lead. -/
theorem startOf_targets (h : ChainCode op terms last skip result store exit code.instrs)
    (hcode : code.Single) :
    startOf (cells terms last skip result store exit) (terms.length + 1) = result.address ∧
      startOf (cells terms last skip result store exit) (terms.length + 2) = store.address :=
  ⟨startOf_eq_address (h.code_cells ▸ hcode.contiguous) (cells_result ..) rfl,
    startOf_eq_address (h.code_cells ▸ hcode.contiguous) (cells_store ..) rfl⟩

theorem fits (h : ChainCode op terms last skip result store exit code.instrs)
    (hcode : code.Single) (hterms : ∀ t ∈ terms, ∀ i ∈ t.operand, i.Computes)
    (hlast : ∀ i ∈ last, i.Computes) :
    EachFrom (Fits (cells terms last skip result store exit)) 0
      (cells terms last skip result store exit) := by
  have hlen := length_cells terms last skip result store exit
  obtain ⟨hresult, hstore⟩ := h.startOf_targets hcode
  nth_rewrite 2 [cells]
  rw [eachFrom_append, length_deciding, Nat.zero_add]
  refine ⟨eachFrom_deciding terms fun j t ht => ?_, ?_, ?_, ?_, trivial⟩
  · have hmem := List.mem_of_getElem? ht
    have hlt : j < terms.length := (List.getElem?_eq_some_iff.mp ht).1
    have hop : t.jump.opcode ∈ [Opcode.bt, .bf, .pushEnv] := by
      rw [(h.decides t hmem).1]
      cases op <;> simp [jumpOf]
    refine ⟨by simp [Cell.instrs], hterms t hmem, ends_twoWay (cells_term _ _ _ _ _ _ ht) rfl hop
      (by rw [(h.decides t hmem).2, hresult]) rfl, fun k hk => ?_⟩
    simp only [List.mem_cons, List.not_mem_nil, or_false] at hk
    rw [hlen]
    rcases hk with rfl | rfl
    · exact Nat.le_trans hlt (Nat.le_add_right ..)
    · exact Nat.add_le_add_left (by decide) _
  · exact ⟨by simp [Cell.instrs], hlast, ends_jump rfl h.skips.1 (by rw [h.skips.2, hstore]) rfl,
      by simp [hlen]⟩
  · refine ⟨by simp [Cell.instrs], fun i hi => ?_, ends_open rfl rfl fun _ => ?_, by simp [hlen]⟩
    · rw [List.mem_singleton.mp hi]
      exact Instr.computes_of_opcode (by rw [Instr.endsBlock, h.pushes.1]) (.inl h.pushes.1)
    · exact ⟨_, List.mem_of_getElem? (cells_last ..), skip, rfl, by simp [Instr.jumps, h.skips],
        by rw [h.skips.2, hstore]⟩
  · refine ⟨by simp [Cell.instrs], fun i hi => ?_, ends_exit rfl h.exits rfl, by simp⟩
    rw [List.mem_singleton.mp hi]
    exact Instr.computes_of_opcode (by rw [Instr.endsBlock, h.stores]) (.inr h.stores)

theorem filled (h : ChainCode op terms last skip result store exit code.instrs)
    (hcode : code.Single) (hterms : ∀ t ∈ terms, ∀ i ∈ t.operand, i.Computes)
    (hlast : ∀ i ∈ last, i.Computes) :
    ∀ c ∈ cells terms last skip result store exit, c.instrs ≠ [] := by
  intro c hc
  obtain ⟨j, hj⟩ := List.getElem?_of_mem hc
  exact ((h.fits hcode hterms hlast).getElem? j c hj).filled

/-- Every jump of the chain leads on, so that none closes a loop. -/
theorem leads_on (h : ChainCode op terms last skip result store exit code.instrs)
    (hcode : code.Single)
    (hfilled : ∀ c ∈ cells terms last skip result store exit, c.instrs ≠ []) :
    EachFrom (fun _ c => ∀ i, c.closing = some i → Loops.kind? i = none) 0
      (cells terms last skip result store exit) := by
  have hlen := length_cells terms last skip result store exit
  obtain ⟨hresult, hstore⟩ := h.startOf_targets hcode
  have hahead {j k : Nat} {c : Cell} {i : Instr}
      (hj : (cells terms last skip result store exit)[j]? = some c) (hi : c.closing = some i)
      (hop : i.opcode ≠ .pushEnv)
      (ht : i.target? = some (startOf (cells terms last skip result store exit) k)) (hjk : j < k)
      (hk : k ≤ (cells terms last skip result store exit).length) : Loops.kind? i = none :=
    Loops.kind?_ahead hop ht
      (closing_lt_startOf (h.code_cells ▸ hcode.contiguous) hfilled hj hi hjk hk)
  nth_rewrite 1 [cells]
  rw [eachFrom_append, length_deciding, Nat.zero_add]
  refine ⟨eachFrom_deciding terms fun j t ht i hi => ?_, fun i hi => ?_, fun i hi => ?_,
    fun i hi => ?_, trivial⟩
  · cases hi
    obtain ⟨hop, htarget⟩ := h.decides t (List.mem_of_getElem? ht)
    have hlt : j < terms.length := (List.getElem?_eq_some_iff.mp ht).1
    refine hahead (cells_term _ _ _ _ _ _ ht) rfl ?_ (by rw [htarget, hresult])
      (Nat.lt_succ_of_lt hlt) (by rw [hlen]; omega)
    rw [hop]
    cases op <;> simp [jumpOf]
  · cases hi
    exact hahead (cells_last ..) rfl (by simp [h.skips.1]) (by rw [h.skips.2, hstore])
      (Nat.lt_add_of_pos_right (by decide)) (by rw [hlen]; omega)
  · cases hi
  · cases hi
    exact Loops.kind?_exit h.exits

/-- No other pass finds anything in the blocks. -/
theorem unsought (h : ChainCode op terms last skip result store exit code.instrs)
    (hcode : code.Single) (hterms : ∀ t ∈ terms, ∀ i ∈ t.operand, i.Computes)
    (hlast : ∀ i ∈ last, i.Computes) :
    ∀ c ∈ cells terms last skip result store exit, ∀ i ∈ c.instrs, i.Unsought := by
  intro c hc i hi
  obtain ⟨j, hj⟩ := List.getElem?_of_mem hc
  have hfit := (h.fits hcode hterms hlast).getElem? j c hj
  rcases List.mem_append.mp hi with hi | hi
  · exact (hfit.computes i hi).toUnsought
  · have hclosing : c.closing = some i := Option.mem_toList.mp hi
    have hends := hfit.ends
    rw [Cell.Ends, hclosing] at hends
    exact Instr.unsought_of_endsBlock hends.1
      ((h.leads_on hcode (h.filled hcode hterms hlast)).getElem? j c hj i hclosing)

/-- The code is cut into the blocks of the layout. -/
theorem sketches (h : ChainCode op terms last skip result store exit code.instrs)
    (hcode : code.Single) (hterms : ∀ t ∈ terms, ∀ i ∈ t.operand, i.Computes)
    (hlast : ∀ i ∈ last, i.Computes) : Sketches (cells terms last skip result store exit) code := by
  have hfits := h.fits hcode hterms hlast
  have hunsought := h.unsought hcode hterms hlast
  refine hcode.sketches h.code_cells (fun c hc i hi => ?_) (fun j c hj => ?_)
    (h.filled hcode hterms hlast) (fun c hc => ?_) (fun i hi => ?_) (.inr fun i hi => ?_)
  · obtain ⟨j, hj⟩ := List.getElem?_of_mem hc
    exact ((hfits.getElem? j c hj).computes i hi).endsBlock
  · exact (hfits.getElem? j c hj).ends
  · obtain ⟨j, hj⟩ := List.getElem?_of_mem hc
    exact (hfits.getElem? j c hj).nexts
  · obtain ⟨c, hc, hi⟩ := List.mem_flatMap.mp (h.code_cells ▸ hi)
    exact (hunsought c hc i hi).hook
  · obtain ⟨c, hc, hi⟩ := List.mem_flatMap.mp (h.code_cells ▸ hi)
    exact (hunsought c hc i hi).keeps

end ChainCode

variable {g : Graph} (hp : Planted (cells terms last skip result store exit) code g)
include hp

theorem shows_wired (hne : terms ≠ []) : Shows (wired terms last skip result store exit) g g := by
  have hlen := length_cells terms last skip result store exit
  have hdead : ¬ Entered (cells terms last skip result store exit) (terms.length + 3) := by
    rintro ⟨c, hc, hk⟩
    rcases List.mem_append.mp hc with hc | hc
    · obtain ⟨j, hj⟩ := List.getElem?_of_mem hc
      rw [deciding, List.getElem?_mapIdx] at hj
      obtain ⟨t, ht, rfl⟩ := Option.map_eq_some_iff.mp hj
      have hlt : j < terms.length := (List.getElem?_eq_some_iff.mp ht).1
      simp only [List.mem_cons, List.not_mem_nil, or_false] at hk
      omega
    · simp only [List.mem_cons, List.not_mem_nil, or_false] at hc
      rcases hc with rfl | rfl | rfl <;> simp at hk
  obtain ⟨first, rest, hfirst⟩ := List.exists_cons_of_ne_nil hne
  have hzero : terms[0]? = some first := by rw [hfirst]; rfl
  refine Loops.shows_of_faces hp ?_
  rw [wired, eachFrom_append, length_deciding, Nat.zero_add]
  refine ⟨eachFrom_deciding terms fun j t ht => ?_, ?_, ?_, ?_, ?_, trivial⟩
  · have hcell := cells_term terms last skip result store exit ht
    exact Loops.face_of_entered hp hcell ⟨_, List.mem_of_getElem? hcell, by simp⟩
  · exact Loops.face_of_entered hp (cells_last ..)
      ⟨_, List.mem_of_getElem? (cells_term _ _ _ _ _ _ hzero), by simp⟩
  · exact Loops.face_of_entered hp (cells_result ..)
      ⟨_, List.mem_of_getElem? (cells_last ..), by simp⟩
  · exact Loops.face_of_dead hp (cells_store ..) hdead
  · have hend := Loops.face_of_last hp
    rwa [hlen] at hend

end


/-! ## The jumps are cut -/

/-- The first blocks without their jumps and edges. -/
def cutFirst (k : Nat) (cs : List Cell) : List Cell :=
  cs.mapIdx fun j c => if j < k then ⟨c.straight, none, []⟩ else c

theorem cutFirst_zero (cs : List Cell) : cutFirst 0 cs = cs := by
  refine List.ext_getElem? fun j => ?_
  rw [cutFirst, List.getElem?_mapIdx]
  cases cs[j]? <;> rfl

theorem cutFirst_getElem? {k j : Nat} {cs : List Cell} {c : Cell} (hc : cs[j]? = some c) :
    (cutFirst k cs)[j]? = some (if j < k then ⟨c.straight, none, []⟩ else c) := by
  rw [cutFirst, List.getElem?_mapIdx, hc]
  rfl

theorem cutFirst_succ {k : Nat} {cs : List Cell} {c : Cell} (hc : cs[k]? = some c) :
    cutFirst (k + 1) cs = (cutFirst k cs).set k ⟨c.straight, none, []⟩ := by
  have hlt : k < cs.length := (List.getElem?_eq_some_iff.mp hc).1
  refine List.ext_getElem? fun j => ?_
  rw [List.getElem?_set, cutFirst, cutFirst, List.getElem?_mapIdx, List.getElem?_mapIdx,
    List.length_mapIdx]
  by_cases hj : k = j
  · subst hj
    rw [if_pos rfl, if_pos (by simpa using hlt), hc, Option.map_some,
      if_pos (Nat.lt_succ_self k)]
  · have hiff : j < k + 1 ↔ j < k := by omega
    simp only [hiff, if_neg hj]

theorem cutJump_run (block : NodeId) (g : Graph) :
    (cutJump block).run g = .ok () (Loops.cutBlock block 1 g) := rfl

/-- Cutting the jump of one block after those before it. -/
theorem shows_cutJump {cs : List Cell} {base g : Graph} {k : Nat} {c : Cell} {jump : Instr}
    (h : Shows (cutFirst k cs) base g) (hcs : cs.length ≤ base.nodes.size) (hc : cs[k]? = some c)
    (hj : c.closing = some jump) : Shows (cutFirst (k + 1) cs) base (Loops.cutBlock k 1 g) := by
  have hcell : (cutFirst k cs)[k]? = some c := by rw [cutFirst_getElem? hc, if_neg (Nat.lt_irrefl k)]
  have hlen : (cutFirst k cs).length ≤ base.nodes.size := by
    rw [cutFirst, List.length_mapIdx]
    exact hcs
  rw [cutFirst_succ hc]
  exact h.cutBlock hlen hcell [jump] (by simp [Cell.instrs, hj]) rfl rfl

/-- The jumps of blocks in a row are cut one after the other. -/
theorem each_cutJump {cs : List Cell} {base g : Graph} (hcs : cs.length ≤ base.nodes.size)
    (k count : Nat) (h : Shows (cutFirst k cs) base g)
    (hclosed : ∀ j, k ≤ j → j < k + count → ∃ c jump, cs[j]? = some c ∧ c.closing = some jump) :
    ∃ g', (each cutJump (List.range' k count)).run g = .ok () g' ∧
      Shows (cutFirst (k + count) cs) base g' := by
  induction count generalizing k g with
  | zero => exact ⟨g, rfl, h⟩
  | succ count ih =>
    obtain ⟨c, jump, hc, hj⟩ := hclosed k (Nat.le_refl k) (by omega)
    obtain ⟨g', hrun, hshows⟩ := ih (k + 1) (shows_cutJump h hcs hc hj) fun j hlow hhigh =>
      hclosed j (by omega) (by omega)
    have htotal : k + 1 + count = k + (count + 1) := by omega
    rw [htotal] at hshows
    refine ⟨g', ?_, hshows⟩
    rw [List.range'_succ, each, run_bind_ok (cutJump_run k g)]
    exact hrun

/-! ## The operands found again -/

theorem eraseReps_loop_of_nodup {a : NodeId} {as acc : List NodeId} (h : (a :: as).Nodup) :
    List.eraseRepsBy.loop (· == ·) a as acc = acc.reverse ++ a :: as := by
  induction as generalizing a acc with
  | nil => simp [List.eraseRepsBy.loop]
  | cons b as ih =>
    obtain ⟨ha, hrest⟩ := List.nodup_cons.mp h
    have hne : (a == b) = false := by
      refine beq_eq_false_iff_ne.mpr fun he => ha ?_
      rw [he]
      exact List.mem_cons_self
    rw [List.eraseRepsBy.loop, hne]
    dsimp only
    rw [ih hrest, List.reverse_cons, List.append_assoc]
    rfl

theorem eraseReps_of_nodup {as : List NodeId} (h : as.Nodup) : as.eraseReps = as := by
  cases as with
  | nil => rfl
  | cons a as => exact eraseReps_loop_of_nodup h

/-- Blocks in any order, sorted by where they start. -/
theorem sorted_range {g : Graph} {m : Nat} {preds : List NodeId} (hperm : preds.Perm (List.range m))
    (hstart : ∀ i j, i < j → j < m → (g.node i).start < (g.node j).start) :
    (preds.mergeSort fun a b => decide ((g.node a).start ≤ (g.node b).start)).eraseReps =
      List.range m := by
  have hsorted : (preds.mergeSort fun a b =>
      decide ((g.node a).start ≤ (g.node b).start)).Pairwise fun a b =>
        decide ((g.node a).start ≤ (g.node b).start) = true := List.pairwise_mergeSort
    (fun a b c hab hbc => by simp only [decide_eq_true_eq] at *; omega)
    (fun a b => by simp only [Bool.or_eq_true, decide_eq_true_eq]; omega) preds
  have hrange : (List.range m).Pairwise fun a b =>
      decide ((g.node a).start ≤ (g.node b).start) = true := by
    refine List.pairwise_lt_range.imp_of_mem fun _ hb hab => ?_
    exact decide_eq_true (Nat.le_of_lt (hstart _ _ hab (List.mem_range.mp hb)))
  have heq : (preds.mergeSort fun a b => decide ((g.node a).start ≤ (g.node b).start)) =
      List.range m := by
    refine List.Perm.eq_of_pairwise (fun a b ha hb hab hba => ?_) hsorted hrange
      ((List.mergeSort_perm ..).trans hperm)
    have ha : a < m := List.mem_range.mp (hperm.mem_iff.mp (List.mem_mergeSort.mp ha))
    have hb : b < m := List.mem_range.mp hb
    simp only [decide_eq_true_eq] at hab hba
    rcases Nat.lt_trichotomy a b with hlt | he | hlt
    · have := hstart a b hlt hb
      omega
    · exact he
    · have := hstart b a hlt ha
      omega
  rw [heq]
  exact eraseReps_of_nodup List.nodup_range


/-! ## The fold -/

/-- The node of a chain put in place of the first block, with the operands under it. -/
def hung (operands : List NodeId) (op : Logic) (start stop : Nat) (done : NodeId) (g : Graph) :
    Graph :=
  ((((g.add (.ofKind (.shortCircuit op) start stop operands.length)).redirectPredecessors 0
    g.nodes.size fun _ => true).connect g.nodes.size done).replaceInParent 0
      g.nodes.size).setChildren g.nodes.size operands

section

variable {op : Logic} {terms : List Term} {last : List Instr} {skip result store exit : Instr}
  {code : CodeEntry} {g : Graph}
  (h : ChainCode op terms last skip result store exit code.instrs)
  (hlaid : Sketches (cells terms last skip result store exit) code)
  (hp : Planted (cells terms last skip result store exit) code g)
include hp

theorem start_lt (hlaid : Sketches (cells terms last skip result store exit) code) (i j : Nat)
    (hij : i < j) (hj : j ≤ terms.length + 3) : (g.node i).start < (g.node j).start := by
  have hlen := length_cells terms last skip result store exit
  rw [hp.start_eq (by rw [hlen]; omega), hp.start_eq (by rw [hlen]; exact hj)]
  exact startOf_lt hlaid.contiguous_code hlaid.filled hij (by rw [hlen]; exact hj)

include h

theorem result?_eq : result? g (terms.length + 1) = some op := by
  obtain ⟨hop, htype, k, hk, hand⟩ := h.pushes
  have hinstrs : g.instrs (terms.length + 1) = [result] := by
    rw [hp.instrs_eq (cells_result ..)]
    rfl
  unfold result?
  rw [hinstrs]
  dsimp only
  rw [if_pos ⟨hop, htype⟩, hk]
  by_cases hzero : k = 0
  · rw [Option.map_some, if_pos hzero, hand.mp hzero]
  · rw [Option.map_some, if_neg hzero]
    cases op with
    | and => exact absurd (hand.mpr rfl) hzero
    | or => rfl

/-- The edges into the block of the result come from the operands that may decide the chain. -/
theorem preds_result : (g.node (terms.length + 1)).preds.Perm (List.range terms.length) := by
  have hshows := shows_wired hp h.several
  have hlen : (wired terms last skip result store exit).length = terms.length + 4 := by simp [wired]
  refine List.perm_iff_count.mpr fun (a : Nat) => ?_
  rw [← hp.sound.dual, List.count_range]
  by_cases ha : a < terms.length
  · have hcell : (wired terms last skip result store exit)[a]? = some ⟨terms[a].operand,
        some terms[a].jump, [a + 1, terms.length + 1]⟩ := by
      rw [wired, List.getElem?_append_left (by simpa using ha),
        deciding_getElem? terms (List.getElem?_eq_getElem ha)]
    have hne : a + 1 ≠ terms.length + 1 := by omega
    rw [hshows.succs_eq hcell, if_pos ha, List.count_cons_of_ne hne]
    simp
  · rw [if_neg ha]
    rcases Nat.lt_or_ge a (terms.length + 4) with hlt | hge
    · have hcases : a = terms.length ∨ a = terms.length + 1 ∨ a = terms.length + 2 ∨
          a = terms.length + 3 := by omega
      rcases hcases with rfl | rfl | rfl | rfl
      · rw [hshows.succs_eq (c := ⟨last, some skip, [terms.length + 2]⟩) (by simp [wired])]
        simp
      · rw [hshows.succs_eq (c := ⟨[result], none, [terms.length + 2]⟩) (by simp [wired])]
        simp
      · rw [hshows.succs_eq (c := ⟨[store], some exit, [terms.length + 3]⟩) (by simp [wired])]
        simp
      · rw [hshows.succs_eq (c := ⟨[], none, []⟩) (by simp [wired])]
        rfl
    · rw [(Loops.bare_beyond hp hshows (by rw [hlen, length_cells]) (hlen ▸ hge)).1]
      rfl

include hlaid

/-- The operands are found in order. -/
theorem operands?_eq : operands? g (terms.length + 1) op = some (List.range terms.length) := by
  have hlen := length_cells terms last skip result store exit
  have hpreds := preds_result h hp
  have hempty : (g.node (terms.length + 1)).preds.isEmpty = false := by
    have hlength := hpreds.length_eq
    rw [List.length_range] at hlength
    have hpos := List.length_pos_iff.mpr h.several
    rw [List.isEmpty_eq_false_iff, ← List.length_pos_iff, hlength]
    exact hpos
  have hall : ((g.node (terms.length + 1)).preds.all fun p =>
      g.endsInJump p (jumpOf op) (g.node (terms.length + 1)).start) = true := by
    refine List.all_eq_true.mpr fun p hmem => ?_
    have hlt : p < terms.length := List.mem_range.mp (hpreds.mem_iff.mp hmem)
    have hcell := cells_term terms last skip result store exit (List.getElem?_eq_getElem hlt)
    obtain ⟨hop, htarget⟩ := h.decides _ (List.getElem_mem hlt)
    have hstart : (g.node (terms.length + 1)).start = result.address := by
      rw [hp.start_eq (by rw [hlen]; omega)]
      exact startOf_eq_address hlaid.contiguous_code (cells_result ..) rfl
    rw [endsInJump, hp.lastInstr?_closing hcell rfl, hstart]
    simp [hop, htarget]
  unfold operands?
  dsimp only
  rw [hempty, hall]
  change some _ = _
  rw [sorted_range hpreds fun i j hij hj => start_lt hp hlaid i j hij (by omega)]

omit hlaid in
/-- The chain without its jumps and their edges. -/
theorem exists_cut : ∃ g₁, (each cutJump (List.range terms.length)).run g = .ok () g₁ ∧
    Shows (cutFirst (terms.length + 2) (wired terms last skip result store exit)) g
      ((Loops.cutBlock terms.length 1 g₁).disconnectSuccessors (terms.length + 1)) := by
  have hwired := shows_wired hp h.several
  have hlen : (wired terms last skip result store exit).length = terms.length + 4 := by simp [wired]
  have hcs : (wired terms last skip result store exit).length ≤ g.nodes.size := by
    rw [hlen, hp.size, length_cells]
    omega
  have hlast : (wired terms last skip result store exit)[terms.length]? =
      some ⟨last, some skip, [terms.length + 2]⟩ := by simp [wired]
  have hresult : (wired terms last skip result store exit)[terms.length + 1]? =
      some ⟨[result], none, [terms.length + 2]⟩ := by simp [wired]
  rw [← cutFirst_zero (wired ..)] at hwired
  obtain ⟨g₁, hrun, h₁⟩ := each_cutJump hcs 0 terms.length hwired fun j _ hj => by
    have hj : j < terms.length := by omega
    refine ⟨⟨terms[j].operand, some terms[j].jump, [j + 1, terms.length + 1]⟩, terms[j].jump, ?_,
      rfl⟩
    rw [wired, List.getElem?_append_left (by simpa using hj),
      deciding_getElem? terms (List.getElem?_eq_getElem hj)]
  rw [Nat.zero_add] at h₁
  rw [← List.range_eq_range'] at hrun
  have h₂ := shows_cutJump h₁ hcs hlast rfl
  have hcell : (cutFirst (terms.length + 1) (wired terms last skip result store exit))[
      terms.length + 1]? = some ⟨[result], none, [terms.length + 2]⟩ := by
    rw [cutFirst_getElem? hresult, if_neg (Nat.lt_irrefl _)]
  have h₃ := h₂.cutSuccessors hcell
  rw [← cutFirst_succ hresult] at h₃
  exact ⟨g₁, hrun, h₃⟩

/-- The fold at the block of the result. -/
theorem fold_run : ∃ g₁,
    Shows (cutFirst (terms.length + 2) (wired terms last skip result store exit)) g g₁ ∧
    (fold (terms.length + 1)).run g = .ok (some g₁.nodes.size)
      (hung (List.range (terms.length + 1)) op (g.node 0).start (g.node (terms.length + 2)).start
        (terms.length + 2) g₁) := by
  have hlen := length_cells terms last skip result store exit
  obtain ⟨g₁, hrun, hshows⟩ := exists_cut h hp
  have hlastBlock : (g.blocksBefore (terms.length + 1)).getLast? = some terms.length := by
    rw [blocksBefore_range hp.blocks (by rw [hlen]; omega), List.getLast?_range]
    rfl
  have hdone : g.blockAt? (g.node (terms.length + 1)).stop = some (terms.length + 2) := by
    have hstop : (g.node (terms.length + 1)).stop =
        startOf (cells terms last skip result store exit) (terms.length + 2) := by
      rw [← stop_face, hp.face _ _ (cells_result ..)]
    rw [hstop]
    exact hp.blockAt?_start hlaid (by rw [hlen]; omega)
  have hjump : g.endsInJump terms.length .b (g.node (terms.length + 2)).start = true := by
    have hstart : (g.node (terms.length + 2)).start = store.address := by
      rw [hp.start_eq (by rw [hlen]; omega)]
      exact startOf_eq_address hlaid.contiguous_code (cells_store ..) rfl
    rw [endsInJump, hp.lastInstr?_closing (cells_last ..) rfl, hstart]
    simp [h.skips]
  have hfalls : ((List.range terms.length).mapM (fallThrough g)).run g =
      .ok ((List.range terms.length).map (· + 1)) g := by
    refine run_mapM_require fun j hj => ?_
    have hj : j < terms.length := List.mem_range.mp hj
    have hcell : (wired terms last skip result store exit)[j]? =
        some ⟨terms[j].operand, some terms[j].jump, [j + 1, terms.length + 1]⟩ := by
      rw [wired, List.getElem?_append_left (by simpa using hj),
        deciding_getElem? terms (List.getElem?_eq_getElem hj)]
    rw [fallThrough, (shows_wired hp h.several).succs_eq hcell]
    rfl
  have hfirst : (List.range terms.length).headD 0 = 0 := by
    rw [List.headD_eq_head?_getD, List.head?_range]
    split <;> rfl
  refine ⟨_, hshows, ?_⟩
  rw [fold, run_get_bind, result?_eq h hp, Option.bind_some, operands?_eq h hlaid hp,
    Option.map_some]
  dsimp only
  rw [hlastBlock, hdone]
  change (if _ then _ else _ : Pass (Option NodeId)).run g = _
  rw [if_neg (by rw [hjump]; simp), run_bind_ok hfalls, run_bind_ok hrun,
    run_bind_ok (cutJump_run ..), run_modify_bind, run_add_bind, run_modify_bind, run_modify_bind,
    run_modify_bind, run_modify_bind, hfirst, List.range_succ_eq_map]
  rfl

end


/-! ## The chain folded -/

/-- The graph of a chain with its operands under one node. The root has the number after all blocks,
then comes the node of the chain. -/
structure Chained (op : Logic) (terms : List Term) (last : List Instr) (store exit : Instr)
    (code : CodeEntry) (g : Graph) : Prop where
  size : g.nodes.size = terms.length + 6
  root : g.root? = some (terms.length + 4)
  kind_root : ∃ blocks, (g.node (terms.length + 4)).kind =
    .fragment code.name code.argumentCount blocks
  children_root : (g.node (terms.length + 4)).children = [some (terms.length + 5)]
  kind_node : (g.node (terms.length + 5)).kind = .shortCircuit op
  succs_node : (g.node (terms.length + 5)).succs = [terms.length + 2]
  children_node : (g.node (terms.length + 5)).children = (List.range (terms.length + 1)).map some
  operand : ∀ (j : Nat) is, (terms.map Term.operand ++ [last])[j]? = some is →
    (g.node j).kind = .block is ∧ (g.node j).succs = []
  stored : (g.node (terms.length + 2)).kind = .block [store, exit] ∧
    (g.node (terms.length + 2)).succs = [terms.length + 3]
  ended : (g.node (terms.length + 3)).kind = .block [] ∧ (g.node (terms.length + 3)).succs = []

section

variable {op : Logic} {operands : List NodeId} {start stop : Nat} {done : NodeId} {g : Graph}

theorem size_hung : (hung operands op start stop done g).nodes.size = g.nodes.size + 1 := by
  rw [hung, setChildren_keeps (·.nodes.size) (fun _ _ _ => size_setChild ..)]
  simp

theorem fragments_hung : (hung operands op start stop done g).fragments = g.fragments := by
  rw [hung, setChildren_keeps (·.fragments) (fun _ _ _ => fragments_setChild ..),
    fragments_replaceInParent]
  exact Loops.fragments_redirectPredecessors ..

theorem kind_hung (x : NodeId) : ((hung operands op start stop done g).node x).kind =
    if x = g.nodes.size then .shortCircuit op else (g.node x).kind := by
  rw [← gist_kind, hung, setChildren_keeps (·.gist x) (fun _ _ _ => gist_setChild ..),
    gist_replaceInParent, gist_connect, gist_redirectPredecessors, gist_kind, node_add]
  split <;> rfl

/-- Nothing leads to the first operand, so no edges move. -/
theorem succs_hung (hs : g.Sound) (hpos : 0 < g.nodes.size) (hfirst : ∀ x, 0 ∉ (g.node x).succs)
    (x : NodeId) : ((hung operands op start stop done g).node x).succs =
      if x = g.nodes.size then [done] else (g.node x).succs := by
  have hadd : ∀ x, ((g.add (.ofKind (.shortCircuit op) start stop operands.length)).node x).succs =
      (g.node x).succs := by
    intro x
    rw [node_add]
    split
    · rename_i hx
      rw [hx, node_of_size_le (Nat.le_refl _)]
      rfl
    · rfl
  have hsound : (g.add (.ofKind (.shortCircuit op) start stop operands.length)).Sound :=
    hs.add rfl rfl rfl fun _ hc => List.eq_of_mem_replicate hc
  have hface := Loops.face_redirect_of_quiet hsound (Nat.ne_of_lt hpos) (p := fun _ => true)
    (fun x _ => (hadd x).symm ▸ hfirst x) x
  have hredirect := congrArg Node.succs hface
  rw [succs_face, succs_face, hadd] at hredirect
  rw [hung, setChildren_keeps (fun g => (g.node x).succs) (fun _ _ _ => succs_setChild ..),
    succs_replaceInParent, succs_connect (by simp), hredirect]
  split
  · rename_i hx
    rw [hx, node_of_size_le (Nat.le_refl _)]
    rfl
  · exact List.append_nil _

/-- The node takes the place of the first operand in its parent, and holds all of them. -/
theorem children_hung (hparent : (g.node 0).parent ≠ some g.nodes.size) (hpos : 0 < g.nodes.size)
    (x : NodeId) : ((hung operands op start stop done g).node x).children =
      if x = g.nodes.size then operands.map some
      else if (g.node 0).parent = some x then
        (g.node x).children.map fun c => if c == some 0 then some g.nodes.size else c
      else (g.node x).children := by
  let joined := ((g.add (.ofKind (.shortCircuit op) start stop operands.length)).redirectPredecessors
    0 g.nodes.size fun _ => true).connect g.nodes.size done
  have hbare : ∀ x, (joined.node x).bare =
      ((g.add (.ofKind (.shortCircuit op) start stop operands.length)).node x).bare := fun x =>
    (bare_connect ..).trans (bare_redirectPredecessors ..)
  have hfirst : (joined.node 0).parent = (g.node 0).parent := by
    rw [parent_of_bare (hbare 0), node_add, if_neg (Nat.ne_of_lt hpos)]
  have hreplaced : ∀ x, ((joined.replaceInParent 0 g.nodes.size).node x).children =
      if (g.node 0).parent = some x then (if x = g.nodes.size then
          List.replicate operands.length none else (g.node x).children).map fun c =>
            if c == some 0 then some g.nodes.size else c
      else if x = g.nodes.size then List.replicate operands.length none
      else (g.node x).children := by
    intro x
    have hchildren : (joined.node x).children = if x = g.nodes.size then
        List.replicate operands.length none else (g.node x).children := by
      rw [Node.children_of_bare (hbare x), node_add]
      split <;> rfl
    rw [children_replaceInParent_eq, hfirst, hchildren]
  change (((joined.replaceInParent 0 g.nodes.size).setChildren g.nodes.size operands).node
    x).children = _
  by_cases hx : x = g.nodes.size
  · subst hx
    rw [if_pos rfl]
    refine children_setChildren_self (by simp [joined]) ?_
    rw [hreplaced, if_neg hparent, if_pos rfl]
  · rw [if_neg hx, setChildren_keeps (fun g => (g.node x).children)
      (fun _ _ _ => children_setChild_of_ne hx ..), hreplaced, if_neg hx]

end

section

variable (terms : List Term) (last : List Instr) (skip result store exit : Instr)

/-- The blocks without their jumps: the operands, the result, what stores it and the end. -/
def opened : List Cell :=
  (terms.map Term.operand ++ [last, [result]]).map (⟨·, none, []⟩) ++
    [⟨[store], some exit, [terms.length + 3]⟩, ⟨[], none, []⟩]

theorem length_opened : (opened terms last result store exit).length = terms.length + 4 := by
  simp [opened]

theorem opened_operand {j : Nat} {is : List Instr}
    (h : (terms.map Term.operand ++ [last])[j]? = some is) :
    (opened terms last result store exit)[j]? = some ⟨is, none, []⟩ := by
  have hlt : j < (terms.map Term.operand ++ [last]).length := (List.getElem?_eq_some_iff.mp h).1
  have hsplit : opened terms last result store exit =
      (terms.map Term.operand ++ [last]).map (⟨·, none, []⟩) ++ [⟨[result], none, []⟩,
        ⟨[store], some exit, [terms.length + 3]⟩, ⟨[], none, []⟩] := by simp [opened]
  rw [hsplit, List.getElem?_append_left (by simpa using hlt), List.getElem?_map, h]
  rfl

theorem opened_store : (opened terms last result store exit)[terms.length + 2]? =
    some ⟨[store], some exit, [terms.length + 3]⟩ := by
  simp [opened]

theorem opened_end : (opened terms last result store exit)[terms.length + 3]? =
    some ⟨[], none, []⟩ := by
  simp [opened]

/-- Nothing leads to the first block. -/
theorem not_mem_nexts_opened {c : Cell} (hc : c ∈ opened terms last result store exit) :
    0 ∉ c.nexts := by
  rcases List.mem_append.mp hc with hc | hc
  · obtain ⟨is, -, rfl⟩ := List.mem_map.mp hc
    exact List.not_mem_nil
  · simp only [List.mem_cons, List.not_mem_nil, or_false] at hc
    rcases hc with rfl | rfl <;> simp

theorem cutFirst_wired : cutFirst (terms.length + 2) (wired terms last skip result store exit) =
    opened terms last result store exit := by
  have hfront : ((deciding terms).mapIdx fun j (c : Cell) =>
      if j < terms.length + 2 then (⟨c.straight, none, []⟩ : Cell) else c) =
        (terms.map Term.operand).map (⟨·, none, []⟩) := by
    refine List.ext_getElem? fun j => ?_
    rw [List.getElem?_mapIdx, deciding, List.getElem?_mapIdx, List.map_map, List.getElem?_map]
    cases ht : terms[j]? with
    | none => rfl
    | some t =>
      have hlt : j < terms.length := (List.getElem?_eq_some_iff.mp ht).1
      have hcut : j < terms.length + 2 := Nat.lt_add_right 2 hlt
      simp [hcut]
  rw [cutFirst, wired, List.mapIdx_append, hfront, length_deciding, opened]
  simp
  omega

end

section

variable {op : Logic} {terms : List Term} {last : List Instr} {skip result store exit : Instr}
  {code : CodeEntry} {g g₁ : Graph} {start stop : Nat}
  (hp : Planted (cells terms last skip result store exit) code g)
  (hshows : Shows (opened terms last result store exit) g g₁)
include hp hshows

theorem size_opened : g₁.nodes.size = terms.length + 5 := by
  rw [hshows.size, hp.size, length_cells]

theorem not_mem_succs_opened (x : NodeId) : 0 ∉ (g₁.node x).succs := by
  rcases Nat.lt_or_ge x (opened terms last result store exit).length with hlt | hge
  · rw [hshows.succs_eq (List.getElem?_eq_getElem hlt)]
    exact not_mem_nexts_opened _ _ _ _ _ (List.getElem_mem hlt)
  · rw [(Loops.bare_beyond hp hshows (by rw [length_opened, length_cells]) hge).1]
    exact List.not_mem_nil

theorem parent_opened (hne : terms ≠ []) : (g₁.node 0).parent = some (terms.length + 4) := by
  obtain ⟨t, rest, hterms⟩ := List.exists_cons_of_ne_nil hne
  have hzero : terms[0]? = some t := by rw [hterms]; rfl
  have hcell : (opened terms last result store exit)[0]? = some ⟨t.operand, none, []⟩ :=
    opened_operand _ _ _ _ _ (by simp [hterms])
  rw [← parent_face, hshows.cell 0 _ hcell, hp.face 0 _ (cells_term _ _ _ _ _ _ hzero), if_pos rfl,
    length_cells]

/-- A node that is neither that of the chain nor the root is a block as it was left. -/
theorem block_hung (op : Logic) (start stop : Nat) {j : Nat} {c : Cell}
    (hc : (opened terms last result store exit)[j]? = some c) :
    let g' := hung (List.range (terms.length + 1)) op start stop (terms.length + 2) g₁
    (g'.node j).kind = .block c.instrs ∧ (g'.node j).succs = c.nexts := by
  have hsize := size_opened hp hshows
  have hlt : j < (opened terms last result store exit).length := (List.getElem?_eq_some_iff.mp hc).1
  rw [length_opened] at hlt
  have hne : j ≠ g₁.nodes.size := by omega
  refine ⟨?_, ?_⟩
  · rw [kind_hung, if_neg hne, ← kind_face, hshows.cell j c hc]
  · rw [succs_hung hshows.sound (by omega) (not_mem_succs_opened hp hshows), if_neg hne,
      hshows.succs_eq hc]

theorem hung_chained (op : Logic) (start stop : Nat) (hne : terms ≠ []) :
    Chained op terms last store exit code (hung (List.range (terms.length + 1)) op start stop (terms.length + 2) g₁) := by
  have hsize := size_opened hp hshows
  have hpos : 0 < g₁.nodes.size := by omega
  have hparent := parent_opened hp hshows hne
  have hroot : g₁.face (terms.length + 4) = { start := 0, stop := code.length, children := [some 0]
                                              kind := .fragment code.name code.argumentCount
                                                (List.range (terms.length + 4)) } := by
    have hrooted := hp.root
    rw [length_cells] at hrooted
    rw [hshows.other _ (Nat.le_of_eq (length_opened ..)), hrooted]
  have hold : terms.length + 4 ≠ g₁.nodes.size := by omega
  have hown : (g₁.node 0).parent ≠ some g₁.nodes.size := by
    rw [hparent]
    exact fun he => hold (Option.some.inj he)
  refine ⟨?_, ?_, ⟨List.range (terms.length + 4), ?_⟩, ?_, ?_, ?_, ?_, fun j is hj => ?_, ?_, ?_⟩
  · rw [size_hung, hsize]
  · rw [root?, fragments_hung, hshows.fragments, hp.fragments, length_cells]
    rfl
  · rw [kind_hung, if_neg hold, ← kind_face, hroot]
  · rw [children_hung hown hpos, if_neg hold, if_pos hparent, ← children_face, hroot, hsize]
    rfl
  · rw [← hsize, kind_hung, if_pos rfl]
  · rw [← hsize, succs_hung hshows.sound hpos (not_mem_succs_opened hp hshows), if_pos rfl]
  · rw [← hsize, children_hung hown hpos, if_pos rfl]
  · have hblock := block_hung hp hshows op start stop (opened_operand _ _ _ _ _ hj)
    rwa [Cell.instrs, Option.toList_none, List.append_nil] at hblock
  · exact block_hung hp hshows op start stop (opened_store ..)
  · exact block_hung hp hshows op start stop (opened_end ..)

/-- No jumps are left. -/
theorem hung_settled {is : List Instr}
    (h : ChainCode op terms last skip result store exit is)
    (hterms : ∀ t ∈ terms, ∀ i ∈ t.operand, i.Computes) (hlast : ∀ i ∈ last, i.Computes) :
    (hung (List.range (terms.length + 1)) op start stop (terms.length + 2) g₁).Settled := by
  have hplain : ∀ {i : Instr}, i.Computes → i.opcode.isBranch = false ∧
      i.isCallTo Hook.try_ = false := fun hi => ⟨Instr.isBranch_eq_false hi.endsBlock, hi.hook⟩
  have hbefore : g₁.Settled := by
    refine Loops.settled_of_shows hp hshows (by rw [length_opened, length_cells]) fun c hc i hi => ?_
    rcases List.mem_append.mp hc with hc | hc
    · obtain ⟨is, his, rfl⟩ := List.mem_map.mp hc
      have hi : i ∈ is := by simpa [Cell.instrs] using hi
      rcases List.mem_append.mp his with his | his
      · obtain ⟨t, ht, rfl⟩ := List.mem_map.mp his
        exact hplain (hterms t ht i hi)
      · simp only [List.mem_cons, List.not_mem_nil, or_false] at his
        rcases his with rfl | rfl
        · exact hplain (hlast i hi)
        · rw [List.mem_singleton.mp hi]
          simp [Instr.isCallTo, h.pushes.1, Opcode.isBranch]
    · simp only [List.mem_cons, List.not_mem_nil, or_false] at hc
      rcases hc with rfl | rfl
      · simp only [Cell.instrs, Option.toList_some, List.mem_append, List.mem_singleton] at hi
        rcases hi with rfl | rfl
        · simp [Instr.isCallTo, h.stores, Opcode.isBranch]
        · simp [Instr.isCallTo, h.exits, Opcode.isBranch]
      · cases hi
  intro x i hi
  refine hbefore x i ?_
  rw [Graph.instrs, Node.instrs, kind_hung] at hi
  rw [Graph.instrs, Node.instrs]
  by_cases hx : x = g₁.nodes.size
  · rw [if_pos hx] at hi
    cases hi
  · rw [if_neg hx] at hi
    exact hi

end

section

variable {op : Logic} {terms : List Term} {last : List Instr} {skip result store exit : Instr}
  {code : CodeEntry} {g : Graph}

theorem fold_idle {block : NodeId} (hlast : ∀ i, g.lastInstr? block = some i → i.opcode ≠ .push) :
    (fold block).run g = .ok none g := by
  have hnone : result? g block = none := by
    unfold result?
    split
    · rename_i i hi
      have hop := hlast i (by rw [lastInstr?, hi]; rfl)
      rw [if_neg fun hpush => hop hpush.1]
    · rfl
  rw [fold, run_get_bind, hnone]
  rfl

/-- The pass folds the chain and nothing else. -/
theorem findShortCircuits_run (h : ChainCode op terms last skip result store exit code.instrs)
    (hlaid : Sketches (cells terms last skip result store exit) code)
    (hp : Planted (cells terms last skip result store exit) code g)
    (hterms : ∀ t ∈ terms, ∀ i ∈ t.operand, i.Computes) (hlast : ∀ i ∈ last, i.Computes) :
    ∃ g', findShortCircuits.run g = .ok [terms.length + 5] g' ∧
      Chained op terms last store exit code g' ∧ g'.Settled := by
  obtain ⟨g₁, hshows, hfold⟩ := fold_run h hlaid hp
  rw [cutFirst_wired] at hshows
  have hchained := hung_chained hp hshows op (g.node 0).start (g.node (terms.length + 2)).start
    h.several
  rw [size_opened hp hshows] at hfold
  refine ⟨_, ?_, hchained, hung_settled hp hshows h hterms hlast⟩
  have hblocks : g.blocks = List.range (terms.length + 1) ++ (terms.length + 1) ::
      [terms.length + 2, terms.length + 3] := by
    rw [hp.blocks, length_cells, List.range_succ, List.range_succ, List.range_succ]
    simp
  rw [findShortCircuits, run_get_bind, hblocks]
  refine run_collect_lone (fun x hx => fold_idle fun i hi => ?_) hfold fun x hx =>
    fold_idle fun i hi => ?_
  · have hx : x < terms.length + 1 := List.mem_range.mp hx
    rcases Nat.lt_or_eq_of_le (Nat.le_of_lt_succ hx) with hlt | rfl
    · have ht := List.getElem?_eq_getElem hlt
      rw [hp.lastInstr?_closing (cells_term _ _ _ _ _ _ ht) rfl] at hi
      cases hi
      rw [(h.decides _ (List.getElem_mem hlt)).1]
      cases op <;> simp [jumpOf]
    · rw [hp.lastInstr?_closing (cells_last ..) rfl] at hi
      cases hi
      simp [h.skips]
  · simp only [List.mem_cons, List.not_mem_nil, or_false] at hx
    rcases hx with rfl | rfl
    · rw [lastInstr?, Graph.instrs, Node.instrs, hchained.stored.1] at hi
      cases hi
      simp [h.exits]
    · rw [lastInstr?, Graph.instrs, Node.instrs, hchained.ended.1] at hi
      cases hi

/-- The analysis folds the chain. -/
theorem ChainCode.analyze_eq (h : ChainCode op terms last skip result store exit code.instrs)
    (hcode : code.Single) (hterms : ∀ t ∈ terms, ∀ i ∈ t.operand, i.Computes)
    (hlast : ∀ i ∈ last, i.Computes) (layout : TryCatch.Layout) :
    ∃ g, analyze code layout = .ok g ∧ Chained op terms last store exit code g := by
  have hlaid := h.sketches hcode hterms hlast
  have hunsought := h.unsought hcode hterms hlast
  obtain ⟨base, g, hbase, hfound, hp⟩ := hlaid.exists_planted (by simp [cells])
  obtain ⟨g', hfold, hchained, hsettled⟩ := findShortCircuits_run h hlaid hp hterms hlast
  refine ⟨g', ?_, hchained⟩
  have hrun : (foldConstructs code layout).run base = .ok () g' := by
    rw [foldConstructs, run_bind_ok hfound, run_bind_ok (hp.findStaticInits_unsought hunsought),
      run_bind_ok (hp.findNullish_unsought hunsought),
      run_bind_ok (hp.findLoops_unsought hunsought), run_bind_ok hfold,
      run_bind_ok (hsettled.findTryCatch layout), run_bind_ok hsettled.findSwitches,
      run_bind_ok hsettled.findBranches]
    rfl
  exact analyze_of_run hbase hrun

end

end ShortCircuit
end GmlLift
