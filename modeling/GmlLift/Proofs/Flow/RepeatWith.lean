import GmlLift.Proofs.Flow.LoopLayouts

/-! # The layouts of `repeat` and `with`

Both have a block of their own before the body: the one that checks the counter, and the one that
enters the target. A `with` whose body breaks has a second end, which drops the target. -/
namespace GmlLift

open GmlLift.Graph Cell Pass

/-- The instruction pushes a whole number. -/
def Instr.Pushes (i : Instr) (n : Int) : Prop := i.opcode.isPush = true ∧ i.intValue? = some n

theorem Instr.Pushes.ordinary {i : Instr} {n : Int} (h : i.Pushes n) : i.Ordinary := by
  obtain ⟨hpush, -⟩ := h
  refine ordinary_of_opcode ?_ (fun hop => ?_) fun hop => ?_
  · obtain ⟨_, op, _, _, _, _⟩ := i
    cases op <;> first | rfl | cases hpush
  · rw [hop] at hpush
    cases hpush
  · rw [hop] at hpush
    cases hpush

namespace Loops

/-- Where the second block starts. -/
theorem startOf_one (c : Cell) (cells : List Cell) :
    startOf (c :: cells) 1 = endFrom 0 c.instrs := startOf_succ rfl

/-! ## Repeat -/

/-- A copy of the counter is compared with zero. -/
def ChecksCounter (is : List Instr) : Prop := ∃ copy zero compare : Instr,
  is = [copy, zero, compare] ∧ copy.opcode = .dup ∧ zero.Pushes 0 ∧ compare.opcode = .cmp ∧
    compare.comparison? = some .lessEqual

/-- The counter is lowered by one, and a copy of it is made a truth value. -/
def LowersCounter (is : List Instr) : Prop := ∃ one sub copy truth : Instr,
  is = [one, sub, copy, truth] ∧ one.Pushes 1 ∧ sub.opcode = .sub ∧ copy.opcode = .dup ∧
    truth.opcode = .conv

theorem ChecksCounter.ordinary {is : List Instr} (h : ChecksCounter is) : ∀ i ∈ is, i.Ordinary := by
  obtain ⟨copy, zero, compare, rfl, hcopy, hzero, hcompare, -⟩ := h
  intro i hi
  simp only [List.mem_cons, List.not_mem_nil, or_false] at hi
  rcases hi with rfl | rfl | rfl
  · exact Instr.ordinary_of_opcode (by rw [Instr.endsBlock, hcopy]) (by simp [hcopy]) (by simp [hcopy])
  · exact hzero.ordinary
  · exact Instr.ordinary_of_opcode (by rw [Instr.endsBlock, hcompare]) (by simp [hcompare])
      (by simp [hcompare])

theorem LowersCounter.ordinary {is : List Instr} (h : LowersCounter is) : ∀ i ∈ is, i.Ordinary := by
  obtain ⟨one, sub, copy, truth, rfl, hone, hsub, hcopy, htruth⟩ := h
  intro i hi
  simp only [List.mem_cons, List.not_mem_nil, or_false] at hi
  rcases hi with rfl | rfl | rfl | rfl
  · exact hone.ordinary
  · exact Instr.ordinary_of_opcode (by rw [Instr.endsBlock, hsub]) (by simp [hsub]) (by simp [hsub])
  · exact Instr.ordinary_of_opcode (by rw [Instr.endsBlock, hcopy]) (by simp [hcopy]) (by simp [hcopy])
  · exact Instr.ordinary_of_opcode (by rw [Instr.endsBlock, htruth]) (by simp [htruth])
      (by simp [htruth])

/-- Code around a `repeat`: the count is checked before the body and lowered after it. -/
structure RepeatCode (pre key check : List Instr) (skip : Instr) (body lower : List Instr)
    (back drop exit : Instr) (is : List Instr) : Prop where
  instrs : is = pre ++ key ++ check ++ [skip] ++ body ++ lower ++ [back, drop, exit]
  checks : ChecksCounter check
  skips : skip.opcode = .bt ∧ skip.target? = some drop.address
  lowers : LowersCounter lower
  returns : back.opcode = .bt ∧ back.target? = some (endFrom 0 (pre ++ key ++ check ++ [skip]))
  drops : drop.opcode = .popz
  exits : exit.opcode = .exit

namespace RepeatCode

section

variable (pre key check : List Instr) (skip : Instr) (body lower : List Instr)
  (back drop exit : Instr)

def cells : List Cell :=
  [⟨pre ++ key ++ check, some skip, [1, 2]⟩, ⟨body ++ lower, some back, [2, 1]⟩,
    ⟨[drop], some exit, []⟩]

/-- The blocks with the empty one at the end, which hangs after the exit. -/
def wired : List Cell :=
  [⟨pre ++ key ++ check, some skip, [1, 2]⟩, ⟨body ++ lower, some back, [2, 1]⟩,
    ⟨[drop], some exit, [3]⟩, ⟨[], none, []⟩]

/-- The blocks without the loop's own code and edges. -/
def trimmed : List Cell :=
  [⟨pre ++ key, none, [1]⟩, ⟨body, none, []⟩, ⟨[], some exit, [3]⟩, ⟨[], none, []⟩]

def candidate : Candidate :=
  { kind := .repeatLoop, head := 1, tail := 1, next := 2, before := some 0 }

theorem startOf_body : startOf (cells pre key check skip body lower back drop exit) 1 =
    endFrom 0 (pre ++ key ++ check ++ [skip]) := startOf_one ..

end

variable {pre key check : List Instr} {skip : Instr} {body lower : List Instr}
  {back drop exit : Instr} {code : CodeEntry}
  (h : RepeatCode pre key check skip body lower back drop exit code.instrs)
include h

theorem outlines (hcode : code.Single) (hord : ∀ i ∈ pre ++ key ++ body, i.Ordinary) :
    Outlines (cells pre key check skip body lower back drop exit) code ∧
      ∀ c ∈ cells pre key check skip body lower back drop exit, ∀ i ∈ c.straight, i.Ordinary := by
  have hcells : code.instrs = Cell.code (cells pre key check skip body lower back drop exit) := by
    rw [h.instrs]
    simp [cells, Cell.code, Cell.instrs]
  have hhead := startOf_body pre key check skip body lower back drop exit
  have hstop : startOf (cells pre key check skip body lower back drop exit) 2 = drop.address :=
    startOf_eq_address (c := ⟨[drop], some exit, []⟩) (hcells ▸ hcode.contiguous) rfl rfl
  refine hcode.outlines hcells ⟨?_, ?_, ?_, trivial⟩
  · refine ⟨by simp [Cell.instrs], fun i hi => ?_,
      ends_twoWay rfl rfl (by simp [h.skips]) (by rw [h.skips.2, hstop]) rfl, by simp [cells]⟩
    rcases List.mem_append.mp hi with hi | hi
    · exact hord i (List.mem_append_left _ hi)
    · exact h.checks.ordinary i hi
  · refine ⟨by simp [Cell.instrs], fun i hi => ?_,
      ends_twoWay rfl rfl (by simp [h.returns]) (by rw [h.returns.2, hhead]) rfl, by simp [cells]⟩
    rcases List.mem_append.mp hi with hi | hi
    · exact hord i (List.mem_append_right _ hi)
    · exact h.lowers.ordinary i hi
  · refine ⟨by simp [Cell.instrs], fun i hi => ?_, ends_exit rfl h.exits rfl, by simp⟩
    rw [List.mem_singleton.mp hi]
    exact Instr.ordinary_of_opcode (by rw [Instr.endsBlock, h.drops]) (by simp [h.drops])
      (by simp [h.drops])

variable {g : Graph}
  (hlaid : Outlines (cells pre key check skip body lower back drop exit) code)
  (hp : Planted (cells pre key check skip body lower back drop exit) code g)
include hlaid hp

theorem candidates_eq : candidates g = .ok [candidate] := by
  have hhead := startOf_body pre key check skip body lower back drop exit
  have hstop : startOf (cells pre key check skip body lower back drop exit) 2 = drop.address :=
    startOf_eq_address hlaid.contiguous_code (c := ⟨[drop], some exit, []⟩) rfl rfl
  refine hp.candidates_eq hlaid.endsBlock (t := 1) rfl rfl (k := .repeatLoop) ?_ h.returns.2
    ⟨fun i hi _ => ?_, fun i hi hne => ?_, fun i hi _ => ?_, trivial⟩ ?_
  · obtain ⟨one, sub, copy, truth, rfl, -⟩ := h.lowers
    have hback := (closing_bounds hlaid (j := 1) rfl rfl).2.2 (by simp)
    rw [hhead] at hback
    rw [kind?, h.returns.1]
    simp [offset_neg h.returns.2 hback]
  · cases hi
    have hskip := lt_startOf hlaid (j := 0) (k := 2) rfl rfl (by decide) (by simp [cells])
    rw [hstop] at hskip
    exact kind?_ahead (by simp [h.skips]) h.skips.2 hskip
  · exact absurd rfl hne
  · cases hi
    exact kind?_exit h.exits
  · have hbefore : g.blocksBefore 1 = [0] := blocksBefore_range hp.blocks (by simp [cells])
    rw [candidateAt, if_neg (by decide), ← hhead, jumpCandidate,
      hp.blockAt?_startOf hlaid (by simp [cells]), nextBlock?_eq hp (by simp [cells])]
    simp only [need, ok_bind, hbefore]
    rfl

omit h hlaid in
theorem shows_wired : Shows (wired pre key check skip body lower back drop exit) g g := by
  refine shows_of_faces hp ⟨?_, ?_, ?_, face_of_last hp, trivial⟩
  · exact face_of_entered hp rfl ⟨_, List.mem_cons_self, by simp⟩
  · exact face_of_entered hp rfl ⟨_, List.mem_cons_self, by simp⟩
  · refine face_of_dead hp (c := ⟨[drop], some exit, []⟩) rfl ?_
    rintro ⟨c, hc, hk⟩
    simp only [cells, List.mem_cons, List.not_mem_nil, or_false] at hc
    rcases hc with rfl | rfl | rfl <;> simp at hk

omit hlaid in
/-- The loop's own code and edges are taken out. -/
theorem strip_run : ∃ info g₁, (strip candidate).run g = .ok (info, 1) g₁ ∧
    Shows (trimmed pre key body exit) g g₁ ∧ info.kind = .repeatLoop := by
  have hsize : 4 ≤ g.nodes.size := by
    rw [hp.size]
    simp [cells]
  have hwired := shows_wired hp
  obtain ⟨copy, zero, compare, rfl, hcopy, hzero, -, hcompare⟩ := h.checks
  obtain ⟨one, sub, again, truth, rfl, -⟩ := h.lowers
  have hcheck : isCounterCheck g 0 = true := by
    rw [isCounterCheck, hwired.instrs_eq (j := 0) rfl]
    simp [Cell.instrs, hcopy, hzero.2, hcompare, h.skips.1]
  have htail : 5 ≤ (g.instrs 1).length := by
    rw [hwired.instrs_eq (j := 1) rfl]
    simp [Cell.instrs]
  have hchecked := hwired.cutEdge hsize (j := 0) rfl (d := ⟨pre ++ key, none, [1]⟩)
    [copy, zero, compare, skip] (t := 2) (by simp [Cell.instrs]) rfl rfl
  have hlowered := hchecked.cutBlock hsize (j := 1) rfl (d := ⟨body, none, []⟩)
    [one, sub, again, truth, back] (by simp [Cell.instrs]) rfl rfl
  have hdropped := hlowered.dropCounter hsize (j := 2) (c := ⟨[drop], some exit, [3]⟩)
    (d := ⟨[], some exit, [3]⟩) rfl rfl h.drops rfl rfl
  exact ⟨_, _, strip_repeat rfl rfl hcheck htail, hdropped, rfl⟩

omit hlaid hp in
/-- The analysis folds the loop. -/
theorem analyze_eq (hcode : code.Single) (hord : ∀ i ∈ pre ++ key ++ body, i.Ordinary)
    (layout : TryCatch.Layout) : ∃ g info, analyze code layout = .ok g ∧
      Folded (trimmed pre key body exit) code candidate info 1 g ∧ info.kind = .repeatLoop := by
  obtain ⟨hlaid, hplain⟩ := h.outlines hcode hord
  obtain ⟨base, g, hbase, hfound, hp⟩ := exists_planted hlaid (by simp [cells])
  obtain ⟨info, g₁, hstrip, hshows, hinfo⟩ := h.strip_run hp
  have hquiet : EachFrom (fun j d => candidate.head ≤ j → j < candidate.next →
      ∀ t, breakTarget? candidate = some t ∨ t = candidate.head → t ∉ d.nexts) 0
      (trimmed pre key body exit) :=
    ⟨fun hlow => absurd hlow (by decide), fun _ _ _ _ => List.not_mem_nil,
      fun _ hhigh => absurd hhigh (by decide), fun _ _ _ _ => List.not_mem_nil, trivial⟩
  have htrimmed : Cell.code (trimmed pre key body exit) = pre ++ key ++ body ++ [exit] := by
    simp [trimmed, Cell.code, Cell.instrs]
  obtain ⟨g', hrun, hfolded⟩ := exists_folded hbase hfound hp hlaid hplain
    (h.candidates_eq hlaid hp) hstrip hshows rfl (by decide) (by simp [cells, candidate])
    (fun t ht => by cases ht; simp [cells, candidate]) hquiet.getElem? (settled_of_code htrimmed hord h.exits)
    layout
  exact ⟨g', info, hrun, hfolded, hinfo⟩

end RepeatCode

/-! ## With

Both forms of `with` begin alike: the block that enters the target leads to the body and past it. -/

section

variable {pre key body : List Instr} {enter leave : Instr} {cells : List Cell} {tail : Nat}

theorem code_cons_lead (c : Cell) (is : List Instr) (next : Nat) (cells : List Cell) :
    Cell.code (c :: (lead is next ++ cells)) = c.instrs ++ (is ++ Cell.code cells) := by
  rw [← code_lead_append is next cells]
  rfl

theorem fits_enter (hord : ∀ i ∈ pre ++ key ++ body, i.Ordinary)
    (hcell : cells[0]? = some ⟨pre ++ key, some enter, [1, tail]⟩)
    (hop : enter.opcode = .pushEnv) (ht : enter.target? = some (startOf cells tail))
    (hone : 1 ≤ cells.length) (htail : tail ≤ cells.length) :
    Cell.Fits cells 0 ⟨pre ++ key, some enter, [1, tail]⟩ := by
  refine ⟨by simp [Cell.instrs], fun i hi => hord i (List.mem_append_left _ hi),
    ends_twoWay hcell rfl (by simp [hop]) ht rfl, fun k hk => ?_⟩
  simp only [List.mem_cons, List.not_mem_nil, or_false] at hk
  rcases hk with rfl | rfl
  · exact hone
  · exact htail

/-- The body ends where the jump past it leads. -/
theorem fits_body (hord : ∀ i ∈ pre ++ key ++ body, i.Ordinary)
    (hcell : ⟨pre ++ key, some enter, [1, 2]⟩ ∈ cells) (hop : enter.opcode = .pushEnv)
    (ht : enter.target? = some (startOf cells 2)) (htwo : 2 ≤ cells.length) (hbody : body ≠ []) :
    Cell.Fits cells 1 ⟨body, none, [2]⟩ := by
  refine ⟨by simpa [Cell.instrs] using hbody, fun i hi => hord i (List.mem_append_right _ hi),
    ends_open rfl rfl fun _ => ⟨_, hcell, enter, rfl, by simp [Instr.jumps, hop], ht⟩, ?_⟩
  simpa using htwo

/-- The end leads back to the body. -/
theorem fits_leave (hcell : cells[tail]? = some ⟨[], some leave, [tail + 1]⟩)
    (hop : leave.opcode = .popEnv) (ht : leave.target? = some (startOf cells 1))
    (hone : 1 ≤ cells.length) (htail : tail + 1 ≤ cells.length) :
    Cell.Fits cells tail ⟨[], some leave, [tail + 1]⟩ := by
  refine ⟨by simp [Cell.instrs], by simp,
    ends_popEnv hcell rfl hop (fun t ht' => ⟨1, hone, ?_⟩) rfl, by simpa using htail⟩
  rw [ht] at ht'
  exact (Option.some.inj ht').symm

/-- The jump into the target is taken out, and with it the edge past the body. -/
theorem shows_cutEnter {rest : List Cell} {g : Graph}
    (h : Shows (⟨pre ++ key, some enter, [1, (lead body 2).length + 1]⟩ :: rest) g g)
    (hsize : rest.length + 1 ≤ g.nodes.size) : Shows (⟨pre ++ key, none, [1]⟩ :: rest) g
      ((g.stripLast 0 1).disconnect 0 ((lead body 2).length + 1)) := by
  have hnexts : [1] = [1, (lead body 2).length + 1].erase ((lead body 2).length + 1) := by
    rcases Nat.le_one_iff_eq_zero_or_eq_one.mp (length_lead_le body 2) with hzero | hone
    · rw [hzero]
      rfl
    · rw [hone]
      rfl
  have hcut := h.cutEdge hsize (j := 0) rfl (d := ⟨pre ++ key, none, [1]⟩) [enter]
    (t := (lead body 2).length + 1) (by simp [Cell.instrs]) rfl hnexts
  exact hcut

end

/-- Code around a `with`: its end leads back to the body for the next instance. -/
structure WithCode (pre key : List Instr) (enter : Instr) (body : List Instr) (leave exit : Instr)
    (is : List Instr) : Prop where
  instrs : is = pre ++ key ++ [enter] ++ body ++ [leave, exit]
  enters : enter.opcode = .pushEnv ∧ enter.target? = some leave.address
  returns : leave.opcode = .popEnv ∧ leave.target? = some (endFrom 0 (pre ++ key ++ [enter]))
  exits : exit.opcode = .exit

namespace WithCode

section

variable (pre key : List Instr) (enter : Instr) (body : List Instr) (leave exit : Instr)

def cells : List Cell :=
  let tail := (lead body 2).length + 1
  ⟨pre ++ key, some enter, [1, tail]⟩ :: (lead body 2 ++
    [⟨[], some leave, [tail + 1]⟩, ⟨[], some exit, []⟩])

/-- The blocks with the empty one at the end, which hangs after the exit. -/
def wired : List Cell :=
  let tail := (lead body 2).length + 1
  ⟨pre ++ key, some enter, [1, tail]⟩ :: (lead body 2 ++
    [⟨[], some leave, [tail + 1]⟩, ⟨[], some exit, [tail + 2]⟩, ⟨[], none, []⟩])

/-- The blocks without the loop's own code and edges. -/
def trimmed : List Cell :=
  let tail := (lead body 2).length + 1
  ⟨pre ++ key, none, [1]⟩ :: (lead body 2 ++
    [⟨[], none, []⟩, ⟨[], some exit, [tail + 2]⟩, ⟨[], none, []⟩])

def candidate : Candidate :=
  let tail := (lead body 2).length + 1
  { kind := .withLoop, head := 1, tail, next := tail + 1, before := some 0 }

theorem length_cells : (cells pre key enter body leave exit).length = (lead body 2).length + 3 := by
  simp [cells]

theorem cells_leave : (cells pre key enter body leave exit)[(lead body 2).length + 1]? =
    some ⟨[], some leave, [(lead body 2).length + 2]⟩ := by
  simp [cells]

theorem cells_exit : (cells pre key enter body leave exit)[(lead body 2).length + 2]? =
    some ⟨[], some exit, []⟩ := by
  simp [cells]

theorem startOf_body : startOf (cells pre key enter body leave exit) 1 =
    endFrom 0 (pre ++ key ++ [enter]) := startOf_one ..

end

variable {pre key : List Instr} {enter : Instr} {body : List Instr} {leave exit : Instr}
  {code : CodeEntry} (h : WithCode pre key enter body leave exit code.instrs)
include h

theorem outlines (hcode : code.Single) (hord : ∀ i ∈ pre ++ key ++ body, i.Ordinary) :
    Outlines (cells pre key enter body leave exit) code ∧
      ∀ c ∈ cells pre key enter body leave exit, ∀ i ∈ c.straight, i.Ordinary := by
  have hcells : code.instrs = Cell.code (cells pre key enter body leave exit) := by
    rw [h.instrs, cells, code_cons_lead]
    simp [Cell.code, Cell.instrs]
  have hlen := length_cells pre key enter body leave exit
  have hhead := startOf_body pre key enter body leave exit
  have hstop : startOf (cells pre key enter body leave exit) ((lead body 2).length + 1) =
      leave.address := startOf_eq_address (hcells ▸ hcode.contiguous) (cells_leave ..) rfl
  refine hcode.outlines hcells ?_
  nth_rewrite 2 [cells]
  rw [EachFrom, eachFrom_append, Nat.zero_add, Nat.add_comm 1]
  refine ⟨?_, eachFrom_lead fun hbody hone => ?_, ?_, ?_, trivial⟩
  · exact fits_enter hord rfl h.enters.1 (by rw [h.enters.2, hstop]) (by rw [hlen]; omega)
      (by rw [hlen]; omega)
  · rw [hone] at hstop
    refine fits_body hord ?_ h.enters.1 (by rw [h.enters.2, hstop]) (by rw [hlen]; omega) hbody
    rw [cells, hone]
    exact List.mem_cons_self
  · exact fits_leave (cells_leave ..) h.returns.1 (by rw [h.returns.2, hhead])
      (by rw [hlen]; omega) (by rw [hlen]; omega)
  · exact ⟨by simp [Cell.instrs], by simp, ends_exit rfl h.exits rfl, by simp⟩

variable {g : Graph} (hlaid : Outlines (cells pre key enter body leave exit) code)
  (hp : Planted (cells pre key enter body leave exit) code g)
include hlaid hp

omit h hlaid in
theorem shows_wired : Shows (wired pre key enter body leave exit) g g := by
  have hlen := length_cells pre key enter body leave exit
  have hle := length_lead_le body 2
  have hone : Entered (cells pre key enter body leave exit) 1 := ⟨_, List.mem_cons_self, by simp⟩
  have htail : Entered (cells pre key enter body leave exit) ((lead body 2).length + 1) :=
    ⟨_, List.mem_cons_self, by simp⟩
  have hnext : Entered (cells pre key enter body leave exit) ((lead body 2).length + 2) :=
    ⟨_, List.mem_of_getElem? (cells_leave ..), by simp⟩
  have hdead : ¬ Entered (cells pre key enter body leave exit) ((lead body 2).length + 3) := by
    rintro ⟨c, hc, hk⟩
    rcases List.mem_cons.mp hc with rfl | hc
    · simp at hk
    · rcases List.mem_append.mp hc with hc | hc
      · rw [(of_mem_lead hc).2, List.mem_singleton] at hk
        omega
      · simp only [List.mem_cons, List.not_mem_nil, or_false] at hc
        rcases hc with rfl | rfl <;> simp at hk
  refine shows_of_faces hp ?_
  rw [wired, EachFrom, eachFrom_append, Nat.zero_add, Nat.add_comm 1]
  refine ⟨face_of_entered hp rfl hone, eachFrom_lead fun hbody hlead => ?_, ?_, ?_, ?_, trivial⟩
  · refine face_of_entered hp (by simp [cells, lead, hbody]) ?_
    rwa [hlead] at htail
  · exact face_of_entered hp (cells_leave ..) hnext
  · exact face_of_dead hp (cells_exit ..) hdead
  · have hlast := face_of_last hp
    rwa [hlen] at hlast

theorem candidates_eq : candidates g = .ok [candidate body] := by
  have hlen := length_cells pre key enter body leave exit
  have hstop : startOf (cells pre key enter body leave exit) ((lead body 2).length + 1) =
    leave.address := startOf_eq_address hlaid.contiguous_code (cells_leave ..) rfl
  refine hp.candidates_eq hlaid.endsBlock (t := 0) rfl rfl (k := .withLoop) ?_ h.enters.2 ?_ ?_
  · rw [kind?, h.enters.1]
  · rw [cells, EachFrom, eachFrom_append]
    refine ⟨fun i hi hne => absurd rfl hne, eachFrom_lead fun _ _ i hi => ?_, fun i hi _ => ?_,
      fun i hi _ => ?_, trivial⟩
    · cases hi
    · cases hi
      rw [kind?, h.returns.1]
    · cases hi
      exact kind?_exit h.exits
  · have hshows := shows_wired hp
    have hfirst : g.instrs ((lead body 2).length + 2) = [exit] :=
      hshows.instrs_eq (c := ⟨[], some exit, [(lead body 2).length + 3]⟩) (by simp [wired])
    have hlast : g.instrs ((lead body 2).length + 3) = [] :=
      hshows.instrs_eq (c := ⟨[], none, []⟩) (by simp [wired])
    have hexit : withExit? g ((lead body 2).length + 2) = none := by
      simp [withExit?, hfirst, nextBlock?_eq hp (j := (lead body 2).length + 2) (by rw [hlen]; omega),
        hlast]
    rw [candidateAt, if_pos rfl, ← hstop, withCandidate, nextBlock?_eq hp (by rw [hlen]; omega),
      hp.blockAt?_startOf hlaid (by rw [hlen]; omega)]
    simp only [need, ok_bind, nextBlock?_eq hp (j := (lead body 2).length + 1) (by rw [hlen]; omega)]
    rw [hexit]
    rfl

omit h hlaid in
/-- The loop's own code and edges are taken out. -/
theorem strip_run : ∃ info g₁, (strip (candidate body)).run g = .ok (info, 1) g₁ ∧
    Shows (trimmed pre key body exit) g g₁ ∧ info.kind = .withLoop := by
  have hsize : (wired pre key enter body leave exit).length ≤ g.nodes.size := by
    rw [hp.size, length_cells]
    simp [wired]
  have hentered := shows_cutEnter (shows_wired hp) hsize
  have hleft := hentered.cutBlock hsize (j := (lead body 2).length + 1)
    (c := ⟨[], some leave, [(lead body 2).length + 2]⟩) (d := ⟨[], none, []⟩)
    (by simp) [leave] (by simp [Cell.instrs]) rfl rfl
  refine ⟨_, _, strip_with rfl rfl rfl, ?_, rfl⟩
  simpa [trimmed, candidate] using hleft

omit hlaid hp in
/-- The analysis folds the loop. -/
theorem analyze_eq (hcode : code.Single) (hord : ∀ i ∈ pre ++ key ++ body, i.Ordinary)
    (layout : TryCatch.Layout) : ∃ g info, analyze code layout = .ok g ∧
      Folded (trimmed pre key body exit) code (candidate body) info 1 g ∧
      info.kind = .withLoop := by
  obtain ⟨hlaid, hplain⟩ := h.outlines hcode hord
  have hlen := length_cells pre key enter body leave exit
  obtain ⟨base, g, hbase, hfound, hp⟩ := exists_planted hlaid (by simp [cells])
  obtain ⟨info, g₁, hstrip, hshows, hinfo⟩ := strip_run hp
  have hquiet : EachFrom (fun j d => (candidate body).head ≤ j → j < (candidate body).next →
      ∀ t, breakTarget? (candidate body) = some t ∨ t = (candidate body).head → t ∉ d.nexts) 0
      (trimmed pre key body exit) := by
    rw [trimmed, EachFrom, eachFrom_append]
    refine ⟨fun hlow => absurd hlow (Nat.not_succ_le_zero 0), eachFrom_lead fun _ _ _ _ t ht => ?_,
      fun _ _ _ _ => List.not_mem_nil, fun _ hhigh => ?_, fun _ _ _ _ => List.not_mem_nil, trivial⟩
    · rcases ht with ht | rfl
      · cases ht
      · simp [candidate]
    · rw [Nat.add_comm 0, Nat.add_comm 1] at hhigh
      exact absurd hhigh (Nat.lt_irrefl _)
  have htrimmed : Cell.code (trimmed pre key body exit) = pre ++ key ++ body ++ [exit] := by
    rw [trimmed, code_cons_lead]
    simp [Cell.code, Cell.instrs]
  obtain ⟨g', hrun, hfolded⟩ := exists_folded hbase hfound hp hlaid hplain
    (h.candidates_eq hlaid hp) hstrip hshows (by rw [hlen]; simp [trimmed])
    (Nat.succ_lt_succ (Nat.succ_pos _)) (by rw [hlen]; exact Nat.le_succ _)
    (fun t ht => by cases ht) hquiet.getElem? (settled_of_code htrimmed hord h.exits) layout
  exact ⟨g', info, hrun, hfolded, hinfo⟩

end WithCode

/-! ## With that can be left early -/

/-- Code around a `with` with a second end, which drops the target. A jump leads past it. -/
structure WithExitCode (pre key : List Instr) (enter : Instr) (body : List Instr)
    (leave jump drop exit : Instr) (is : List Instr) : Prop where
  instrs : is = pre ++ key ++ [enter] ++ body ++ [leave, jump, drop, exit]
  enters : enter.opcode = .pushEnv ∧ enter.target? = some leave.address
  returns : leave.opcode = .popEnv ∧ leave.target? = some (endFrom 0 (pre ++ key ++ [enter]))
  passes : jump.opcode = .b ∧ jump.target? = some exit.address
  drops : drop.opcode = .popEnv ∧ drop.operand = .envExit
  exits : exit.opcode = .exit

namespace WithExitCode

section

variable (pre key : List Instr) (enter : Instr) (body : List Instr) (leave jump drop exit : Instr)

def cells : List Cell :=
  let tail := (lead body 2).length + 1
  ⟨pre ++ key, some enter, [1, tail]⟩ :: (lead body 2 ++ [⟨[], some leave, [tail + 1]⟩,
    ⟨[], some jump, [tail + 3]⟩, ⟨[], some drop, [tail + 3]⟩, ⟨[], some exit, []⟩])

/-- The blocks with the empty one at the end. It hangs after the exit, and the second end after the
jump. -/
def wired : List Cell :=
  let tail := (lead body 2).length + 1
  ⟨pre ++ key, some enter, [1, tail]⟩ :: (lead body 2 ++ [⟨[], some leave, [tail + 1]⟩,
    ⟨[], some jump, [tail + 3, tail + 2]⟩, ⟨[], some drop, [tail + 3]⟩,
    ⟨[], some exit, [tail + 4]⟩, ⟨[], none, []⟩])

/-- The blocks without the loop's own code and edges. -/
def trimmed : List Cell :=
  let tail := (lead body 2).length + 1
  ⟨pre ++ key, none, [1]⟩ :: (lead body 2 ++ [⟨[], none, []⟩, ⟨[], none, []⟩, ⟨[], none, []⟩,
    ⟨[], some exit, [tail + 4]⟩, ⟨[], none, []⟩])

def candidate : Candidate :=
  let tail := (lead body 2).length + 1
  { kind := .withLoop, head := 1, tail, next := tail + 3, before := some 0
    withExit := some (tail + 1, tail + 2) }

theorem length_cells :
    (cells pre key enter body leave jump drop exit).length = (lead body 2).length + 5 := by
  simp [cells]

theorem cells_leave : (cells pre key enter body leave jump drop exit)[(lead body 2).length + 1]? =
    some ⟨[], some leave, [(lead body 2).length + 2]⟩ := by
  simp [cells]

theorem cells_jump : (cells pre key enter body leave jump drop exit)[(lead body 2).length + 2]? =
    some ⟨[], some jump, [(lead body 2).length + 4]⟩ := by
  simp [cells]

theorem cells_drop : (cells pre key enter body leave jump drop exit)[(lead body 2).length + 3]? =
    some ⟨[], some drop, [(lead body 2).length + 4]⟩ := by
  simp [cells]

theorem cells_exit : (cells pre key enter body leave jump drop exit)[(lead body 2).length + 4]? =
    some ⟨[], some exit, []⟩ := by
  simp [cells]

theorem startOf_body : startOf (cells pre key enter body leave jump drop exit) 1 =
    endFrom 0 (pre ++ key ++ [enter]) := startOf_one ..

end

variable {pre key : List Instr} {enter : Instr} {body : List Instr} {leave jump drop exit : Instr}
  {code : CodeEntry} (h : WithExitCode pre key enter body leave jump drop exit code.instrs)
include h

theorem outlines (hcode : code.Single) (hord : ∀ i ∈ pre ++ key ++ body, i.Ordinary) :
    Outlines (cells pre key enter body leave jump drop exit) code ∧
      ∀ c ∈ cells pre key enter body leave jump drop exit, ∀ i ∈ c.straight, i.Ordinary := by
  have hcells : code.instrs = Cell.code (cells pre key enter body leave jump drop exit) := by
    rw [h.instrs, cells, code_cons_lead]
    simp [Cell.code, Cell.instrs]
  have hlen := length_cells pre key enter body leave jump drop exit
  have hhead := startOf_body pre key enter body leave jump drop exit
  have hstop : startOf (cells pre key enter body leave jump drop exit)
      ((lead body 2).length + 1) = leave.address :=
    startOf_eq_address (hcells ▸ hcode.contiguous) (cells_leave ..) rfl
  have hend : startOf (cells pre key enter body leave jump drop exit)
      ((lead body 2).length + 4) = exit.address :=
    startOf_eq_address (hcells ▸ hcode.contiguous) (cells_exit ..) rfl
  refine hcode.outlines hcells ?_
  nth_rewrite 2 [cells]
  rw [EachFrom, eachFrom_append, Nat.zero_add, Nat.add_comm 1]
  refine ⟨?_, eachFrom_lead fun hbody hone => ?_, ?_, ?_, ?_, ?_, trivial⟩
  · exact fits_enter hord rfl h.enters.1 (by rw [h.enters.2, hstop]) (by rw [hlen]; omega)
      (by rw [hlen]; omega)
  · rw [hone] at hstop
    refine fits_body hord ?_ h.enters.1 (by rw [h.enters.2, hstop]) (by rw [hlen]; omega) hbody
    rw [cells, hone]
    exact List.mem_cons_self
  · exact fits_leave (cells_leave ..) h.returns.1 (by rw [h.returns.2, hhead])
      (by rw [hlen]; omega) (by rw [hlen]; omega)
  · exact ⟨by simp [Cell.instrs], by simp,
      ends_jump rfl h.passes.1 (by rw [h.passes.2, hend]) rfl, by simp [hlen]⟩
  · refine ⟨by simp [Cell.instrs], by simp, ends_popEnv (cells_drop ..) rfl h.drops.1
      (fun t ht => ?_) rfl, by simp [hlen]⟩
    simp [Instr.target?, Instr.offset?, h.drops.2] at ht
  · exact ⟨by simp [Cell.instrs], by simp, ends_exit rfl h.exits rfl, by simp⟩

variable {g : Graph} (hlaid : Outlines (cells pre key enter body leave jump drop exit) code)
  (hp : Planted (cells pre key enter body leave jump drop exit) code g)
include hlaid hp

omit h hlaid in
theorem shows_wired : Shows (wired pre key enter body leave jump drop exit) g g := by
  have hlen := length_cells pre key enter body leave jump drop exit
  have hle := length_lead_le body 2
  have hdead {k : Nat} (hk : k = 3 ∨ k = 5) :
      ¬ Entered (cells pre key enter body leave jump drop exit) ((lead body 2).length + k) := by
    rintro ⟨c, hc, hmem⟩
    rcases List.mem_cons.mp hc with rfl | hc
    · simp only [List.mem_cons, List.not_mem_nil, or_false] at hmem
      omega
    · rcases List.mem_append.mp hc with hc | hc
      · rw [(of_mem_lead hc).2, List.mem_singleton] at hmem
        omega
      · simp only [List.mem_cons, List.not_mem_nil, or_false] at hc
        rcases hc with rfl | rfl | rfl | rfl <;>
          simp only [List.mem_cons, List.not_mem_nil, or_false] at hmem <;> omega
  have hend : Entered (cells pre key enter body leave jump drop exit)
      ((lead body 2).length + 4) := ⟨_, List.mem_of_getElem? (cells_jump ..), by simp⟩
  have htail : Entered (cells pre key enter body leave jump drop exit)
      ((lead body 2).length + 1) := ⟨_, List.mem_cons_self, by simp⟩
  refine shows_of_faces hp ?_
  rw [wired, EachFrom, eachFrom_append, Nat.zero_add, Nat.add_comm 1]
  refine ⟨face_of_entered hp rfl ⟨_, List.mem_cons_self, by simp⟩,
    eachFrom_lead fun hbody hlead => ?_, ?_, ?_, ?_, ?_, ?_, trivial⟩
  · refine face_of_entered hp (by simp [cells, lead, hbody]) ?_
    rwa [hlead] at htail
  · exact face_of_entered hp (cells_leave ..) ⟨_, List.mem_of_getElem? (cells_leave ..), by simp⟩
  · exact face_of_dead hp (cells_jump ..) (hdead (.inl rfl))
  · exact face_of_entered hp (cells_drop ..) hend
  · exact face_of_dead hp (cells_exit ..) (hdead (.inr rfl))
  · have hlast := face_of_last hp
    rwa [hlen] at hlast

theorem candidates_eq : candidates g = .ok [candidate body] := by
  have hlen := length_cells pre key enter body leave jump drop exit
  have hstop : startOf (cells pre key enter body leave jump drop exit) ((lead body 2).length + 1) =
    leave.address := startOf_eq_address hlaid.contiguous_code (cells_leave ..) rfl
  have hend : startOf (cells pre key enter body leave jump drop exit) ((lead body 2).length + 4) =
    exit.address := startOf_eq_address hlaid.contiguous_code (cells_exit ..) rfl
  refine hp.candidates_eq hlaid.endsBlock (t := 0) rfl rfl (k := .withLoop) ?_ h.enters.2 ?_ ?_
  · rw [kind?, h.enters.1]
  · have hjump := lt_startOf hlaid (cells_jump ..) rfl (k := (lead body 2).length + 4) (by omega)
      (by rw [hlen]; omega)
    rw [hend] at hjump
    rw [cells, EachFrom, eachFrom_append]
    refine ⟨fun i hi hne => absurd rfl hne, eachFrom_lead fun _ _ i hi => ?_, fun i hi _ => ?_,
      fun i hi _ => ?_, fun i hi _ => ?_, fun i hi _ => ?_, trivial⟩
    · cases hi
    · cases hi
      rw [kind?, h.returns.1]
    · cases hi
      exact kind?_ahead (by simp [h.passes]) h.passes.2 hjump
    · cases hi
      rw [kind?, h.drops.1]
    · cases hi
      exact kind?_exit h.exits
  · have hshows := shows_wired hp
    have hfirst : g.instrs ((lead body 2).length + 2) = [jump] := hshows.instrs_eq
      (c := ⟨[], some jump, [(lead body 2).length + 4, (lead body 2).length + 3]⟩) (by simp [wired])
    have hsecond : g.instrs ((lead body 2).length + 3) = [drop] := hshows.instrs_eq
      (c := ⟨[], some drop, [(lead body 2).length + 4]⟩) (by simp [wired])
    have hexit : withExit? g ((lead body 2).length + 2) =
        some ((lead body 2).length + 2, (lead body 2).length + 3, exit.address) := by
      simp [withExit?, hfirst, nextBlock?_eq hp (j := (lead body 2).length + 2) (by rw [hlen]; omega),
        hsecond, h.passes, h.drops]
    rw [candidateAt, if_pos rfl, ← hstop, withCandidate, nextBlock?_eq hp (by rw [hlen]; omega),
      hp.blockAt?_startOf hlaid (by rw [hlen]; omega)]
    simp only [need, ok_bind, nextBlock?_eq hp (j := (lead body 2).length + 1) (by rw [hlen]; omega)]
    rw [hexit]
    simp only [← hend, hp.blockAt?_startOf hlaid (k := (lead body 2).length + 4)
      (by rw [hlen]; omega), ok_bind]
    rfl

omit h hlaid in
/-- The loop's own code and edges are taken out. -/
theorem strip_run : ∃ info g₁, (strip (candidate body)).run g = .ok (info, 1) g₁ ∧
    Shows (trimmed pre key body exit) g g₁ ∧ info.kind = .withLoop := by
  have hsize : (lead body 2).length + 5 + 1 ≤ g.nodes.size := by
    rw [hp.size, length_cells]
    omega
  have hentered := shows_cutEnter (shows_wired hp) (by simpa using hsize)
  have hleft := hentered.cutBlock (by simpa using hsize) (j := (lead body 2).length + 1)
    (c := ⟨[], some leave, [(lead body 2).length + 2]⟩) (d := ⟨[], none, []⟩)
    (by simp) [leave] (by simp [Cell.instrs]) rfl rfl
  have hjumped := hleft.cutBlock (by simpa using hsize) (j := (lead body 2).length + 2)
    (c := ⟨[], some jump, [(lead body 2).length + 4, (lead body 2).length + 3]⟩)
    (d := ⟨[], none, []⟩) (by simp) [jump] (by simp [Cell.instrs]) rfl rfl
  have hdropped := hjumped.cutBlock (by simpa using hsize) (j := (lead body 2).length + 3)
    (c := ⟨[], some drop, [(lead body 2).length + 4]⟩) (d := ⟨[], none, []⟩)
    (by simp) [drop] (by simp [Cell.instrs]) rfl rfl
  refine ⟨_, _, strip_withExit rfl rfl rfl, ?_, rfl⟩
  simpa [trimmed, candidate] using hdropped

omit hlaid hp in
/-- The analysis folds the loop. -/
theorem analyze_eq (hcode : code.Single) (hord : ∀ i ∈ pre ++ key ++ body, i.Ordinary)
    (layout : TryCatch.Layout) : ∃ g info, analyze code layout = .ok g ∧
      Folded (trimmed pre key body exit) code (candidate body) info 1 g ∧
      info.kind = .withLoop := by
  obtain ⟨hlaid, hplain⟩ := h.outlines hcode hord
  have hlen := length_cells pre key enter body leave jump drop exit
  have hle := length_lead_le body 2
  obtain ⟨base, g, hbase, hfound, hp⟩ := exists_planted hlaid (by simp [cells])
  obtain ⟨info, g₁, hstrip, hshows, hinfo⟩ := strip_run hp
  have hbreak : ∀ t, breakTarget? (candidate body) = some t →
      t ≤ (cells pre key enter body leave jump drop exit).length := by
    rintro t ht
    cases ht
    rw [hlen]
    exact Nat.add_le_add_left (by decide : 3 ≤ 5) _
  have hquiet : EachFrom (fun j d => (candidate body).head ≤ j → j < (candidate body).next →
      ∀ t, breakTarget? (candidate body) = some t ∨ t = (candidate body).head → t ∉ d.nexts) 0
      (trimmed pre key body exit) := by
    rw [trimmed, EachFrom, eachFrom_append]
    refine ⟨fun hlow => absurd hlow (Nat.not_succ_le_zero 0),
      eachFrom_lead fun _ hone _ _ t ht => ?_, fun _ _ _ _ => List.not_mem_nil,
      fun _ _ _ _ => List.not_mem_nil, fun _ _ _ _ => List.not_mem_nil, fun _ hhigh => ?_,
      fun _ _ _ _ => List.not_mem_nil, trivial⟩
    · rcases ht with ht | rfl
      · cases ht
        simp [hone]
      · simp [candidate]
    · rw [Nat.add_comm 0, Nat.add_comm 1] at hhigh
      exact absurd hhigh (Nat.lt_irrefl _)
  have htrimmed : Cell.code (trimmed pre key body exit) = pre ++ key ++ body ++ [exit] := by
    rw [trimmed, code_cons_lead]
    simp [Cell.code, Cell.instrs]
  obtain ⟨g', hrun, hfolded⟩ := exists_folded hbase hfound hp hlaid hplain
    (h.candidates_eq hlaid hp) hstrip hshows (by rw [hlen]; simp [trimmed])
    (Nat.succ_lt_succ (Nat.succ_pos _)) (by rw [hlen]; exact Nat.le_succ _) hbreak hquiet.getElem?
    (settled_of_code htrimmed hord h.exits) layout
  exact ⟨g', info, hrun, hfolded, hinfo⟩

end WithExitCode

end Loops

end GmlLift
