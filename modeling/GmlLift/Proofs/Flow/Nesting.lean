import GmlLift.Proofs.Flow.SplitPoints
import GmlLift.Proofs.Flow.Spans

/-! # Fragments nest

Where a fragment ends is read off the jump before it, so the ends of fragments may come in any order
when they are opened. Those that would cross or run backwards leave a fragment open at the end, and
those that end together ask one block for two exits: what comes through is a tree. -/
namespace GmlLift

open GmlLift.Graph Pass

variable {code : CodeEntry} {base g g' : Graph} {root previous : NodeId}

/-! ## Taking the last instruction off a block -/

theorem Node.instrs_mapInstrs {f : List Instr → List Instr} (hf : f [] = []) (n : Node) :
    (n.mapInstrs f).instrs = f n.instrs := by
  unfold Node.mapInstrs
  split
  · rename_i is hk
    rw [Node.instrs, Node.instrs, hk]
  · rename_i hno
    have hnil : n.instrs = [] := by
      unfold Node.instrs
      split
      · rename_i is hk
        exact absurd hk (hno is)
      · rfl
    rw [hnil, hf]

/-- The last instruction of a block is gone, if it had one. The nodes there were are otherwise as
they were, edges apart. -/
structure Trimmed (n : NodeId) (g g' : Graph) : Prop where
  start : ∀ i < g.nodes.size, (g'.node i).start = (g.node i).start
  stop : ∀ i < g.nodes.size, (g'.node i).stop = (g.node i).stop
  listed : ∀ i < g.nodes.size, g'.listed i = g.listed i
  instrs : ∀ i < g.nodes.size, i ≠ n → g'.instrs i = g.instrs i
  last : g'.instrs n = (g.instrs n).dropLast

namespace Trimmed

theorem stripLast (n : NodeId) : Trimmed n g (g.stripLast n 1) := by
  have hnode : ∀ i, (g.stripLast n 1).node i =
      if i = n ∧ n < g.nodes.size then (g.node i).mapInstrs fun is => is.take (is.length - 1)
      else g.node i := fun i => node_modifyNode ..
  have hkept : ∀ i, ((g.stripLast n 1).node i).start = (g.node i).start ∧
      ((g.stripLast n 1).node i).stop = (g.node i).stop ∧
      (g.stripLast n 1).listed i = g.listed i := by
    intro i
    rw [Graph.listed, Graph.listed, gist_kind, gist_kind, hnode]
    unfold Node.mapInstrs
    split
    · split
      · rename_i hk
        simp only [hk, and_self]
      · exact ⟨rfl, rfl, rfl⟩
    · exact ⟨rfl, rfl, rfl⟩
  refine ⟨fun i _ => (hkept i).1, fun i _ => (hkept i).2.1, fun i _ => (hkept i).2.2, ?_, ?_⟩
  · intro i _ hne
    rw [Graph.instrs, hnode, if_neg fun h => hne h.1]
    rfl
  · rw [Graph.instrs, Graph.instrs, hnode, List.dropLast_eq_take]
    by_cases hn : n < g.nodes.size
    · rw [if_pos ⟨rfl, hn⟩, Node.instrs_mapInstrs rfl]
    · rw [if_neg fun h => hn h.2, node_of_size_le (Nat.le_of_not_lt hn)]
      rfl

/-- Edits that change no node there was but in its edges, parent and reachability. -/
theorem trans {n : NodeId} (h : Trimmed n g g') (hn : n < g.nodes.size) {g'' : Graph}
    (hg : ∀ i < g.nodes.size, (g''.gist i).start = (g'.gist i).start ∧
      (g''.gist i).stop = (g'.gist i).stop ∧ (g''.gist i).kind = (g'.gist i).kind) :
    Trimmed n g g'' := by
  have hinstrs : ∀ i < g.nodes.size, g''.instrs i = g'.instrs i := by
    intro i hi
    rw [Graph.instrs, Node.instrs, ← gist_kind, (hg i hi).2.2]
    rfl
  refine ⟨?_, ?_, ?_, ?_, ?_⟩
  · intro i hi
    exact (hg i hi).1.trans (h.start i hi)
  · intro i hi
    exact (hg i hi).2.1.trans (h.stop i hi)
  · intro i hi
    rw [Graph.listed, (hg i hi).2.2]
    exact h.listed i hi
  · intro i hi hne
    exact (hinstrs i hi).trans (h.instrs i hi hne)
  · exact (hinstrs n hn).trans h.last

theorem instrs_eq {n : NodeId} (h : Trimmed n g g') {i : Instr} (hlast : g.lastInstr? n = some i) :
    g.instrs n = g'.instrs n ++ [i] := by
  rw [h.last]
  exact (List.dropLast_append_getLast? i hlast).symm

end Trimmed

/-! ## What one boundary between blocks does -/

namespace Fragments

/-- The fragment `top` is closed at the exit that `previous` ends in. -/
structure Closes (previous : NodeId) (address : Nat) (top : NodeId) (i : Instr) (g g' : Graph) :
    Prop where
  stop : (g.node top).stop = address
  last : g.lastInstr? previous = some i
  exit : i.opcode = .exit
  trimmed : Trimmed previous g g'
  size : g'.nodes.size = g.nodes.size

/-- The fragment `f` of an entry that starts at an address is put in the place of the jump that
`previous` ends in. -/
structure Opens (code : CodeEntry) (previous : NodeId) (address : Nat) (f : Span) (i : Instr)
    (g g' : Graph) : Prop where
  entry : ∃ c ∈ code.descendants, c.start ≠ 0 ∧ c.start = address
  last : g.lastInstr? previous = some i
  jump : i.opcode = .b
  target : i.target? = some f.stop
  skip : ∃ b ∈ g.blocks, (g.node b).start = f.stop
  trimmed : Trimmed previous g g'
  node : f.node = g.nodes.size
  start : (g'.node f.node).start = f.start
  stop : (g'.node f.node).stop = f.stop

/-- What a block ends in once its exit is off does not end a block. -/
theorem Closes.endsBlock_last {top : NodeId} {address : Nat} {i j : Instr}
    (h : Closes previous address top i g g')
    (hends : ∀ i ∈ (g.instrs previous).dropLast, i.endsBlock = false)
    (hj : g'.lastInstr? previous = some j) : j.endsBlock = false := by
  rw [lastInstr?, h.trimmed.last] at hj
  exact hends j (List.mem_of_getLast? hj)

/-- Without an exit before it nothing can be closed. -/
theorem closeEnding_quiet (h : ∀ i, g.lastInstr? previous = some i → i.opcode ≠ .exit)
    (address : Nat) (stack : List NodeId) :
    Ends (closeEnding previous address stack) g (fun stack' g' => stack' = stack ∧ g' = g)
      (fun _ => True) := by
  match stack with
  | [] => exact ⟨rfl, rfl⟩
  | [top] => exact ⟨rfl, rfl⟩
  | top :: below :: rest =>
    simp only [closeEnding]
    rw [ends_bind, ends_get]
    split
    · have hall : (g.lastInstr? previous).all (fun i => i.opcode != .exit) = true := by
        rw [Option.all_eq_true]
        intro i hi
        simpa using h i hi
      unfold close
      rw [ends_bind, ends_bind, ends_get, if_pos hall]
      trivial
    · exact ⟨rfl, rfl⟩

theorem close_spec (hlt : previous < g.nodes.size) (top : NodeId) :
    Ends (close top previous) g
      (fun _ g' => ∃ i, Closes previous (g.node top).stop top i g g') (fun _ => True) := by
  unfold close
  rw [ends_bind, ends_get]
  split
  · trivial
  · rename_i hexit
    obtain ⟨i, hi, hop⟩ : ∃ i, g.lastInstr? previous = some i ∧ i.opcode = .exit := by
      cases hl : g.lastInstr? previous with
      | none => exact absurd (by rw [hl]; rfl) hexit
      | some i => exact ⟨i, rfl, by simpa [hl] using hexit⟩
    simp only [ends_bind, ends_modify]
    refine ⟨i, rfl, hi, hop, (Trimmed.stripLast previous).trans hlt fun k _ => ?_, by simp⟩
    rw [gist_disconnectSuccessors]
    exact ⟨rfl, rfl, rfl⟩

/-- A block ends in one exit at most, so that one fragment at most is closed after it. -/
theorem closeEnding_spec (hlt : previous < g.nodes.size)
    (hends : ∀ i ∈ (g.instrs previous).dropLast, i.endsBlock = false) (address : Nat)
    (stack : List NodeId) :
    Ends (closeEnding previous address stack) g
      (fun stack' g' => stack' = stack ∧ g' = g ∨ ∃ top i, stack = top :: stack' ∧ stack' ≠ [] ∧
        Closes previous address top i g g') (fun _ => True) := by
  match stack with
  | [] => exact .inl ⟨rfl, rfl⟩
  | [top] => exact .inl ⟨rfl, rfl⟩
  | top :: below :: rest =>
    simp only [closeEnding]
    rw [ends_bind, ends_get]
    split
    · rename_i hstop
      rw [ends_bind]
      refine (close_spec hlt top).mono ?_ fun _ h => h
      rintro - g' ⟨i, hclose⟩
      -- a second exit would stand before the last instruction
      have hno : ∀ j, g'.lastInstr? previous = some j → j.opcode ≠ .exit := by
        intro j hj he
        have hfalse := hclose.endsBlock_last hends hj
        rw [Instr.endsBlock, he] at hfalse
        cases hfalse
      refine (closeEnding_quiet hno address (below :: rest)).mono ?_ fun _ h => h
      rintro stack' g'' ⟨rfl, rfl⟩
      exact .inr ⟨top, i, rfl, by simp, hstop ▸ hclose⟩
    · exact .inl ⟨rfl, rfl⟩

theorem entryAt?_eq_none_iff {address : Nat} : entryAt? code address = none ↔
    ∀ c ∈ code.descendants, c.start ≠ 0 → c.start ≠ address := by
  simp [entryAt?, List.find?_eq_none]

theorem entryAt?_eq_some {address : Nat} {entry : CodeEntry}
    (h : entryAt? code address = some entry) :
    entry ∈ code.descendants ∧ entry.start ≠ 0 ∧ entry.start = address := by
  refine ⟨?_, ?_⟩
  · simpa using List.mem_of_find?_eq_some h
  · simpa using List.find?_some h

theorem gist_splice (block next fragment i : NodeId) :
    ((splice previous block next fragment g).gist i).start = (g.gist i).start ∧
      ((splice previous block next fragment g).gist i).stop = (g.gist i).stop ∧
      ((splice previous block next fragment g).gist i).kind = (g.gist i).kind := by
  have hmark : ∀ (g : Graph) (n : NodeId) (b : Bool), ((g.setUnreachable n b).gist i).start =
      (g.gist i).start ∧ ((g.setUnreachable n b).gist i).stop = (g.gist i).stop := by
    intro g n b
    rw [gist_start, gist_stop, setUnreachable, node_modifyNode]
    split <;> exact ⟨rfl, rfl⟩
  refine ⟨?_, ?_, kind_splice ..⟩
  · simp only [splice, gist_setChild, (hmark _ _ _).1, gist_connect, gist_replaceSuccessor,
      gist_disconnect]
  · simp only [splice, gist_setChild, (hmark _ _ _).2, gist_connect, gist_replaceSuccessor,
      gist_disconnect]

theorem openAt_spec (hlt : previous < g.nodes.size) (entry : CodeEntry) (block : NodeId)
    (he : entry ∈ code.descendants) (hzero : entry.start ≠ 0)
    (hstart : entry.start = (g.node block).start) :
    Ends (openAt entry previous block) g
      (fun f g' => ∃ stop i, Opens code previous (g.node block).start
        ⟨f, (g.node block).start, stop⟩ i g g') (fun _ => True) := by
  unfold openAt
  simp only [ends_bind, ends_get, ends_require, ends_modify, ends_add, ends_pure]
  refine ⟨fun skip hskip => ⟨fun next hnext => ?_, fun _ => trivial⟩, fun _ => trivial⟩
  obtain ⟨i, hi, htarget⟩ := Option.bind_eq_some_iff.mp hskip
  obtain ⟨hlast, hop⟩ := Option.filter_eq_some_iff.mp hi
  have htrim : Trimmed previous g (g.stripLast previous 1) := .stripLast previous
  have hsize : (g.stripLast previous 1).nodes.size = g.nodes.size := by simp
  generalize g.stripLast previous 1 = g₁ at htrim hsize ⊢
  generalize hnode : nodeOf entry (g.node block).start skip = node
  have hspl := @gist_splice (g₁.add node) previous block next g₁.nodes.size
  generalize splice previous block next g₁.nodes.size (g₁.add node) = g₂ at hspl ⊢
  have hold : ∀ k < g.nodes.size, (g₂.gist k).start = (g₁.gist k).start ∧
      (g₂.gist k).stop = (g₁.gist k).stop ∧ (g₂.gist k).kind = (g₁.gist k).kind := by
    intro k hk
    rw [← gist_add_of_lt g₁ node (hsize.symm ▸ hk)]
    exact hspl k
  obtain ⟨hfrom, hto, -⟩ := hspl g₁.nodes.size
  rw [gist_add, ← hnode] at hfrom hto
  exact ⟨skip, i, ⟨entry, he, hzero, hstart⟩, hlast, by simpa using hop, htarget,
    ⟨next, bisect_mem hnext⟩, htrim.trans hlt hold, hsize, hfrom, hto⟩

theorem openBefore_spec {fs done : List NodeId} {block : NodeId} (hs : base.Sound)
    (h : Carving base fs done g) (hlt : previous < g.nodes.size) (hb : block ∈ base.blocks)
    (stack : List NodeId) :
    Ends (openBefore code (some previous) block (g.node block).start stack) g
      (fun stack' g' =>
        (∀ c ∈ code.descendants, c.start ≠ 0 → c.start ≠ (g.node block).start) ∧
          stack' = stack ∧ g' = g ∨
        ∃ f i, stack' = f.node :: stack ∧ f.start = (g.node block).start ∧
          Opens code previous (g.node block).start f i g g' ∧
          Carving base (fs ++ [f.node]) done g')
      (fun _ => True) := by
  unfold openBefore
  split
  · rename_i p entry hp hentry
    cases hp
    obtain ⟨he, hzero, hstart⟩ := entryAt?_eq_some hentry
    rw [ends_map]
    refine ((openAt_spec hlt entry block he hzero hstart).and
      (openAt_carving hs h entry previous hb)).mono ?_ fun _ _ => trivial
    rintro f g' ⟨⟨stop, i, hopen⟩, hcarving⟩
    exact .inr ⟨_, i, rfl, rfl, hopen, hcarving⟩
  · rename_i hno
    refine .inl ⟨?_, rfl, rfl⟩
    rw [← entryAt?_eq_none_iff, Option.eq_none_iff_forall_ne_some]
    exact fun entry he => hno previous entry rfl he

/-! ## The invariant of carving -/

theorem instrs_listBlock {f : NodeId} (hf : (g.gist f).isFragment = true) (block n : NodeId) :
    (listBlock f block g).instrs n = g.instrs n := by
  obtain ⟨-, hkind, hother, -⟩ := Carving.listed_listBlock hf block
  have empty : ∀ {x : Node}, x.isFragment = true → x.instrs = [] := by
    intro x hx
    unfold Node.isFragment at hx
    split at hx
    · rename_i hk
      rw [Node.instrs, hk]
    · cases hx
  by_cases hn : n = f
  · rw [hn]
    exact (empty hkind).trans (empty hf).symm
  · change ((listBlock f block g).gist n).instrs = (g.gist n).instrs
    rw [hother n hn]

/-- The fragment of a span, which is the root where there is none. -/
def owner (root : NodeId) (o : Option Span) : NodeId := (o.map Span.node).getD root

/-- The fragments are the root and those that the spans say, and each block of `done` is listed
under the innermost span around its start. -/
structure Embeds (code : CodeEntry) (base : Graph) (root : NodeId) (kids opened : List Span)
    (done : List NodeId) (lo hi : Nat) (g : Graph) : Prop where
  carving : Carving base (root :: kids.map Span.node) done g
  nesting : Span.Nesting kids opened lo hi
  whole : (g.node root).start = 0 ∧ (g.node root).stop = code.length
  spans : ∀ k ∈ kids, (g.node k.node).start = k.start ∧ (g.node k.node).stop = k.stop
  entries : ∀ k ∈ kids, ∃ c ∈ code.descendants, c.start ≠ 0 ∧ c.start = k.start
  stops : ∀ k ∈ kids, ∃ b ∈ base.blocks, (base.node b).start = k.stop
  innermost : ∀ b ∈ done, ∃ o, Span.Innermost kids opened (base.node b).start o ∧
    b ∈ g.listed (owner root o)

/-- Between the blocks of `seen` the code has been cut as the spans say, and wherever one of them
starts an entry has its span. The last of them and what follows has all of its code. -/
structure Boundaries (code : CodeEntry) (base : Graph) (kids opened : List Span)
    (seen rest : List NodeId) (g : Graph) : Prop where
  cut : ∀ p n, [p, n] <:+: seen → ∃ gone, base.instrs p = g.instrs p ++ gone ∧
    Span.Cut kids opened (base.node n).start gone
  kept : ∀ b ∈ seen.getLast?.toList ++ rest, g.instrs b = base.instrs b
  found : ∀ b ∈ seen, ∀ c ∈ code.descendants, c.start ≠ 0 → c.start = (base.node b).start →
    ∃ k ∈ kids, k.start = c.start

section

variable {kids opened : List Span} {done : List NodeId} {lo hi now : Nat} {f : Span} {i : Instr}

namespace Embeds

theorem isFragment_root (h : Embeds code base root kids opened done lo hi g) :
    (g.gist root).isFragment = true := h.carving.fragment root (by simp)

theorem isFragment (h : Embeds code base root kids opened done lo hi g) {k : Span} (hk : k ∈ kids) :
    (g.gist k.node).isFragment = true :=
  h.carving.fragment k.node (by simp only [List.mem_cons, List.mem_map]; exact .inr ⟨k, hk, rfl⟩)

theorem isFragment_owner (h : Embeds code base root kids opened done lo hi g) {address : Nat}
    {o : Option Span} (ho : Span.Innermost kids opened address o) :
    (g.gist (owner root o)).isFragment = true := by
  cases ho with
  | outside => exact h.isFragment_root
  | inside f hf => exact h.isFragment hf

theorem mono (h : Embeds code base root kids opened done lo hi g) {lo' hi' : Nat} (hlo : lo ≤ lo')
    (hhi : hi ≤ hi') : Embeds code base root kids opened done lo' hi' g :=
  { h with nesting := h.nesting.mono hlo hhi }

/-- The stack while carving: the open spans and, below them, the root. -/
theorem open_stack (h : Embeds code base root kids opened done lo hi g) :
    Open (root :: kids.map Span.node) (opened.map Span.node ++ [root]) := by
  refine ⟨by simp, fun n hn => ?_⟩
  rcases List.mem_append.mp hn with hn | hn
  · obtain ⟨k, hk, rfl⟩ := List.mem_map.mp hn
    exact List.mem_cons_of_mem _ (List.mem_map_of_mem (h.nesting.mem k hk))
  · rw [List.mem_singleton.mp hn]
    exact List.mem_cons_self ..

theorem close (h : Embeds code base root kids (f :: opened) done now now g)
    (hdone : ∀ b ∈ done, (base.node b).start < now) (hc : Closes previous now f.node i g g')
    (hcarving : Carving base (root :: kids.map Span.node) done g') :
    Embeds code base root kids opened done now (now + 1) g' := by
  have hf : f ∈ kids := h.nesting.mem f (by simp)
  have hstop : f.stop = now := (h.spans f hf).2.symm.trans hc.stop
  have hroot := Carving.lt_of_isFragment h.isFragment_root
  refine ⟨hcarving, h.nesting.close hstop, ?_, ?_, h.entries, h.stops, ?_⟩
  · rw [hc.trimmed.start _ hroot, hc.trimmed.stop _ hroot]
    exact h.whole
  · intro k hk
    have hlt := Carving.lt_of_isFragment (h.isFragment hk)
    rw [hc.trimmed.start _ hlt, hc.trimmed.stop _ hlt]
    exact h.spans k hk
  · intro b hb
    obtain ⟨o, ho, hm⟩ := h.innermost b hb
    have hlt := Carving.lt_of_isFragment (h.isFragment_owner ho)
    refine ⟨o, ho.close ?_, ?_⟩
    · rw [hstop]
      exact hdone b hb
    · rw [hc.trimmed.listed _ hlt]
      exact hm

theorem opening (hs : base.Sound) (h : Embeds code base root kids opened done now now g)
    (hdone : ∀ b ∈ done, (base.node b).start < now) (hf : f.start = now)
    (ho : Opens code previous now f i g g')
    (hcarving : Carving base (root :: (kids ++ [f]).map Span.node) done g') :
    Embeds code base root (kids ++ [f]) (f :: opened) done (now + 1) (now + 1) g' := by
  have hroot := Carving.lt_of_isFragment h.isFragment_root
  have each : ∀ {P : Span → Prop}, (∀ k ∈ kids, P k) → P f → ∀ k ∈ kids ++ [f], P k := by
    intro P hkids hlast k hk
    rcases List.mem_append.mp hk with hk | hk
    · exact hkids k hk
    · rw [List.mem_singleton.mp hk]
      exact hlast
  refine ⟨hcarving, h.nesting.opening hf, ?_, each ?_ ⟨ho.start, ho.stop⟩, each h.entries ?_,
    each h.stops ?_, ?_⟩
  · rw [ho.trimmed.start _ hroot, ho.trimmed.stop _ hroot]
    exact h.whole
  · intro k hk
    have hlt := Carving.lt_of_isFragment (h.isFragment hk)
    rw [ho.trimmed.start _ hlt, ho.trimmed.stop _ hlt]
    exact h.spans k hk
  · rw [hf]
    exact ho.entry
  · obtain ⟨b, hb, hstart⟩ := ho.skip
    rw [h.carving.blocks] at hb
    have hbounds := h.carving.edited.bounds (by decide) (hs.blocks b hb)
    exact ⟨b, hb, hbounds.1.symm.trans hstart⟩
  · intro b hb
    obtain ⟨o, hin, hm⟩ := h.innermost b hb
    have hlt := Carving.lt_of_isFragment (h.isFragment_owner hin)
    refine ⟨o, hin.opening ?_, ?_⟩
    · rw [hf]
      exact hdone b hb
    · rw [ho.trimmed.listed _ hlt]
      exact hm

/-- The next block is listed under the top of the stack. -/
theorem list {block : NodeId}
    (h : Embeds code base root kids opened done (now + 1) (now + 1) g)
    (hnow : (base.node block).start = now) :
    Embeds code base root kids opened (done ++ [block]) (now + 1) (now + 1)
      (listOnTop (opened.map Span.node ++ [root]) block g) := by
  have htop : listOnTop (opened.map Span.node ++ [root]) block g =
      listBlock (owner root opened.head?) block g := by
    cases opened <;> rfl
  have hin := Span.Innermost.top h.nesting
  have hk := h.isFragment_owner hin
  have hmem : owner root opened.head? ∈ root :: kids.map Span.node := by
    cases opened with
    | nil => exact List.mem_cons_self ..
    | cons f opened =>
      exact List.mem_cons_of_mem _ (List.mem_map_of_mem (h.nesting.mem f (by simp)))
  obtain ⟨hself, -, hother, hbounds⟩ := Carving.listed_listBlock hk block
  have hcarving := h.carving.listBlock hmem block
  rw [htop]
  generalize listBlock (owner root opened.head?) block g = g' at hself hother hbounds hcarving ⊢
  have grows : ∀ {b n : NodeId}, b ∈ g.listed n → b ∈ g'.listed n := by
    intro b n hb
    by_cases hn : n = owner root opened.head?
    · rw [hn] at hb ⊢
      rw [hself]
      exact List.mem_append_left _ hb
    · rw [Graph.listed, hother n hn]
      exact hb
  refine ⟨hcarving, h.nesting, ?_, ?_, h.entries, h.stops, ?_⟩
  · rw [← gist_start, ← gist_stop, (hbounds root).1, (hbounds root).2]
    exact h.whole
  · intro k hk
    rw [← gist_start, ← gist_stop, (hbounds k.node).1, (hbounds k.node).2]
    exact h.spans k hk
  · intro b hb
    rcases List.mem_append.mp hb with hb | hb
    · obtain ⟨o, ho, hm⟩ := h.innermost b hb
      exact ⟨o, ho, grows hm⟩
    · rw [List.mem_singleton.mp hb, hnow]
      exact ⟨opened.head?, hin, by rw [hself]; simp⟩

end Embeds

namespace Boundaries

/-- What the boundary before `block` cuts is cut off the block before it. -/
theorem step {init rest : List NodeId} {block : NodeId} {kids' opened' : List Span}
    (hasc : base.Ascending (init ++ [previous] ++ block :: rest))
    (h : Boundaries code base kids opened (init ++ [previous]) (block :: rest) g)
    (hsame : ∀ b ∈ init ++ [previous] ++ block :: rest, b ≠ previous → g'.instrs b = g.instrs b)
    (hkids : ∀ k ∈ kids, k ∈ kids')
    (hcut : ∀ address gone, address < (base.node block).start →
      Span.Cut kids opened address gone → Span.Cut kids' opened' address gone)
    (hnew : ∃ gone, g.instrs previous = g'.instrs previous ++ gone ∧
      Span.Cut kids' opened' (base.node block).start gone)
    (hfound : ∀ c ∈ code.descendants, c.start ≠ 0 → c.start = (base.node block).start →
      ∃ k ∈ kids', k.start = c.start) :
    Boundaries code base kids' opened' (init ++ [previous] ++ [block]) rest g' := by
  obtain ⟨hfront, hback, hcross⟩ := List.pairwise_append.mp hasc
  obtain ⟨-, -, hinit⟩ := List.pairwise_append.mp hfront
  have hlast : ∀ b ∈ init, (base.node b).start < (base.node previous).start := fun b hb =>
    hinit b hb previous (by simp)
  have hblock : ∀ b ∈ block :: rest, b ≠ previous := by
    intro b hb he
    have := hcross previous (by simp) b hb
    rw [he] at this
    exact Nat.lt_irrefl _ this
  have hkept : g.instrs previous = base.instrs previous := h.kept previous (by simp)
  refine ⟨fun p n hi => ?_, fun b hb => ?_, fun b hb c hc hzero he => ?_⟩
  · rcases List.infix_concat_iff.mp hi with hsuffix | hi
    · -- the new boundary
      obtain ⟨rfl, rfl⟩ : p = previous ∧ n = block := by
        obtain ⟨front, hfront⟩ := hsuffix
        have hends : front ++ [p, n] = init ++ [previous, block] := by simpa using hfront
        simpa using (List.append_inj' hends rfl).2
      rw [← hkept]
      exact hnew
    · obtain ⟨gone, hgone, hc⟩ := h.cut p n hi
      have hlt : (base.node p).start < (base.node n).start := by
        have := hfront.sublist hi.sublist
        simpa using this
      have hn : n ∈ init ++ [previous] := hi.subset (by simp)
      have hp : p ∈ init ++ [previous] := hi.subset (by simp)
      have hne : p ≠ previous := by
        rintro rfl
        rcases List.mem_append.mp hn with hn | hn
        · have := hlast n hn
          omega
        · rw [List.mem_singleton.mp hn] at hlt
          exact Nat.lt_irrefl _ hlt
      refine ⟨gone, ?_, hcut _ _ (hcross n hn block (by simp)) hc⟩
      rw [hsame p (List.mem_append_left _ hp) hne]
      exact hgone
  · have hb : b ∈ block :: rest := by simpa using hb
    rw [hsame b (List.mem_append_right _ hb) (hblock b hb)]
    exact h.kept b (List.mem_append_right _ hb)
  · rcases List.mem_append.mp hb with hb | hb
    · obtain ⟨k, hk, hstart⟩ := h.found b hb c hc hzero he
      exact ⟨k, hkids k hk, hstart⟩
    · rw [List.mem_singleton.mp hb] at he
      exact hfound c hc hzero he

variable {init rest : List NodeId} {block : NodeId}

/-- Nothing is cut where no entry starts. -/
theorem pass (h : Boundaries code base kids opened (init ++ [previous]) (block :: rest) g)
    (hasc : base.Ascending (init ++ [previous] ++ block :: rest))
    (hnow : (base.node block).start = now) (hn : Span.Nesting kids opened now now)
    (hnone : ∀ c ∈ code.descendants, c.start ≠ 0 → c.start ≠ now) :
    Boundaries code base kids opened (init ++ [previous] ++ [block]) rest g := by
  subst hnow
  refine h.step hasc (fun _ _ _ => rfl) (fun _ hk => hk) (fun _ _ _ hc => hc)
    ⟨[], by simp, .passing hn⟩ fun c hc hzero he => ?_
  exact absurd he (hnone c hc hzero)

theorem opening (h : Boundaries code base kids opened (init ++ [previous]) (block :: rest) g)
    (hasc : base.Ascending (init ++ [previous] ++ block :: rest))
    (hlt : ∀ b ∈ init ++ [previous] ++ block :: rest, b < g.nodes.size)
    (hnow : (base.node block).start = now) (hn : Span.Nesting kids opened now now)
    (hf : f.start = now) (ho : Opens code previous now f i g g') :
    Boundaries code base (kids ++ [f]) (f :: opened) (init ++ [previous] ++ [block]) rest g' := by
  subst hnow
  refine h.step hasc (fun b hm hne => ho.trimmed.instrs b (hlt b hm) hne)
    (fun k hk => List.mem_append_left _ hk)
    (fun address gone hlow hc => hc.opening (hn.ne_of_start hf) (by omega))
    ⟨[i], ho.trimmed.instrs_eq ho.last, .at_opening hn hf ho.jump ho.target⟩
    fun c _ _ he => ⟨f, by simp, hf.trans he.symm⟩

theorem close (h : Boundaries code base kids (f :: opened) (init ++ [previous]) (block :: rest) g)
    (hasc : base.Ascending (init ++ [previous] ++ block :: rest))
    (hlt : ∀ b ∈ init ++ [previous] ++ block :: rest, b < g.nodes.size)
    (hnow : (base.node block).start = now) (hn : Span.Nesting kids (f :: opened) now now)
    (hstop : f.stop = now) {top : NodeId} (hc : Closes previous now top i g g')
    (hnone : ∀ c ∈ code.descendants, c.start ≠ 0 → c.start ≠ now) :
    Boundaries code base kids opened (init ++ [previous] ++ [block]) rest g' := by
  subst hnow
  refine h.step hasc (fun b hm hne => hc.trimmed.instrs b (hlt b hm) hne) (fun _ hk => hk)
    (fun address gone hlow hcut => hcut.close (by omega))
    ⟨[i], hc.trimmed.instrs_eq hc.last, .at_close hn hstop hc.exit⟩ fun c hc hzero he => ?_
  exact absurd he (hnone c hc hzero)

/-- The first block has no boundary before it, and no embedded entry starts there. -/
theorem first (h : Boundaries code base kids opened [] (block :: rest) g)
    (hzero : (base.node block).start = 0) :
    Boundaries code base kids opened [block] rest g := by
  refine ⟨fun p n hi => absurd hi.length_le (by simp), h.kept, fun b hm c _ hne he => ?_⟩
  rw [List.mem_singleton.mp hm, hzero] at he
  exact absurd he hne

/-- Listing a block cuts nothing. -/
theorem list {seen : List NodeId} (h : Boundaries code base kids opened seen rest g)
    (he : Embeds code base root kids opened done lo hi g) (block : NodeId) :
    Boundaries code base kids opened seen rest
      (listOnTop (opened.map Span.node ++ [root]) block g) := by
  have hinstrs : ∀ n, (listOnTop (opened.map Span.node ++ [root]) block g).instrs n =
      g.instrs n := by
    intro n
    cases opened with
    | nil => exact instrs_listBlock he.isFragment_root block n
    | cons f opened => exact instrs_listBlock (he.isFragment (he.nesting.mem f (by simp))) block n
  refine ⟨fun p n hi => ?_, fun b hm => ?_, h.found⟩
  · rw [hinstrs]
    exact h.cut p n hi
  · rw [hinstrs]
    exact h.kept b hm

end Boundaries

/-- The top of the stack is an open span if something is left below it. -/
theorem open_of_top {top : NodeId} {stack : List NodeId} (hne : stack ≠ [])
    (h : opened.map Span.node ++ [root] = top :: stack) :
    ∃ f opened', opened = f :: opened' ∧ top = f.node ∧
      stack = opened'.map Span.node ++ [root] := by
  cases opened with
  | nil => exact absurd (List.cons.inj h).2.symm hne
  | cons f opened' =>
    obtain ⟨htop, hrest⟩ := List.cons.inj h
    exact ⟨f, opened', rfl, htop.symm, hrest.symm⟩

/-- Between two blocks a fragment is closed, or one is opened, or nothing happens. -/
theorem boundary_spec (hs : base.Sound)
    (hends : ∀ b ∈ base.blocks, ∀ i ∈ (base.instrs b).dropLast, i.endsBlock = false)
    (hasc : base.Ascending base.blocks) {init rest : List NodeId} {block : NodeId}
    (hsplit : init ++ [previous] ++ block :: rest = base.blocks)
    (hnow : (base.node block).start = now)
    (h : Embeds code base root kids opened (init ++ [previous]) now now g)
    (hb : Boundaries code base kids opened (init ++ [previous]) (block :: rest) g) :
    Ends (closeBefore (some previous) now (opened.map Span.node ++ [root]) >>=
        openBefore code (some previous) block now) g
      (fun stack g' => ∃ kids opened, stack = opened.map Span.node ++ [root] ∧
        Embeds code base root kids opened (init ++ [previous]) (now + 1) (now + 1) g' ∧
        Boundaries code base kids opened (init ++ [previous] ++ [block]) rest g')
      (fun _ => True) := by
  have hprevious : previous ∈ base.blocks := by rw [← hsplit]; simp
  have hblock : block ∈ base.blocks := by rw [← hsplit]; simp
  have hasc' : base.Ascending (init ++ [previous] ++ block :: rest) := hsplit ▸ hasc
  have hsize : ∀ b ∈ init ++ [previous] ++ block :: rest, b < g.nodes.size := by
    intro b hm
    rw [hsplit] at hm
    exact Nat.lt_of_lt_of_le (hs.blocks b hm) h.carving.edited.size_le
  have hone : ∀ i ∈ (g.instrs previous).dropLast, i.endsBlock = false := by
    rw [hb.kept previous (by simp)]
    exact hends previous hprevious
  have hdone : ∀ b ∈ init ++ [previous], (base.node b).start < now := by
    intro b hm
    rw [← hnow]
    exact (List.pairwise_append.mp hasc').2.2 b hm block (by simp)
  rw [ends_bind]
  refine ((closeEnding_spec (hsize previous (by simp)) hone now _).and
    (closeEnding_carving h.carving previous now h.open_stack)).mono ?_ fun _ _ => trivial
  rintro stack₁ g₁ ⟨hstep, hcarving, -⟩
  have hstart : (g₁.node block).start = now :=
    (hcarving.edited.bounds (by decide) (hs.blocks _ hblock)).1.trans hnow
  have hlt₁ : previous < g₁.nodes.size :=
    Nat.lt_of_lt_of_le (hs.blocks _ hprevious) hcarving.edited.size_le
  have hspec := @openBefore_spec code _ _ _ _ _ _ hs hcarving hlt₁ hblock stack₁
  rw [hstart] at hspec
  refine hspec.mono ?_ fun _ h => h
  intro stack₂ g₂ hstep₂
  rcases hstep with ⟨rfl, rfl⟩ | ⟨top, i, hstack, hne, hclose⟩
  · rcases hstep₂ with ⟨hnone, rfl, rfl⟩ | ⟨f, i, rfl, hf, hopens, hcarving₂⟩
    · exact ⟨kids, opened, rfl, h.mono (Nat.le_succ now) (Nat.le_succ now),
        hb.pass hasc' hnow h.nesting hnone⟩
    · have hcarving₃ : Carving base (root :: (kids ++ [f]).map Span.node) (init ++ [previous])
          g₂ := by simpa using hcarving₂
      exact ⟨kids ++ [f], f :: opened, rfl, h.opening hs hdone hf hopens hcarving₃,
        hb.opening hasc' hsize hnow h.nesting hf hopens⟩
  · obtain ⟨f, opened', rfl, rfl, rfl⟩ := open_of_top hne hstack
    rcases hstep₂ with ⟨hnone, rfl, rfl⟩ | ⟨f', j, -, -, hopens, -⟩
    · have hstop : f.stop = now :=
        (h.spans f (h.nesting.mem f (by simp))).2.symm.trans hclose.stop
      exact ⟨kids, opened', rfl,
        (h.close hdone hclose hcarving).mono (Nat.le_succ now) (Nat.le_refl _),
        hb.close hasc' hsize hnow h.nesting hstop hclose hnone⟩
    · -- the jump of an opening fragment would stand before the exit of the closed one
      have hfalse := hclose.endsBlock_last hone hopens.last
      rw [Instr.endsBlock, hopens.jump] at hfalse
      cases hfalse

/-- By the time all blocks have been gone through, the spans say how all of them were cut. -/
theorem carve_spec (hs : base.Sound)
    (hends : ∀ b ∈ base.blocks, ∀ i ∈ (base.instrs b).dropLast, i.endsBlock = false)
    (hasc : base.Ascending base.blocks)
    (hfirst : ∀ b, base.blocks.head? = some b → (base.node b).start = 0) {rest : List NodeId}
    (hsplit : done ++ rest = base.blocks) (hlo : ∀ b ∈ rest, lo ≤ (base.node b).start)
    (h : Embeds code base root kids opened done lo lo g)
    (hb : Boundaries code base kids opened done rest g) :
    Ends (carve code done.getLast? (opened.map Span.node ++ [root]) rest) g
      (fun stack g' => ∃ kids opened lo, stack = opened.map Span.node ++ [root] ∧
        Embeds code base root kids opened base.blocks lo lo g' ∧
        Boundaries code base kids opened base.blocks [] g')
      (fun _ => True) := by
  induction rest generalizing g done kids opened lo with
  | nil =>
    rw [List.append_nil] at hsplit
    subst hsplit
    exact ⟨kids, opened, lo, rfl, h, hb⟩
  | cons block rest ih =>
    have hblock : block ∈ base.blocks := by rw [← hsplit]; simp
    have hstart : (g.node block).start = (base.node block).start :=
      (h.carving.edited.bounds (by decide) (hs.blocks _ hblock)).1
    generalize hnow : (base.node block).start = now at hstart
    have h' := h.mono (hnow ▸ hlo block (by simp)) (hnow ▸ hlo block (by simp))
    -- the boundary, then the block itself, then the rest
    have next : ∀ {stack : List NodeId} {g' : Graph} {kids opened : List Span},
        stack = opened.map Span.node ++ [root] →
        Embeds code base root kids opened done (now + 1) (now + 1) g' →
        Boundaries code base kids opened (done ++ [block]) rest g' →
        Ends (carve code (some block) stack rest) (listOnTop stack block g')
          (fun stack g' => ∃ kids opened lo, stack = opened.map Span.node ++ [root] ∧
            Embeds code base root kids opened base.blocks lo lo g' ∧
            Boundaries code base kids opened base.blocks [] g') (fun _ => True) := by
      intro stack g' kids opened hstack he hbd
      subst hstack
      have hrest := ih (by simpa using hsplit) (fun b hm => ?_) (he.list hnow)
        (hbd.list he block)
      · rw [List.getLast?_concat] at hrest
        exact hrest
      · rw [← hsplit] at hasc
        have := (List.pairwise_cons.mp (List.pairwise_append.mp hasc).2.1).1 b hm
        omega
    simp only [carve]
    rw [ends_bind, ends_get, hstart]
    simp only [ends_bind, ends_modify]
    rcases List.eq_nil_or_concat done with rfl | ⟨init, previous, rfl⟩
    · exact next rfl (h'.mono (Nat.le_succ now) (Nat.le_succ now))
        (hb.first (hfirst block (by rw [← hsplit]; rfl)))
    · rw [List.concat_eq_append, List.getLast?_concat]
      rw [List.concat_eq_append] at *
      have hstep := boundary_spec hs hends hasc hsplit hnow h' hb
      rw [ends_bind] at hstep
      refine hstep.mono (fun stack₁ g₁ h₁ => h₁.mono ?_ fun _ h => h) fun _ h => h
      rintro stack₂ g₂ ⟨kids, opened, hstack, he, hbd⟩
      exact next hstack he hbd

/-- What carving leaves when it succeeds: spans that are all closed. -/
theorem findFragments_spec (hs : base.Sound)
    (hends : ∀ b ∈ base.blocks, ∀ i ∈ (base.instrs b).dropLast, i.endsBlock = false)
    (hasc : base.Ascending base.blocks)
    (hfirst : ∀ b, base.blocks.head? = some b → (base.node b).start = 0) :
    Ends (findFragments code) base
      (fun _ g' => ∃ root kids lo, Embeds code base root kids [] base.blocks lo lo g' ∧
        Boundaries code base kids [] base.blocks [] g')
      (fun _ => True) := by
  have hnew := gist_withRoot (g := base) code
  have hempty : Embeds code base base.nodes.size [] [] [] 0 0 (withRoot code base) := by
    refine ⟨withRoot_carving code hs, .none, ?_, by simp, by simp, by simp, by simp⟩
    exact ⟨congrArg Node.start hnew, congrArg Node.stop hnew⟩
  have hwhole : Boundaries code base [] [] [] base.blocks (withRoot code base) := by
    refine ⟨fun p n hi => absurd hi.length_le (by simp), fun b hb => ?_, by simp⟩
    change ((withRoot code base).gist b).instrs = (base.gist b).instrs
    rw [gist_withRoot_of_lt code (hs.blocks b hb)]
  have hrun := carve_spec hs hends hasc hfirst (List.nil_append _) (by simp) hempty hwhole
  rw [ends_findFragments]
  refine hrun.mono ?_ fun _ h => h
  rintro stack g' ⟨kids, opened, lo, rfl, he, hb⟩
  split
  · trivial
  · rename_i hone
    -- only the root is left open
    have hnil : opened = [] := by simpa using hone
    subst hnil
    exact ⟨_, kids, lo, he, hb⟩

end

end Fragments

/-! ## The tree of fragments -/

/-- One node's addresses end before the other's begin. -/
def Node.Before (n m : Node) : Prop := n.stop ≤ m.start

/-- One node's addresses start before the other's and do not end before them. -/
def Node.Encloses (n m : Node) : Prop := n.start < m.start ∧ m.stop ≤ n.stop

namespace Graph

/-- The fragments after the root. -/
def embedded (g : Graph) : List NodeId := g.fragments.drop 1

/-- The fragment around an address that every other one around it encloses. -/
def Innermost (g : Graph) (f : NodeId) (address : Nat) : Prop :=
  f ∈ g.fragments ∧ (g.node f).covers address = true ∧
    ∀ k ∈ g.fragments, k ≠ f → (g.node k).covers address = true → (g.node k).Encloses (g.node f)

/-- Fragments carved out of the blocks of an entry: one for each place where an embedded entry
starts, nested in one another, each block listed where it lies, with the jump around each of them
and the exit at its end gone from the code, and nothing else. -/
structure FragmentTree (code : CodeEntry) (g base : Graph) : Prop where
  root : ∃ r, g.root? = some r ∧ (g.node r).start = 0 ∧ (g.node r).stop = code.length
  ascending : g.embedded.Pairwise fun f k => (g.node f).start < (g.node k).start
  starts : ∀ address, (∃ f ∈ g.embedded, (g.node f).start = address) ↔
    address ≠ 0 ∧ ∃ c ∈ code.descendants, c.start = address
  proper : ∀ f ∈ g.embedded, (g.node f).start < (g.node f).stop
  nested : g.fragments.Pairwise fun f k =>
    (g.node f).Before (g.node k) ∨ (g.node f).Encloses (g.node k)
  blocks : g.blocks = base.blocks
  once : (g.fragments.flatMap g.listed).Perm g.blocks
  listed : ∀ b ∈ g.blocks.dropLast, ∃ f, g.Innermost f (g.node b).start ∧ b ∈ g.listed f
  last : ∃ r b, g.root? = some r ∧ g.blocks.getLast? = some b ∧ g.instrs b = [] ∧ b ∈ g.listed r
  jumps : ∀ f ∈ g.embedded, ∃ p n i, [p, n] <:+: g.blocks ∧ (g.node n).start = (g.node f).start ∧
    base.instrs p = g.instrs p ++ [i] ∧ i.opcode = .b ∧ i.target? = some (g.node f).stop
  exits : ∀ f ∈ g.embedded, ∃ p n i, [p, n] <:+: g.blocks ∧ (g.node n).start = (g.node f).stop ∧
    base.instrs p = g.instrs p ++ [i] ∧ i.opcode = .exit
  ends : g.embedded.Pairwise fun f k => (g.node f).stop ≠ (g.node k).stop
  kept : ∀ b ∈ g.blocks, g.instrs b ≠ base.instrs b → ∃ n, [b, n] <:+: g.blocks ∧
    ∃ f ∈ g.embedded, (g.node n).start = (g.node f).start ∨ (g.node n).start = (g.node f).stop

end Graph

/-! ### Neighbours in a list -/

theorem eq_head_or_infix {α : Type} {l : List α} {n : α} (h : n ∈ l) :
    l.head? = some n ∨ ∃ p, [p, n] <:+: l := by
  obtain ⟨front, back, rfl⟩ := List.append_of_mem h
  rcases List.eq_nil_or_concat front with rfl | ⟨init, p, rfl⟩
  · exact .inl rfl
  · exact .inr ⟨p, init, back, by simp⟩

theorem eq_last_or_infix {α : Type} {l : List α} {p : α} (h : p ∈ l) :
    l.getLast? = some p ∨ ∃ n, [p, n] <:+: l := by
  obtain ⟨front, back, rfl⟩ := List.append_of_mem h
  cases back with
  | nil => exact .inl (by simp)
  | cons n back => exact .inr ⟨n, front, back, by simp⟩

theorem Tiles.start_le_stop {stop start : Nat} {ns : List Node} (h : Tiles stop start ns) {n : Node}
    (hn : n ∈ ns) : n.start ≤ stop := by
  obtain ⟨m, hm, hstart, -⟩ := h.last
  rcases eq_last_or_infix hn with hlast | ⟨k, hi⟩
  · rw [hm] at hlast
    cases hlast
    exact Nat.le_of_eq hstart
  · obtain ⟨front, rfl⟩ := List.getLast?_eq_some_iff.mp hm
    rcases List.mem_append.mp hn with hn | hn
    · have := (List.pairwise_append.mp h.pairwise).2.2 n hn m (by simp)
      omega
    · rw [List.mem_singleton.mp hn]
      exact Nat.le_of_eq hstart

/-- Every embedded entry starts where a block does. -/
theorem findBlocks_entries (h : findBlocks code = .ok g) {c : CodeEntry}
    (hc : c ∈ code.descendants) : ∃ b ∈ g.blocks, (g.node b).start = c.start := by
  obtain ⟨-, points, asked, -, -, hentries, hpoints, hg⟩ := findBlocks_eq h
  obtain ⟨n, hn, hstart⟩ := hpoints c.start (hentries c hc)
  have hw := ((Blocks.islands_wired points code).wireAll fun _ hb => hb).chainDead fun _ hb => hb
  rw [← hg] at hw
  rw [← Blocks.map_node_islands (Blocks.nodesOf points code) code.length] at hn
  obtain ⟨b, hb, rfl⟩ := List.mem_map.mp hn
  exact ⟨b, hw.blocks ▸ hb, (hw.start b).trans hstart⟩

namespace Fragments

section

variable {kids : List Span} {lo : Nat}

namespace Embeds

variable (h : Embeds code base root kids [] base.blocks lo lo g)

include h

theorem start_pos {k : Span} (hk : k ∈ kids) : 0 < k.start := by
  obtain ⟨c, -, hzero, hstart⟩ := h.entries k hk
  omega

theorem stop_le (ht : base.Tiled code) {k : Span} (hk : k ∈ kids) : k.stop ≤ code.length := by
  obtain ⟨b, hb, hstart⟩ := h.stops k hk
  rw [← hstart]
  exact ht.tiles.start_le_stop (List.mem_map_of_mem hb)

theorem encloses_iff {k f : Span} (hk : k ∈ kids) (hf : f ∈ kids) :
    (g.node k.node).Encloses (g.node f.node) ↔ k.start < f.start ∧ f.stop ≤ k.stop := by
  rw [Node.Encloses, (h.spans k hk).1, (h.spans k hk).2, (h.spans f hf).1, (h.spans f hf).2]

/-- The root is around all that is embedded in it. -/
theorem encloses_root (ht : base.Tiled code) {f : Span} (hf : f ∈ kids) :
    (g.node root).Encloses (g.node f.node) := by
  rw [Node.Encloses, h.whole.1, h.whole.2, (h.spans f hf).1, (h.spans f hf).2]
  exact ⟨h.start_pos hf, h.stop_le ht hf⟩

/-- Around the start of a block the innermost span is the innermost fragment. -/
theorem innermost_owner (ht : base.Tiled code)
    (hfragments : g.fragments = root :: kids.map Span.node) {address : Nat}
    (hend : address < code.length) {o : Option Span} (ho : Span.Innermost kids [] address o) :
    g.Innermost (owner root o) address := by
  have hcovers : ∀ k ∈ kids, (g.node k.node).covers address = true ↔
      k.start ≤ address ∧ address < k.stop := by
    intro k hk
    rw [Node.covers, (h.spans k hk).1, (h.spans k hk).2]
    simp
  cases ho with
  | outside hout =>
    refine ⟨by rw [hfragments]; exact List.mem_cons_self .., ?_, fun n hn hne hn' => ?_⟩
    · change (g.node root).covers address = true
      rw [Node.covers, h.whole.1, h.whole.2]
      simpa using hend
    · rw [hfragments] at hn
      rcases List.mem_cons.mp hn with rfl | hn
      · exact absurd rfl hne
      · obtain ⟨k, hk, rfl⟩ := List.mem_map.mp hn
        obtain ⟨hlow, hhigh⟩ := (hcovers k hk).mp hn'
        have := (hout k hk hlow).2
        omega
  | inside f hf hlow hhigh hin =>
    have hhigh : address < f.stop := hhigh.resolve_left (by simp)
    refine ⟨?_, (hcovers f hf).mpr ⟨hlow, hhigh⟩, fun n hn hne hn' => ?_⟩
    · rw [hfragments]
      exact List.mem_cons_of_mem _ (List.mem_map_of_mem hf)
    · rw [hfragments] at hn
      rcases List.mem_cons.mp hn with rfl | hn
      · exact h.encloses_root ht hf
      · obtain ⟨k, hk, rfl⟩ := List.mem_map.mp hn
        obtain ⟨hklow, hkhigh⟩ := (hcovers k hk).mp hn'
        refine (h.encloses_iff hk hf).mpr ?_
        -- both are around the address, so the one that starts earlier is around the other
        have hle : k.start ≤ f.start := by
          rcases hin k hk hklow with hle | ⟨-, hstop⟩
          · exact hle
          · omega
        have hlt : k.start < f.start := by
          refine Nat.lt_of_le_of_ne hle fun he => hne ?_
          rw [h.nesting.eq_of_start hk hf he]
          rfl
        rcases h.nesting.nested k hk (by simp) f hf hlt with hbefore | ⟨-, hin⟩
        · omega
        · exact ⟨hlt, hin⟩

/-- Of two fragments the later one lies behind the earlier one or inside it. -/
theorem pairwise_nested (ht : base.Tiled code)
    (hfragments : g.fragments = root :: kids.map Span.node) :
    g.fragments.Pairwise fun f k =>
      (g.node f).Before (g.node k) ∨ (g.node f).Encloses (g.node k) := by
  rw [hfragments]
  refine List.pairwise_cons.mpr ⟨fun n hn => ?_, List.pairwise_map.mpr ?_⟩
  · obtain ⟨k, hk, rfl⟩ := List.mem_map.mp hn
    exact .inr (h.encloses_root ht hk)
  · refine h.nesting.order.imp_of_mem fun {a b} ha hb hlt => ?_
    rw [Node.Before, (h.spans a ha).2, (h.spans b hb).1]
    rcases h.nesting.nested a ha (by simp) b hb hlt with hbefore | ⟨-, hin⟩
    · exact .inl hbefore
    · exact .inr ((h.encloses_iff ha hb).mpr ⟨hlt, hin⟩)

end Embeds

/-! ### The embedded fragments -/

variable (h : findBlocks code = .ok base)
  (he : Embeds code base root kids [] base.blocks lo lo g)

include h he

theorem fragments_eq : g.fragments = root :: kids.map Span.node := by
  obtain ⟨-, points, hw⟩ := findBlocks_wired h
  rw [he.carving.fragments, hw.fragments]
  rfl

theorem embedded_eq : g.embedded = kids.map Span.node := by
  rw [Graph.embedded, fragments_eq h he]
  rfl

theorem node_mem_embedded {k : Span} (hk : k ∈ kids) : k.node ∈ g.embedded := by
  rw [embedded_eq h he]
  exact List.mem_map_of_mem hk

theorem forall_embedded {P : NodeId → Prop} (hP : ∀ k ∈ kids, P k.node) : ∀ f ∈ g.embedded, P f := by
  intro f hf
  rw [embedded_eq h he] at hf
  obtain ⟨k, hk, rfl⟩ := List.mem_map.mp hf
  exact hP k hk

theorem pairwise_embedded {P : NodeId → NodeId → Prop}
    (hP : ∀ k ∈ kids, ∀ l ∈ kids, k.start < l.start → P k.node l.node) : g.embedded.Pairwise P := by
  rw [embedded_eq h he]
  exact List.pairwise_map.mpr (he.nesting.order.imp_of_mem fun hk hl hlt => hP _ hk _ hl hlt)

theorem start_block {b : NodeId} (hb : b ∈ base.blocks) : (g.node b).start = (base.node b).start :=
  (he.carving.edited.bounds (by decide) ((findBlocks_sound h).blocks b hb)).1

theorem embedded_ascending : g.embedded.Pairwise fun f k => (g.node f).start < (g.node k).start := by
  refine pairwise_embedded h he fun k hk l hl hlt => ?_
  rw [(he.spans k hk).1, (he.spans l hl).1]
  exact hlt

theorem embedded_proper : ∀ f ∈ g.embedded, (g.node f).start < (g.node f).stop := by
  refine forall_embedded h he fun k hk => ?_
  rw [(he.spans k hk).1, (he.spans k hk).2]
  exact (he.nesting.closed k hk (by simp)).1

/-! ### Where the code is cut -/

variable (hb : Boundaries code base kids [] base.blocks [] g)

include hb

theorem exists_embedded_iff (address : Nat) : (∃ f ∈ g.embedded, (g.node f).start = address) ↔
    address ≠ 0 ∧ ∃ c ∈ code.descendants, c.start = address := by
  constructor
  · rintro ⟨f, hf, rfl⟩
    revert f
    refine forall_embedded h he fun k hk => ?_
    obtain ⟨c, hc, hzero, hstart⟩ := he.entries k hk
    rw [(he.spans k hk).1]
    exact ⟨hstart ▸ hzero, c, hc, hstart⟩
  · rintro ⟨hzero, c, hc, rfl⟩
    obtain ⟨b, hbm, hbs⟩ := findBlocks_entries h hc
    obtain ⟨k, hk, hstart⟩ := hb.found b hbm c hc hzero hbs.symm
    exact ⟨k.node, node_mem_embedded h he hk, (he.spans k hk).1.trans hstart⟩

/-- Code is missing only before a boundary where a fragment starts or ends. -/
theorem exists_boundary_of_ne {b : NodeId} (hbm : b ∈ g.blocks) (hne : g.instrs b ≠ base.instrs b) :
    ∃ n, [b, n] <:+: g.blocks ∧ ∃ f ∈ g.embedded,
      (g.node n).start = (g.node f).start ∨ (g.node n).start = (g.node f).stop := by
  rw [he.carving.blocks] at hbm
  rcases eq_last_or_infix hbm with hlast | ⟨n, hi⟩
  · exact absurd (hb.kept b (by rw [hlast]; simp)) hne
  · refine ⟨n, he.carving.blocks ▸ hi, ?_⟩
    obtain ⟨gone, hgone, hcut⟩ := hb.cut b n hi
    rw [start_block h he (hi.subset (by simp))]
    cases hcut with
    | nothing => exact absurd (by simpa using hgone.symm) hne
    | jump f hf hstart =>
      exact ⟨f.node, node_mem_embedded h he hf, .inl ((he.spans f hf).1.trans hstart).symm⟩
    | exit f hf _ hstop =>
      exact ⟨f.node, node_mem_embedded h he hf, .inr ((he.spans f hf).2.trans hstop).symm⟩

variable (hc : Contiguous 0 code.instrs)

include hc

/-- Every boundary past the first block has a block before it. -/
theorem exists_cut {address : Nat} (hpos : 0 < address)
    (hn : ∃ n ∈ base.blocks, (base.node n).start = address) :
    ∃ p n gone, [p, n] <:+: g.blocks ∧ (g.node n).start = address ∧
      base.instrs p = g.instrs p ++ gone ∧ Span.Cut kids [] address gone := by
  obtain ⟨n, hn, rfl⟩ := hn
  obtain ⟨first, hfirst, hzero⟩ := ((findBlocks_tiled hc h).blockList hc).first
  rcases eq_head_or_infix hn with hhead | ⟨p, hi⟩
  · rw [hfirst] at hhead
    cases hhead
    omega
  · obtain ⟨gone, hgone, hcut⟩ := hb.cut p n hi
    exact ⟨p, n, gone, he.carving.blocks ▸ hi, start_block h he hn, hgone, hcut⟩

theorem exists_jump {k : Span} (hk : k ∈ kids) :
    ∃ p n i, [p, n] <:+: g.blocks ∧ (g.node n).start = k.start ∧
      base.instrs p = g.instrs p ++ [i] ∧ i.opcode = .b ∧ i.target? = some k.stop := by
  obtain ⟨c, hcm, -, hcs⟩ := he.entries k hk
  obtain ⟨p, n, gone, hi, hn, hgone, hcut⟩ :=
    exists_cut h he hb hc (he.start_pos hk) (hcs ▸ findBlocks_entries h hcm)
  cases hcut with
  | nothing hstart => exact absurd rfl (hstart k hk)
  | exit _ _ _ _ _ _ hstart => exact absurd rfl (hstart k hk)
  | jump f hf hstart i hop htarget =>
    obtain rfl : f = k := he.nesting.eq_of_start hf hk hstart
    exact ⟨p, n, i, hi, hn, hgone, hop, htarget⟩

/-- No two fragments end at one exit. -/
theorem exists_exit {k : Span} (hk : k ∈ kids) :
    (∃ p n i, [p, n] <:+: g.blocks ∧ (g.node n).start = k.stop ∧
      base.instrs p = g.instrs p ++ [i] ∧ i.opcode = .exit) ∧
    ∀ l ∈ kids, l.stop = k.stop → l = k := by
  have hpos := he.start_pos hk
  have hlt := (he.nesting.closed k hk (by simp)).1
  obtain ⟨p, n, gone, hi, hn, hgone, hcut⟩ :=
    exists_cut h he hb hc (by omega) (he.stops k hk)
  cases hcut with
  | nothing _ hstop => exact absurd rfl (hstop k hk (by simp))
  | jump _ _ _ _ _ _ hstop => exact absurd rfl (hstop k hk (by simp))
  | exit f hf _ hstop i hop _ hone =>
    obtain rfl : k = f := hone k hk (by simp) rfl
    exact ⟨⟨p, n, i, hi, hn, hgone, hop⟩, fun l hl hls => hone l hl (by simp) hls⟩

theorem embedded_stop_ne : g.embedded.Pairwise fun f k => (g.node f).stop ≠ (g.node k).stop := by
  refine pairwise_embedded h he fun k hk l hl hlt hstop => ?_
  rw [(he.spans k hk).2, (he.spans l hl).2] at hstop
  rw [(exists_exit h he hb hc hl).2 k hk hstop] at hlt
  exact Nat.lt_irrefl _ hlt

/-! ### Which fragment a block lies in -/

omit hb in
/-- A block that is not the last starts before the end of the code, so some span or the root is
around it. -/
theorem exists_innermost {b : NodeId} (hbm : b ∈ g.blocks.dropLast) :
    ∃ f, g.Innermost f (g.node b).start ∧ b ∈ g.listed f := by
  have ht := findBlocks_tiled hc h
  rw [he.carving.blocks] at hbm
  have hmem := List.dropLast_subset _ hbm
  obtain ⟨o, ho, hlisted⟩ := he.innermost b hmem
  rw [start_block h he hmem]
  refine ⟨owner root o, he.innermost_owner ht (fragments_eq h he) ?_ ho, hlisted⟩
  obtain ⟨final, hfinal, hlength, -⟩ := (ht.blockList hc).last
  obtain ⟨front, hfront⟩ := List.getLast?_eq_some_iff.mp hfinal
  have hasc := ht.ascending
  rw [hfront, List.dropLast_concat] at hbm
  rw [hfront] at hasc
  rw [← hlength]
  exact (List.pairwise_append.mp hasc).2.2 b hbm final (by simp)

/-- No span reaches beyond the end of the code, where the last block is. -/
theorem exists_last : ∃ b, g.blocks.getLast? = some b ∧ g.instrs b = [] ∧ b ∈ g.listed root := by
  have ht := findBlocks_tiled hc h
  obtain ⟨final, hfinal, hlength, -, hempty⟩ := (ht.blockList hc).last
  refine ⟨final, he.carving.blocks ▸ hfinal, ?_, ?_⟩
  · rw [hb.kept final (by rw [hfinal]; simp)]
    exact hempty
  · obtain ⟨o, ho, hlisted⟩ := he.innermost final (List.mem_of_getLast? hfinal)
    cases ho with
    | outside => exact hlisted
    | inside f hf _ hhigh =>
      have hstop := hhigh.resolve_left (by simp)
      have hle := he.stop_le ht hf
      omega

end

end Fragments

open Fragments in
/-- The fragments of an entry are its embedded entries, nested as a tree that shares out the blocks,
and carving them takes exactly their jumps and exits out of the code. -/
theorem fragmentTree_findFragments (hc : Contiguous 0 code.instrs) (h : findBlocks code = .ok base)
    (hr : (findFragments code).run base = .ok () g) : g.FragmentTree code base := by
  have ht := findBlocks_tiled hc h
  obtain ⟨first, hfirst, hzero⟩ := (ht.blockList hc).first
  have hstart : ∀ b, base.blocks.head? = some b → (base.node b).start = 0 := by
    intro b hb
    rw [hfirst] at hb
    cases hb
    exact hzero
  obtain ⟨-, -, hends, -⟩ := findBlocks_code hc h
  obtain ⟨root, kids, lo, he, hb⟩ :=
    (findFragments_spec (findBlocks_sound h) hends ht.ascending hstart).of_ok hr
  have hfragments := fragments_eq h he
  have hroot : g.root? = some root := by rw [Graph.root?, hfragments]; rfl
  obtain ⟨final, hfinal, hempty, hlisted⟩ := exists_last h he hb hc
  exact
    { root := ⟨root, hroot, he.whole⟩
      ascending := embedded_ascending h he
      starts := exists_embedded_iff h he hb
      proper := embedded_proper h he
      nested := he.pairwise_nested ht hfragments
      blocks := he.carving.blocks
      once := by
        rw [hfragments, he.carving.blocks]
        exact he.carving.perm
      listed := fun _ => exists_innermost h he hc
      last := ⟨root, final, hroot, hfinal, hempty, hlisted⟩
      jumps := by
        refine forall_embedded h he fun k hk => ?_
        rw [(he.spans k hk).1, (he.spans k hk).2]
        exact exists_jump h he hb hc hk
      exits := by
        refine forall_embedded h he fun k hk => ?_
        rw [(he.spans k hk).2]
        exact (exists_exit h he hb hc hk).1
      ends := embedded_stop_ne h he hb hc
      kept := fun _ => exists_boundary_of_ne h he hb }

/-- A function embedded in a function that is embedded in the code. -/
def nestedTwice : CodeEntry :=
  { name := "outer", length := 24
    children := [{ name := "middle", length := 24, start := 4,
                   children := [{ name := "inner", length := 24, start := 8 }] }]
    instrs := [⟨0, .b, none, .double, .double, .branch 20⟩,
      ⟨4, .b, none, .double, .double, .branch 8⟩,
      ⟨8, .exit, none, .int32, .double, .none⟩, ⟨12, .popz, none, .var, .double, .none⟩,
      ⟨16, .exit, none, .int32, .double, .none⟩, ⟨20, .exit, none, .int32, .double, .none⟩] }

set_option maxRecDepth 2000 in
theorem fragmentTree_findFragments_nestedTwice : ∃ g g', findBlocks nestedTwice = .ok g ∧
    (findFragments nestedTwice).run g = .ok () g' ∧
    g'.fragments.map (fun f => ((g'.node f).start, (g'.node f).stop, g'.listed f)) =
      [(0, 24, [0, 4, 5]), (4, 20, [1, 3]), (8, 12, [2])] ∧
    g'.FragmentTree nestedTwice g := by
  refine ⟨_, _, rfl, rfl, by decide, ?_⟩
  exact fragmentTree_findFragments ⟨rfl, rfl, rfl, rfl, rfl, rfl, trivial⟩ rfl rfl

end GmlLift
