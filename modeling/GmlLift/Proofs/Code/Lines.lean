import GmlLift.Listing
import GmlLift.Proofs.Flow.SplitPoints
import Mathlib.Data.List.Forall2
import Mathlib.Data.List.Nodup

/-! # Addresses in a listing

The lines of a listing are laid out one after the other, each at the sum of the sizes before it.
`Laid` gives every line its address without a draft of labels and waiting jumps; an assembled entry
is what lies there, with every jump leading to the address of the line that defines its label. All
its split points are then boundaries, unless a hook names code addresses of its own. -/
namespace GmlLift

open Text

namespace Listing

/-- What a line without blanks around it puts at an address. -/
inductive Item where
  /-- Nothing: the line is empty or a comment. -/
  | note
  | label (name : String)
  | child (entry : CodeEntry)
  /-- An instruction, with the label that a jump names. -/
  | code (i : Instr) (label : Option String)

namespace Item

def size : Item → Nat
  | code i _ => i.size
  | _ => 0

def label? : Item → Option String
  | label name => some name
  | _ => none

def child? : Item → Option CodeEntry
  | child entry => some entry
  | _ => none

def code? : Item → Option (Instr × Option String)
  | code i name => some (i, name)
  | _ => none

end Item

/-- Read a line as an item at an address. -/
def item (address : Nat) (line : List Char) : Parsed Item := match line with
  | [] => .ok .note
  | '#' :: _ => .ok .note
  | ':' :: '[' :: rest =>
    (fun name => .label (String.ofList name)) <$> orFault .malformedLabel line (before? ']' rest)
  | '>' :: rest => .child <$> child (trim rest) address
  | _ => (fun (i, label) => .code i label) <$> instr line address

/-- Lines one after the other, each with its address and what it puts there. -/
inductive Laid : Nat → List (List Char) → List (Nat × Item) → Nat → Prop
  | nil (start : Nat) : Laid start [] [] start
  | cons {start stop : Nat} {line : List Char} {lines : List (List Char)} {it : Item}
      {items : List (Nat × Item)} (hitem : item start line = .ok it)
      (hrest : Laid (start + it.size) lines items stop) :
      Laid start (line :: lines) ((start, it) :: items) stop

/-- The address of a label: where a line defines it, or the end of the code for an `end` that no
line defines. -/
inductive LabelAt (items : List (Nat × Item)) (stop : Nat) (label : String) : Nat → Prop
  | line {address : Nat} (h : (address, .label label) ∈ items) : LabelAt items stop label address
  | codeEnd (hend : label = "end") (h : ∀ address, (address, .label label) ∉ items) :
      LabelAt items stop label stop

/-- An instruction as it stands on a line and in the entry: all the same but for a jump, which leads
to the one address of its label. -/
def Resolved (items : List (Nat × Item)) (stop : Nat) : Instr × Option String → Instr → Prop
  | (i, none), j => j = i
  | (i, some label), j => j = { i with operand := j.operand } ∧
      ∃ target, j.target? = some target ∧ ∀ a, LabelAt items stop label a ↔ a = target

/-! ## Lines -/

theorem instr_address {line : List Char} {address : Nat} {i : Instr} {label : Option String}
    (h : instr line address = .ok (i, label)) : i.address = address := by
  unfold instr at h
  obtain ⟨type1, -, h⟩ := ok_of_bind h
  obtain ⟨type2, -, h⟩ := ok_of_bind h
  split at h
  · obtain ⟨operand, -, h⟩ := ok_of_bind h
    cases h
    rfl
  · split at h
    · cases h
    · obtain ⟨⟨operand, l⟩, -, h⟩ := ok_of_bind h
      cases h
      rfl

/-- Without a label only the way out of a `with` stands where a jump does. -/
theorem operand_eq_envExit {op : Opcode} {type : DataType} {text : List Char} {o : Operand}
    (hop : op.hasOffset = true) (h : operand op type text = .ok (o, none)) : o = .envExit := by
  have hjump : (if op = .popEnv ∧ text = "<drop>".toList then
      (·, none) <$> (pure .envExit : Parsed Operand)
      else do return (.branch 0, some (String.ofList (← jumpLabel text)))) = .ok (o, none) := by
    unfold operand at h
    cases op with
    | b | bt | bf | pushEnv | popEnv => exact h
    | _ => cases hop
  split at hjump
  · cases hjump
    rfl
  · obtain ⟨label, -, h⟩ := ok_of_bind hjump
    cases h

theorem item_code {address : Nat} {line : List Char} {i : Instr} {label : Option String}
    (h : item address line = .ok (.code i label)) : instr line address = .ok (i, label) := by
  unfold item at h
  split at h
  · cases h
  · cases h
  · obtain ⟨name, -, h⟩ := ok_of_map h
    cases h
  · obtain ⟨entry, -, h⟩ := ok_of_map h
    cases h
  · obtain ⟨⟨j, l⟩, hread, h⟩ := ok_of_map h
    cases h
    exact hread

theorem item_child {address : Nat} {line : List Char} {entry : CodeEntry}
    (h : item address line = .ok (.child entry)) : ∃ text, child text address = .ok entry := by
  unfold item at h
  split at h
  · cases h
  · cases h
  · obtain ⟨name, -, h⟩ := ok_of_map h
    cases h
  · obtain ⟨entry, hread, h⟩ := ok_of_map h
    cases h
    exact ⟨_, hread⟩
  · obtain ⟨⟨j, l⟩, -, h⟩ := ok_of_map h
    cases h

/-- An embedded entry starts where its line stands and embeds none itself. -/
theorem child_start {text : List Char} {address : Nat} {entry : CodeEntry}
    (h : child text address = .ok entry) : entry.start = address ∧ entry.children = [] := by
  have hattributes : ∀ (fields : List (List Char)) (e : CodeEntry),
      fields.foldlM childAttribute e = .ok entry →
        entry.start = e.start ∧ entry.children = e.children := by
    intro fields
    induction fields with
    | nil =>
      intro e he
      cases he
      exact ⟨rfl, rfl⟩
    | cons field fields ih =>
      intro e he
      obtain ⟨e', hattribute, he⟩ := ok_of_bind he
      obtain ⟨hstart, hchildren⟩ := ih e' he
      have hkept : e'.start = e.start ∧ e'.children = e.children := by
        unfold childAttribute at hattribute
        obtain ⟨⟨key, value⟩, -, hattribute⟩ := ok_of_bind hattribute
        obtain ⟨n, -, hattribute⟩ := ok_of_bind hattribute
        dsimp only at hattribute
        split at hattribute
        · cases hattribute
          exact ⟨rfl, rfl⟩
        · split at hattribute
          · cases hattribute
            exact ⟨rfl, rfl⟩
          · cases hattribute
      exact ⟨hstart.trans hkept.1, hchildren.trans hkept.2⟩
  unfold child at h
  dsimp only at h
  split at h
  all_goals
    dsimp only at h
    split at h
    · cases h
    · exact hattributes _ _ h

theorem instr_target {line : List Char} {address : Nat} {i : Instr}
    (h : instr line address = .ok (i, none)) (hop : i.opcode.hasOffset = true) :
    i.target? = none := by
  unfold instr at h
  obtain ⟨type1, -, h⟩ := ok_of_bind h
  obtain ⟨type2, -, h⟩ := ok_of_bind h
  split at h
  · obtain ⟨operand, -, h⟩ := ok_of_bind h
    cases h
    cases hop
  · split at h
    · cases h
    · obtain ⟨⟨o, l⟩, ho, h⟩ := ok_of_bind h
      cases h
      obtain rfl := operand_eq_envExit hop ho
      rfl

/-- What a line adds to a draft. -/
structure Adds (number : Nat) (d d' : Draft) (it : Item) : Prop where
  address : d'.address = d.address + it.size
  instrs : d'.instrs.toList = d.instrs.toList ++
    it.code?.toList.map fun (i, label) => (i, label.map (·, number))
  labels : d'.labels = it.label?.toList.map (·, d.address) ++ d.labels
  fresh : ∀ name, it = .label name → d.labels.lookup name = none
  children : d'.children.toList = d.children.toList ++ it.child?.toList

theorem line_adds {d d' : Draft} {number : Nat} {line : List Char}
    (h : d.line number line = .ok d') :
    ∃ it, item d.address line = .ok it ∧ Adds number d d' it := by
  have note : Adds number d d .note :=
    ⟨rfl, (List.append_nil _).symm, rfl, fun _ he => (nomatch he), (List.append_nil _).symm⟩
  unfold Draft.line at h
  split at h
  · cases h
    exact ⟨.note, rfl, note⟩
  · cases h
    exact ⟨.note, rfl, note⟩
  · obtain ⟨name, hname, h⟩ := ok_of_bind h
    dsimp only at h
    split at h
    · cases h
    · rename_i hfresh
      cases h
      have hread := congrArg (Functor.map fun s => Item.label (String.ofList s)) hname
      refine ⟨.label (String.ofList name), hread, rfl, (List.append_nil _).symm, rfl,
        fun other he => ?_, (List.append_nil _).symm⟩
      cases he
      exact Option.not_isSome_iff_eq_none.mp hfresh
  · obtain ⟨entry, hentry, h⟩ := ok_of_bind h
    cases h
    have hread := congrArg (Functor.map Item.child) hentry
    exact ⟨.child entry, hread, rfl, (List.append_nil _).symm, rfl, fun _ he => (nomatch he),
      Array.toList_push⟩
  · rename_i hempty hcomment hlabel hchild
    obtain ⟨⟨i, label⟩, hi, h⟩ := ok_of_bind h
    cases h
    refine ⟨.code i label, ?_, rfl, Array.toList_push, rfl, fun _ he => (nomatch he),
      (List.append_nil _).symm⟩
    unfold item
    split
    · exact absurd rfl hempty
    · exact absurd rfl (hcomment _)
    · exact absurd rfl (hlabel _)
    · exact absurd rfl (hchild _)
    · rw [hi]; rfl

/-! ## All lines -/

/-- What lines add to a draft. -/
structure Drawn (d d' : Draft) (items : List (Nat × Item)) : Prop where
  instrs : d'.instrs.toList.map (fun (i, label) => (i, label.map Prod.fst)) =
    d.instrs.toList.map (fun (i, label) => (i, label.map Prod.fst)) ++
      items.filterMap fun (_, it) => it.code?
  labels : ∀ name address, (name, address) ∈ d'.labels ↔
    (name, address) ∈ d.labels ∨ (address, .label name) ∈ items
  nodup : (d.labels.map Prod.fst).Nodup → (d'.labels.map Prod.fst).Nodup
  children : d'.children.toList = d.children.toList ++ items.filterMap fun (_, it) => it.child?

theorem not_mem_of_lookup_eq_none {labels : List (String × Nat)} {name : String}
    (h : labels.lookup name = none) : name ∉ labels.map Prod.fst := by
  intro hm
  obtain ⟨⟨key, address⟩, hkey, rfl⟩ := List.mem_map.mp hm
  rw [List.lookup_eq_none_iff] at h
  simpa using h _ hkey

theorem foldlM_drawn {numbered : List (List Char × Nat)} {d d' : Draft}
    (h : numbered.foldlM (fun d (line, number) =>
      (d.line number (trim line)).mapError (CodeError.listing number)) d = .ok d') :
    ∃ items, Laid d.address (numbered.map fun l => trim l.1) items d'.address ∧
      Drawn d d' items := by
  induction numbered generalizing d with
  | nil =>
    cases h
    exact ⟨[], .nil _, (List.append_nil _).symm, by simp, id, (List.append_nil _).symm⟩
  | cons l numbered ih =>
    obtain ⟨line, number⟩ := l
    obtain ⟨d₁, h₁, h⟩ := ok_of_bind h
    obtain ⟨it, hit, hadds⟩ := line_adds (ok_of_mapError h₁)
    obtain ⟨items, hlaid, hdrawn⟩ := ih h
    refine ⟨(d.address, it) :: items, .cons hit (hadds.address ▸ hlaid), ?_, fun name address => ?_,
      fun hn => hdrawn.nodup ?_, ?_⟩
    · rw [hdrawn.instrs, hadds.instrs]
      cases it <;> simp [Item.code?, Function.comp_def]
    · rw [hdrawn.labels, hadds.labels]
      cases it <;> simp [Item.label?, or_assoc, or_left_comm, and_comm]
    · rw [hadds.labels]
      cases it with
      | label name =>
        exact List.nodup_cons.mpr ⟨not_mem_of_lookup_eq_none (hadds.fresh name rfl), hn⟩
      | _ => exact hn
    · rw [hdrawn.children, hadds.children]
      cases it <;> simp [Item.child?]

/-- The instructions on lines, each with the label that it names. -/
def coded (items : List (Nat × Item)) : List (Instr × Option String) :=
  items.filterMap fun (_, it) => it.code?

namespace Laid

variable {start stop : Nat} {lines : List (List Char)} {items : List (Nat × Item)}

theorem exists_line (h : Laid start lines items stop) {address : Nat} {it : Item}
    (hm : (address, it) ∈ items) : ∃ line, item address line = .ok it := by
  induction h with
  | nil => cases hm
  | cons hitem _ ih =>
    rcases List.mem_cons.mp hm with he | hm
    · cases he
      exact ⟨_, hitem⟩
    · exact ih hm

theorem exists_instr (h : Laid start lines items stop) {i : Instr} {label : Option String}
    (hm : (i, label) ∈ coded items) : ∃ line address, instr line address = .ok (i, label) := by
  obtain ⟨⟨address, it⟩, hm, he⟩ := List.mem_filterMap.mp hm
  cases it with
  | code j l =>
    cases he
    obtain ⟨line, hline⟩ := h.exists_line hm
    exact ⟨line, address, item_code hline⟩
  | _ => cases he

theorem contiguous (h : Laid start lines items stop) :
    Contiguous start ((coded items).map Prod.fst) ∧
      endFrom start ((coded items).map Prod.fst) = stop := by
  induction h with
  | nil => exact ⟨trivial, rfl⟩
  | @cons start stop line lines it items hitem hrest ih =>
    cases it with
    | code i label =>
      obtain rfl := instr_address (item_code hitem)
      exact ⟨⟨rfl, ih.1⟩, ih.2⟩
    | _ => exact ih

theorem boundary (h : Laid start lines items stop) {address : Nat} {it : Item}
    (hm : (address, it) ∈ items) :
    address = stop ∨ ∃ i ∈ (coded items).map Prod.fst, i.address = address := by
  induction h with
  | nil => cases hm
  | @cons start stop line lines it' items hitem hrest ih =>
    rcases List.mem_cons.mp hm with he | hm
    · cases he
      obtain ⟨hcontiguous, hstop⟩ := (Laid.cons hitem hrest).contiguous
      rw [← hstop]
      exact hcontiguous.start_boundary
    · rcases ih hm with he | ⟨i, hi, he⟩
      · exact .inl he
      · refine .inr ⟨i, ?_, he⟩
        cases it' with
        | code j label => exact List.mem_cons_of_mem _ hi
        | _ => exact hi

end Laid

/-! ## Labels -/

theorem mem_of_lookup_eq_some {labels : List (String × Nat)} {name : String} {address : Nat}
    (h : labels.lookup name = some address) : (name, address) ∈ labels := by
  obtain ⟨before, after, rfl, -⟩ := List.lookup_eq_some_iff.mp h
  simp

/-- A label that a draft knows has one address. -/
theorem labelAt_iff {d : Draft} {items : List (Nat × Item)}
    (hlabels : ∀ name address, (name, address) ∈ d.labels ↔ (address, .label name) ∈ items)
    (hn : (d.labels.map Prod.fst).Nodup) {label : String} {target : Nat}
    (h : d.labelAddress? label = some target) (a : Nat) :
    LabelAt items d.address label a ↔ a = target := by
  unfold Draft.labelAddress? at h
  split at h
  · rename_i address hlookup
    cases h
    have hm := mem_of_lookup_eq_some hlookup
    constructor
    · rintro (hline | ⟨-, hnone⟩)
      · have he := List.inj_on_of_nodup_map hn ((hlabels _ _).mpr hline) hm rfl
        exact congrArg Prod.snd he
      · exact absurd ((hlabels _ _).mp hm) (hnone _)
    · rintro rfl
      exact .line ((hlabels _ _).mp hm)
  · rename_i hlookup
    split at h
    · rename_i hend
      cases h
      have hnone : ∀ address, (address, .label label) ∉ items := by
        intro address hm
        exact not_mem_of_lookup_eq_none hlookup
          (List.mem_map.mpr ⟨_, (hlabels _ _).mpr hm, rfl⟩)
      constructor
      · rintro (hline | -)
        · exact absurd hline (hnone _)
        · rfl
      · rintro rfl
        exact .codeEnd hend hnone
    · cases h

theorem LabelAt.boundary {start stop : Nat} {lines : List (List Char)}
    {items : List (Nat × Item)} (h : Laid start lines items stop) {label : String} {a : Nat}
    (ha : LabelAt items stop label a) :
    a = stop ∨ ∃ i ∈ (coded items).map Prod.fst, i.address = a := by
  cases ha with
  | line hm => exact h.boundary hm
  | codeEnd => exact .inl rfl

theorem resolve_resolved {d : Draft} {items : List (Nat × Item)}
    (hlabels : ∀ name address, (name, address) ∈ d.labels ↔ (address, .label name) ∈ items)
    (hn : (d.labels.map Prod.fst).Nodup) {i j : Instr} {label : Option (String × Nat)}
    (h : d.resolve (i, label) = .ok j) :
    Resolved items d.address (i, label.map Prod.fst) j := by
  cases label with
  | none =>
    cases h
    rfl
  | some label =>
    obtain ⟨label, number⟩ := label
    simp only [Draft.resolve] at h
    split at h
    · rename_i target htarget
      cases h
      refine ⟨rfl, target, ?_, labelAt_iff hlabels hn htarget⟩
      have he : (i.address : Int) + (target - i.address) = target := by omega
      simp [Instr.target?, Instr.offset?, he]
    · cases h

/-! ## Entries -/

namespace Resolved

variable {items : List (Nat × Item)} {stop : Nat} {is : List (Instr × Option String)}
  {js : List Instr}

theorem same {p : Instr × Option String} {j : Instr} (h : Resolved items stop p j) :
    j = { p.1 with operand := j.operand } := by
  obtain ⟨i, label⟩ := p
  cases label with
  | none => exact h ▸ rfl
  | some label => exact h.1

theorem address {p : Instr × Option String} {j : Instr} (h : Resolved items stop p j) :
    j.address = p.1.address := by
  rw [h.same]

theorem size {p : Instr × Option String} {j : Instr} (h : Resolved items stop p j) :
    j.size = p.1.size := by
  rw [h.same]
  rfl

/-- Leading jumps to their labels moves no instruction. -/
theorem contiguous (h : List.Forall₂ (Resolved items stop) is js) {start : Nat}
    (hc : Contiguous start (is.map Prod.fst)) :
    Contiguous start js ∧ endFrom start js = endFrom start (is.map Prod.fst) := by
  induction h generalizing start with
  | nil => exact ⟨trivial, rfl⟩
  | @cons p j is js hp _ ih =>
    obtain ⟨haddress, hc⟩ := hc
    have hend : j.endAddress = p.1.endAddress := by
      rw [Instr.endAddress, Instr.endAddress, hp.address, hp.size]
    obtain ⟨hcontiguous, hstop⟩ := ih hc
    rw [← hend] at hcontiguous
    refine ⟨⟨hp.address.trans haddress, hcontiguous⟩, ?_⟩
    rw [List.map_cons, endFrom, endFrom, hend, hstop]

/-- An address of the listing is one of the entry. -/
theorem boundary (h : List.Forall₂ (Resolved items stop) is js) {a : Nat}
    (ha : ∃ i ∈ is.map Prod.fst, i.address = a) : ∃ j ∈ js, j.address = a := by
  obtain ⟨i, hi, rfl⟩ := ha
  obtain ⟨p, hp, rfl⟩ := List.mem_map.mp hi
  obtain ⟨j, hj, hr⟩ := exists_of_mem_left h hp
  exact ⟨j, hj, hr.address⟩

end Resolved

section

variable {start stop : Nat} {lines : List (List Char)} {items : List (Nat × Item)}
  {js : List Instr} (hlaid : Laid start lines items stop)
  (hresolved : List.Forall₂ (Resolved items stop) (coded items) js)

include hlaid hresolved

/-- An embedded entry starts between two instructions and embeds none itself. -/
theorem Laid.child_boundary {c : CodeEntry}
    (hc : c ∈ items.filterMap fun (_, it) => it.child?) :
    (c.start = stop ∨ ∃ j ∈ js, j.address = c.start) ∧ c.children = [] := by
  obtain ⟨⟨address, it⟩, hm, he⟩ := List.mem_filterMap.mp hc
  cases it with
  | child entry =>
    cases he
    obtain ⟨line, hline⟩ := hlaid.exists_line hm
    obtain ⟨text, htext⟩ := item_child hline
    obtain ⟨rfl, hleaf⟩ := child_start htext
    exact ⟨(hlaid.boundary hm).imp_right (Resolved.boundary hresolved), hleaf⟩
  | _ => cases he

/-- A jump leads to where its label stands; one without a label leads nowhere. -/
theorem Laid.jump_boundary {j : Instr} (hj : j ∈ js) (hop : j.opcode.hasOffset = true) {t : Nat}
    (ht : j.target? = some t) : t = stop ∨ ∃ k ∈ js, k.address = t := by
  obtain ⟨⟨i, label⟩, hi, hr⟩ := exists_of_mem_left hresolved.flip hj
  cases label with
  | none =>
    obtain rfl : j = i := hr
    obtain ⟨line, address, hline⟩ := hlaid.exists_instr hi
    rw [instr_target hline hop] at ht
    cases ht
  | some label =>
    obtain ⟨-, target, htarget, hlabel⟩ := hr
    obtain rfl := Option.some.inj (ht.symm.trans htarget)
    exact (((hlabel t).mpr rfl).boundary hlaid).imp_right (Resolved.boundary hresolved)

end

end Listing

theorem forest_of_leaves {entries : List CodeEntry} (h : ∀ c ∈ entries, c.children = []) :
    CodeEntry.forest entries = entries := by
  induction entries with
  | nil => rfl
  | cons c entries ih =>
    have hleaf : c.descendants = [] := by
      obtain ⟨_, _, _, _, _, _, children⟩ := c
      obtain rfl : children = [] := h _ List.mem_cons_self
      rfl
    rw [CodeEntry.forest, hleaf, List.nil_append, ih fun c hc => h c (by simp [hc])]

open Listing

/-- An assembled entry lies in memory as its lines say: instructions one after the other from 0 up
to the length, jumps at the addresses of their labels, embedded entries at boundaries. Without
exception hooks it can be cut into blocks. -/
theorem assemble_addresses {name source : String} {code : CodeEntry}
    (h : assemble name source = .ok code) :
    (∃ items, Laid 0 ((lines source.toList).map trim) items code.length ∧
      List.Forall₂ (Resolved items code.length) (coded items) code.instrs ∧
      code.children = (items.filterMap fun (_, it) => it.child?).map
        fun c => { c with length := code.length }) ∧
    Contiguous 0 code.instrs ∧ code.length = CodeEntry.endOf code.instrs ∧
    (∀ c ∈ code.children, code.Boundary c.start) ∧
    ((∀ i ∈ code.instrs, i.isCallTo Hook.try_ = false) → ∃ g, findBlocks code = .ok g) := by
  unfold assemble at h
  obtain ⟨draft, hdraft, h⟩ := ok_of_bind h
  obtain ⟨instrs, hinstrs, h⟩ := ok_of_bind h
  obtain ⟨items, hlaid, hdrawn⟩ := foldlM_drawn hdraft
  rw [← Function.comp_def, ← List.map_map, List.zipIdx_map_fst] at hlaid
  have hlabels : ∀ name address, (name, address) ∈ draft.labels ↔ (address, .label name) ∈ items :=
    fun name address => (hdrawn.labels name address).trans (by simp)
  have hitems : draft.instrs.toList.map (fun (i, label) => (i, label.map Prod.fst)) =
      coded items := hdrawn.instrs
  have hresolved : List.Forall₂ (Resolved items draft.address) (coded items) instrs := by
    rw [← hitems, List.forall₂_map_left_iff]
    exact (ok_of_mapM hinstrs).imp fun (i, label) j hj =>
      resolve_resolved hlabels (hdrawn.nodup .nil) hj
  obtain ⟨hcontiguous, hend⟩ := Resolved.contiguous hresolved hlaid.contiguous.1
  have hlength : draft.address = CodeEntry.endOf instrs := by
    rw [endOf_eq_endFrom_zero, hend, hlaid.contiguous.2]
  have hchildren : ∀ c ∈ draft.children.toList,
      (c.start = draft.address ∨ ∃ j ∈ instrs, j.address = c.start) ∧ c.children = [] := by
    intro c hc
    rw [hdrawn.children] at hc
    exact hlaid.child_boundary hresolved hc
  cases h
  refine ⟨⟨items, hlaid, hresolved, ?_⟩, hcontiguous, hlength, ?_, fun hhook => ?_⟩
  · rw [hdrawn.children]
    rfl
  · intro c hc
    obtain ⟨child, hchild, rfl⟩ := List.mem_map.mp hc
    exact (hchildren child hchild).1
  · refine exists_findBlocks_of_no_hook hcontiguous hlength.symm hhook (fun c hc => ?_)
      fun j hj hop t ht => hlaid.jump_boundary hresolved hj hop ht
    have hleaves : ∀ c ∈ draft.children.toList.map fun c => { c with length := draft.address },
        c.children = [] := by
      intro c hc
      obtain ⟨child, hchild, rfl⟩ := List.mem_map.mp hc
      exact (hchildren child hchild).2
    rw [CodeEntry.descendants, forest_of_leaves hleaves] at hc
    obtain ⟨child, hchild, rfl⟩ := List.mem_map.mp hc
    exact (hchildren child hchild).1

/-- A jump over an embedded function, a jump back and one to the end of the code. -/
def threeJumps : String := String.intercalate "\n"
  ["b [over]", "> inner (args=1)", "exit.i", ":[over]", "push.v self.a", "conv.v.b", "bf [end]",
    "b [over]"]

theorem assemble_addresses_threeJumps : ∃ code, assemble "f" threeJumps = .ok code ∧
    code.instrs.map (fun i => (i.address, i.target?)) =
      [(0, some 8), (4, none), (8, none), (16, none), (20, some 28), (24, some 8)] ∧
    code.children.map CodeEntry.start = [4] ∧ Contiguous 0 code.instrs ∧
    code.length = 28 ∧ (∃ g, findBlocks code = .ok g) := by
  have hrun : ((assemble "f" threeJumps).toOption.any fun code =>
      decide (code.instrs.map (fun i => (i.address, i.target?)) =
        [(0, some 8), (4, none), (8, none), (16, none), (20, some 28), (24, some 8)] ∧
      code.children.map CodeEntry.start = [4] ∧ code.length = 28 ∧
      ∀ i ∈ code.instrs, i.isCallTo Hook.try_ = false)) = true := by decide +kernel
  obtain ⟨code, hcode, hall⟩ := ok_of_any hrun
  obtain ⟨haddresses, hstarts, hlength, hhook⟩ := of_decide_eq_true hall
  obtain ⟨-, hcontiguous, -, -, hblocks⟩ := assemble_addresses hcode
  exact ⟨code, hcode, haddresses, hstarts, hcontiguous, hlength, hblocks hhook⟩

end GmlLift
