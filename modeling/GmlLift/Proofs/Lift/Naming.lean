import GmlLift.Proofs.Build.Naming
import GmlLift.Proofs.Lift.Prescan

/-! # The scan and the build of a script

The scan takes the name of a function from the instructions after its body without running them.
Where a script binds its functions as the compiler does it, and no other store stands that close
behind a function without a name, the scan finds the names that building gives. -/
namespace GmlLift

namespace GlobalScript

/-! ## What the scan reads -/

/-- The graph of a script's functions. -/
def fragmentsOf (code : CodeEntry) : Except FlowError Graph := do
  let g ← findBlocks code
  match (findFragments code).run g with
  | .error e _ => .error e
  | .ok _ g => return g

/-- The entry of an embedded function with the end of its body. -/
def body? (n : Node) : Option (String × Nat) := match n.kind with
  | .fragment entry _ _ => some (entry, n.stop)
  | _ => none

/-- The embedded functions in code order. -/
def bodies (g : Graph) : List (String × Nat) := (g.fragments.drop 1).filterMap fun f => body? (g.node f)

/-- The code from an address on. -/
def codeFrom (code : CodeEntry) (address : Nat) : List Instr := match code.indexAt? address with
  | some k => code.instrs.drop k
  | none => []

/-- What the scan finds behind the body of an entry. -/
def found? (code : CodeEntry) (body : String × Nat) : Option (String × String) :=
  (boundName? body.1 ((codeFrom code body.2).take bindingWindow)).map (·, body.1)

theorem binding?_eq (code : CodeEntry) (n : Node) :
    binding? code n = (body? n).bind (found? code) := by
  unfold binding? body?
  cases hk : n.kind with
  | fragment entry argumentCount blocks =>
    simp only [found?, codeFrom, Option.bind_some]
    cases code.indexAt? n.stop with
    | none => rfl
    | some k =>
      simp only [Option.bind_eq_bind, Option.bind_some]
      cases boundName? entry ((code.instrs.drop k).take bindingWindow) <;> rfl
  | _ => rfl

theorem functions_eq (code : CodeEntry) :
    functions code = (fun g => (bodies g).filterMap (found? code)) <$> fragmentsOf code := by
  unfold functions fragmentsOf
  cases findBlocks code with
  | error e => rfl
  | ok g =>
    simp only [ok_bind]
    cases (findFragments code).run g with
    | error e g => rfl
    | ok u g => simp only [pure_eq_ok, map_ok, bodies, List.filterMap_filterMap, binding?_eq]

theorem mem_functions {code : CodeEntry} {found : List (String × String)}
    (h : functions code = .ok found) : ∃ g, fragmentsOf code = .ok g ∧ ∀ name entry,
      (name, entry) ∈ found ↔ ∃ stop, (entry, stop) ∈ bodies g ∧
        boundName? entry ((codeFrom code stop).take bindingWindow) = some name := by
  rw [functions_eq] at h
  obtain ⟨g, hg, rfl⟩ := ok_of_map h
  refine ⟨g, hg, fun name entry => ?_⟩
  rw [List.mem_filterMap]
  constructor
  · rintro ⟨⟨entry', stop⟩, hb, hf⟩
    obtain ⟨name', hname, he⟩ := Option.map_eq_some_iff.mp hf
    obtain ⟨rfl, rfl⟩ := Prod.mk.inj he
    exact ⟨stop, hb, hname⟩
  · rintro ⟨stop, hb, hname⟩
    refine ⟨(entry, stop), hb, ?_⟩
    simp only [found?, hname, Option.map_some]

/-! ## The name behind a body -/

/-- The variable that an instruction stores to. -/
def storedTo? (i : Instr) : Option String :=
  if i.opcode == .pop then i.var?.map (·.name) else none

theorem storedTo?_eq (i : Instr) : storedTo? i = match i.shape with
    | (.pop, .var v) => some v.name
    | _ => none := by
  obtain ⟨address, opcode, extended, type1, type2, operand⟩ := i
  cases opcode <;> cases operand <;> rfl

/-- The first store of a declaration is to its name. -/
theorem findSome?_storedTo {entry name : String} {is : List Instr} (h : Declaration entry name is) :
    is.findSome? storedTo? = some name := by
  obtain ⟨bound, target, id, hbound, hs⟩ := h.shape
  have hmap : is.findSome? storedTo? = (is.map Instr.shape).findSome? fun shape => match shape with
      | (.pop, .var v) => some v.name
      | _ => none := by
    rw [List.findSome?_map]
    exact congrArg (fun f => is.findSome? f) (funext storedTo?_eq)
  rw [hmap, hs]
  cases hbound <;> rfl

theorem length_declaration {entry name : String} {is : List Instr} (h : Declaration entry name is) :
    is.length ≤ bindingWindow := by
  obtain ⟨bound, target, id, hbound, hs⟩ := h.shape
  rw [← List.length_map (f := Instr.shape), hs]
  cases hbound <;> simp [bindingWindow]

theorem boundName?_declaration {entry name : String} {is rest : List Instr}
    (h : Declaration entry name is) :
    boundName? entry ((is ++ rest).take bindingWindow) = some name := by
  have hname := findSome?_storedTo h
  have hlength := length_declaration h
  obtain ⟨bound, target, id, hbound, hs⟩ := h.shape
  obtain ⟨first, is', rfl, hfirst, -⟩ := List.map_eq_cons_iff.mp hs
  obtain ⟨ho, hv⟩ := Prod.mk.inj hfirst
  rw [List.take_append, List.take_of_length_le hlength]
  unfold boundName?
  simp only [List.cons_append, ho, hv, beq_self_eq_true, Bool.and_self, if_true]
  rw [← List.cons_append, List.findSome?_append]
  exact congrArg (Option.or · _) hname

theorem boundName?_eq_none {entry : String} {window : List Instr}
    (h : (∀ i ∈ window.head?, i.shape ≠ (.push, .function entry)) ∨
      ∀ i ∈ window, storedTo? i = none) : boundName? entry window = none := by
  unfold boundName?
  split
  · rfl
  · rename_i first rest
    split
    · rename_i hpush
      rcases h with hne | hnone
      · obtain ⟨ho, hv⟩ := (Bool.and_eq_true _ _).mp hpush
        exact absurd (Prod.ext (eq_of_beq ho) (eq_of_beq hv)) (hne first rfl)
      · exact List.findSome?_eq_none_iff.mpr hnone
    · rfl

/-! ## Documented scripts -/

/-- How the code behind a function's body treats the function: it declares the function, or the
function has no name, and then it is not pushed there or no variable is stored to close by. -/
inductive Settled (code : CodeEntry) (names : String → Option String) (entry : String)
    (stop : Nat) : Prop
  | declared {name : String} {is rest : List Instr} (hn : names entry = some name)
      (h : Declaration entry name is) (hcode : codeFrom code stop = is ++ rest)
  | notPushed (hn : names entry = none)
      (h : ∀ i ∈ (codeFrom code stop).head?, i.shape ≠ (.push, .function entry))
  | notStored (hn : names entry = none)
      (h : ∀ i ∈ (codeFrom code stop).take bindingWindow, storedTo? i = none)

/-- The name that the scan finds behind a body is the function's. -/
theorem Settled.boundName? {code : CodeEntry} {names : String → Option String} {entry : String}
    {stop : Nat} (h : Settled code names entry stop) :
    boundName? entry ((codeFrom code stop).take bindingWindow) = names entry := by
  cases h with
  | declared hn h hcode => rw [hcode, boundName?_declaration h, hn]
  | notPushed hn h =>
    refine hn ▸ boundName?_eq_none (.inl fun i hi => h i ?_)
    rwa [List.head?_take, if_neg (by decide)] at hi
  | notStored hn h => rw [hn, boundName?_eq_none (.inr h)]

end GlobalScript

open GlobalScript in
/-- A script and its structured graph, with the names of its functions and the functions that are
pushed without one. -/
structure Documented (code : CodeEntry) (g : Graph) (names : String → Option String)
    (anonymous : List String) : Prop where
  settled : ∀ g, fragmentsOf code = .ok g → ∀ b ∈ bodies g, Settled code names b.1 b.2
  /-- Only embedded functions have names. -/
  embedded : ∀ g, fragmentsOf code = .ok g → ∀ entry, names entry ≠ none →
    ∃ stop, (entry, stop) ∈ bodies g
  tidy : g.Tidy names anonymous

/-- The scan of a documented script finds a name for a function that is built exactly if the
function has that name in what is built. -/
theorem mem_functions_iff_named {code : CodeEntry} {game : Game} {settings : Settings}
    {found : List (String × String)} {g : Graph} {body : List Stmt} {s : Build.State}
    {names : String → Option String} {anonymous : List String}
    (hfound : GlobalScript.functions code = .ok found) (_ : analyze code game.handlerLayout = .ok g)
    (hbuild : Build.root g game settings = .ok (body, s)) (hdoc : Documented code g names anonymous)
    (name entry : String) :
    ((name, entry) ∈ found ∧ ∃ d ∈ Stmt.gatherIn functionOf body, d.entry = entry) ↔
      ∃ d ∈ Stmt.gatherIn functionOf body, d.entry = entry ∧ d.name = some name := by
  obtain ⟨g₀, hg₀, hmem⟩ := GlobalScript.mem_functions hfound
  have hnamed : ∀ d ∈ Stmt.gatherIn functionOf body, d.name = names d.entry :=
    Build.named_root hdoc.tidy hbuild
  have hnames : (name, entry) ∈ found ↔ names entry = some name := by
    rw [hmem]
    constructor
    · rintro ⟨stop, hb, hname⟩
      rwa [(hdoc.settled g₀ hg₀ _ hb).boundName?] at hname
    · intro hname
      obtain ⟨stop, hb⟩ := hdoc.embedded g₀ hg₀ entry (by simp [hname])
      exact ⟨stop, hb, (hdoc.settled g₀ hg₀ _ hb).boundName?.trans hname⟩
  rw [hnames]
  constructor
  · rintro ⟨hname, d, hd, rfl⟩
    exact ⟨d, hd, rfl, (hnamed d hd).trans hname⟩
  · rintro ⟨d, hd, rfl, hname⟩
    exact ⟨(hnamed d hd).symm.trans hname, d, hd, rfl⟩

/-- The name of one function. -/
def onlyNamed (entry name : String) (e : String) : Option String :=
  if e = entry then some name else none

/-- What stands behind the function in the script that declares it. -/
theorem declaration_add : Declaration "gml_Script_add" "add"
    (((Prescan.declaring "gml_Script_add" "add").instrs.drop 2).take 9) where
  shape := ⟨_, -6, -1, .number (-1), rfl⟩
  valueFirst := by decide
  binds := by decide +kernel
  kept := by decide

theorem tidy_add {is : List Instr}
    (h : is = [] ∨ is = (Prescan.declaring "gml_Script_add" "add").instrs.drop 2) :
    Tidy (onlyNamed "gml_Script_add" "add") [] is := by
  rcases h with rfl | rfl
  · exact .nil
  · exact .declares declaration_add rfl
      (.plain ⟨fun _ h => (nomatch h), fun _ h => (nomatch h)⟩ .nil)

theorem mem_functions_iff_named_add : ∃ g body s,
    GlobalScript.functions (Prescan.declaring "gml_Script_add" "add") =
      .ok [("add", "gml_Script_add")] ∧
    analyze (Prescan.declaring "gml_Script_add" "add") (Game.handlerLayout {}) = .ok g ∧
    Build.root g {} {} = .ok (body, s) ∧
    Documented (Prescan.declaring "gml_Script_add" "add") g (onlyNamed "gml_Script_add" "add") [] ∧
    ∃ d ∈ Stmt.gatherIn functionOf body, d.entry = "gml_Script_add" ∧ d.name = some "add" := by
  have hfound : GlobalScript.functions (Prescan.declaring "gml_Script_add" "add") =
      .ok [("add", "gml_Script_add")] := by rfl
  have hbodies : GlobalScript.bodies <$> GlobalScript.fragmentsOf
      (Prescan.declaring "gml_Script_add" "add") = .ok [("gml_Script_add", 8)] := by rfl
  have hrun : ((analyze (Prescan.declaring "gml_Script_add" "add")
      (Game.handlerLayout {})).toOption.any fun g => (Build.root g {} {}).toOption.any fun (r : List Stmt × Build.State) =>
        decide ((∀ n ∈ g.nodes.items.toList, ∀ is ∈ n.pieces,
            is = [] ∨ is = (Prescan.declaring "gml_Script_add" "add").instrs.drop 2) ∧
          ∃ d ∈ Stmt.gatherIn functionOf r.1, d.entry = "gml_Script_add")) = true := by
    decide +kernel
  obtain ⟨g, hg, hrun⟩ := ok_of_any hrun
  obtain ⟨⟨body, s⟩, hbuild, hrun⟩ := ok_of_any hrun
  obtain ⟨hpieces, hbuilt⟩ := of_decide_eq_true hrun
  have hdoc : Documented (Prescan.declaring "gml_Script_add" "add") g
      (onlyNamed "gml_Script_add" "add") [] := by
    refine ⟨fun g₀ hg₀ b hb => ?_, fun g₀ hg₀ entry he => ?_, fun n is his => tidy_add ?_⟩
    · rw [hg₀, map_ok] at hbodies
      rw [Except.ok.inj hbodies, List.mem_singleton] at hb
      exact hb ▸ .declared rfl declaration_add rfl
    · rw [hg₀, map_ok] at hbodies
      rw [Except.ok.inj hbodies]
      refine ⟨8, List.mem_singleton.mpr (Prod.ext ?_ rfl)⟩
      exact Classical.byContradiction fun hne => he (if_neg hne)
    · cases hn : g.nodes.get? n with
      | none =>
        rw [Graph.node, hn] at his
        cases his
      | some x =>
        rw [Graph.node, hn] at his
        exact hpieces x (Array.mem_toList_iff.mpr (Array.mem_of_getElem? hn)) is his
  exact ⟨g, body, s, hfound, hg, hbuild, hdoc,
    (mem_functions_iff_named hfound hg hbuild hdoc "add" "gml_Script_add").mp
      ⟨List.mem_singleton_self _, hbuilt⟩⟩

/-- A script that passes a function to a call and then stores to a variable. -/
def passing : CodeEntry :=
  { CodeEntry.ofInstrs "gml_GlobalScript_s"
      [⟨0, .b, none, .double, .double, .branch 8⟩, ⟨4, .exit, none, .int32, .double, .none⟩,
        ⟨8, .push, none, .int32, .double, .function "gml_Script_anon"⟩,
        ⟨16, .conv, none, .int32, .var, .none⟩, ⟨20, .pushI, none, .int16, .double, .int16 (-1)⟩,
        ⟨24, .conv, none, .int32, .var, .none⟩, ⟨28, .call, none, .int32, .double, .call "method" 2⟩,
        ⟨36, .call, none, .int32, .double, .call "foo" 1⟩, ⟨44, .popz, none, .var, .double, .none⟩,
        ⟨48, .pushI, none, .int16, .double, .int16 1⟩,
        ⟨52, .pop, none, .var, .int32, .var ⟨"x", -1, .normal⟩⟩,
        ⟨60, .exit, none, .int32, .double, .none⟩] with
    children := [{ name := "gml_Script_anon", start := 4 }] }

/-- The scan takes the store behind the call for the one that names the function. -/
theorem not_mem_functions_iff_named_passing : ∃ found g body s,
    GlobalScript.functions passing = .ok found ∧
    analyze passing (Game.handlerLayout {}) = .ok g ∧ Build.root g {} {} = .ok (body, s) ∧
    ¬ (("x", "gml_Script_anon") ∈ found ↔
      ∃ d ∈ Stmt.gatherIn functionOf body, d.entry = "gml_Script_anon" ∧ d.name = some "x") := by
  have hfound : GlobalScript.functions passing = .ok [("x", "gml_Script_anon")] := by rfl
  have hrun : ((analyze passing (Game.handlerLayout {})).toOption.any fun g =>
      (Build.root g {} {}).toOption.any fun (r : List Stmt × Build.State) => decide (¬ ∃ d ∈ Stmt.gatherIn functionOf r.1,
        d.entry = "gml_Script_anon" ∧ d.name = some "x")) = true := by decide +kernel
  obtain ⟨g, hg, hrun⟩ := ok_of_any hrun
  obtain ⟨⟨body, s⟩, hbuild, hrun⟩ := ok_of_any hrun
  refine ⟨_, g, body, s, hfound, hg, hbuild, fun h => ?_⟩
  exact of_decide_eq_true hrun (h.mp (List.mem_singleton_self _))

end GmlLift
