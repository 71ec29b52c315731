import GmlLift.CodeError
import GmlLift.Lift.GlobalScript
import GmlLift.Lift.Session
import GmlLift.Listing
import GmlLift.Naming.Load
import GmlLift.Settings.Load

/-! The command line: listings in, source text out.

Files are looked up through a function, so that a whole run is a function of its arguments and of
the files' contents. -/

namespace GmlLift.CommandLine

structure Options where
  files : List String := []
  registry : Option String := none
  settings : Option String := none
  skip : List String := []
  /-- Games with plain arrays of two indices and no boolean type. -/
  legacy : Bool := false
  assetReferences : Bool := false
  olderExceptionHandling : Bool := false
  /-- Accepted; results do not depend on it. -/
  verbose : Bool := false
deriving DecidableEq, Repr

namespace Options

/-- A value of an option that may be given once. A path is not empty. -/
def path? (given : Option String) (value : String) : Option (Option String) :=
  if given.isNone && value != "" then some (some value) else none

/-- Turn on a switch that may be given once. -/
def turnOn? (given : Bool) : Option Bool := if given then none else some true

/-- Set an option that takes a value, by its name. -/
def setValue? (o : Options) (name value : String) : Option Options := match name with
  | "registry" => do return { o with registry := ← path? o.registry value }
  | "settings" => do return { o with settings := ← path? o.settings value }
  | "skip" => some { o with skip := o.skip ++ [value] }
  | _ => none

/-- The options that take a value. -/
def takesValue (name : String) : Bool := ["registry", "settings", "skip"].contains name

/-- Turn on a switch by its name. -/
def setSwitch? (o : Options) (name : String) : Option Options := match name with
  | "legacy" => do return { o with legacy := ← turnOn? o.legacy }
  | "asset-references" => do return { o with assetReferences := ← turnOn? o.assetReferences }
  | "older-exception-handling" => do
    return { o with olderExceptionHandling := ← turnOn? o.olderExceptionHandling }
  | "verbose" => do return { o with verbose := ← turnOn? o.verbose }
  | _ => none

def addFile? (o : Options) (path : String) : Option Options :=
  if path = "" then none else some { o with files := o.files ++ [path] }

def addFiles? (o : Options) (paths : List String) : Option Options := paths.foldlM addFile? o

/-- Whether an argument cannot be the value of the option before it. A lone dash can. -/
def looksLikeOption (argument : String) : Bool :=
  argument.toList.head? == some '-' && argument != "-"

/-- Read arguments one by one. A value follows its option or is joined to it by `=`; after `--` all
are files. -/
def read? : Options → List String → Option Options
  | o, [] => some o
  | o, "--" :: rest => o.addFiles? rest
  | o, "-v" :: rest => do read? (← o.setSwitch? "verbose") rest
  | o, argument :: rest => match Text.after? ['-', '-'] argument.toList with
    | some name => match Text.cutAt (· == '=') name with
      | some (name, value) => do
        read? (← o.setValue? (String.ofList name) (String.ofList value)) rest
      | none =>
        let name := String.ofList name
        if takesValue name then match rest with
          | value :: rest =>
            if looksLikeOption value then none else do read? (← o.setValue? name value) rest
          | [] => none
        else do read? (← o.setSwitch? name) rest
    | none =>
      if looksLikeOption argument then none else do read? (← o.addFile? argument) rest

/-- The options that the arguments give. At least one file is needed. -/
def ofArguments? (arguments : List String) : Option Options := do
  let o ← read? {} arguments
  if o.files.isEmpty then none else some o

/-- Every path that a run looks at. -/
def paths (o : Options) : List String := o.settings.toList ++ o.files ++ o.registry.toList

end Options

/-- The parts of a path. Empty parts, and dots after the first part, do not count. -/
def pathParts (path : String) : List String :=
  match path.toList.splitOn '/' with
  | [] => []
  | first :: rest =>
    let parts := (first :: rest.filter (· != ['.'])).filter fun p => !p.isEmpty
    parts.map String.ofList

/-- The last part of a path without its extension: what stands before the last dot, unless the dot
comes first. A path that ends in dots alone names nothing. -/
def stem? (path : String) : Option String := do
  let name ← (pathParts path).getLast?
  if name = "." || name = ".." then none
  else match Text.cutAt (· == '.') name.toList.reverse with
    | some (_, before) => if before.isEmpty then some name else some (String.ofList before.reverse)
    | none => some name

/-- What a run prints, and the error that ended it. -/
structure Outcome where
  output : String := ""
  error : Option String := none
deriving DecidableEq, Repr

section

/-! Running, given the contents of files. -/

variable (file : String → Option String)

/-- A file's contents, or the complaint that there are none. -/
def contents (path : String) : Except String String := match file path with
  | some text => .ok text
  | none => .error ("failed to read " ++ path)

def loadSettings (o : Options) : Except String Settings := do
  let base ← match o.settings with
    | none => pure {}
    | some path => match Settings.ofJson? (← contents file path) with
      | some s => pure s
      | none => throw ("failed to parse settings " ++ path)
  return base.skipAll o.skip

def loadRules : Option String → Except String RuleBook
  | none => return RuleBook.basic
  | some path => do
    match RuleBook.ofJson (← contents file path) with
    | .ok book => return book
    | .error _ => throw ("failed to load registry " ++ path)

def loadListing (path : String) : Except String CodeEntry := do
  match stem? path with
  | none => throw ("no code entry name in " ++ path)
  | some name => match assemble name (← contents file path) with
    | .ok code => return code
    | .error _ => throw ("failed to assemble " ++ path)

/-- Entries named so declare global functions. -/
def globalScriptMark : String := "gml_GlobalScript_"

def loadGame (o : Options) (entries : List CodeEntry) : Except String Game := do
  let scripts := entries.filter fun e => globalScriptMark.toList.isPrefixOf e.name.toList
  match FunctionTable.ofScripts scripts with
  | .error _ => throw "global function prescan failed"
  | .ok globals =>
    return {
      gmlv2 := !o.legacy
      typedBooleans := !o.legacy
      assetReferences := o.assetReferences
      olderExceptionHandling := o.olderExceptionHandling
      globals
      rules := ← loadRules file o.registry }

/-- What the entries print, up to the first that fails. Of several, each has its name before it. -/
def printAll (game : Game) (settings : Settings) (many : Bool) : List CodeEntry → Outcome
  | [] => {}
  | code :: rest => match ({} : Session).source game settings code with
    | .error e => { error := some e.message }
    | .ok (text, _) =>
      let heading := if many then "// " ++ code.name ++ "\n" else ""
      let later := printAll game settings many rest
      { later with output := heading ++ text ++ later.output }

/-- Run with options that are in order. -/
def runWith (o : Options) : Outcome :=
  let loaded : Except String (Settings × List CodeEntry × Game) := do
    let settings ← loadSettings file o
    let entries ← o.files.mapM (loadListing file)
    return (settings, entries, ← loadGame file o entries)
  match loaded with
  | .error e => { error := some e }
  | .ok (settings, entries, game) => printAll game settings (entries.length > 1) entries

end

end GmlLift.CommandLine
