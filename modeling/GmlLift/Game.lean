import GmlLift.Flow.TryCatch
import GmlLift.FunctionTable
import GmlLift.Naming.Rule

/-! What is known about the game that code comes from. -/

namespace GmlLift

/-- Facts about the game's age, its assets and its names. An early byte format rules out the newer
language whatever the other fields say. -/
structure Game where
  gms2 : Bool := true
  gmlv2 : Bool := true
  typedBooleans : Bool := true
  /-- Assets are pushed as references, so a plain number is never an asset. -/
  assetReferences : Bool := false
  /-- Instances placed in rooms are pushed as references. -/
  roomInstanceReferences : Bool := false
  bytecode14OrLower : Bool := false
  /-- Finally bodies stand before catch bodies. -/
  olderExceptionHandling : Bool := false
  globals : FunctionTable := {}
  rules : RuleBook := {}
  /-- Assets with their kinds and numbers; a pair of kind and number occurs once. -/
  assets : List (AssetKind × Int × String) := []
  builtinVariables : List String := []
  builtinFunctions : List String := []

namespace Game

def usesGms2 (g : Game) : Bool := g.gms2 && !g.bytecode14OrLower

/-- Structs, functions and plain array indices need the newer runtime. -/
def usesGmlv2 (g : Game) : Bool := g.gmlv2 && g.usesGms2

/-- Without a boolean type, `true` and `false` are the numbers one and zero. -/
def usesTypedBooleans (g : Game) : Bool := g.typedBooleans && !g.bytecode14OrLower

def handlerLayout (g : Game) : TryCatch.Layout :=
  if g.olderExceptionHandling then .finallyFirst else .catchFirst

def isBuiltinVariable (g : Game) (name : String) : Bool := g.builtinVariables.contains name

def isBuiltinFunction (g : Game) (name : String) : Bool := g.builtinFunctions.contains name

/-- Name an asset; a later name replaces an earlier one. -/
def addAsset (g : Game) (kind : AssetKind) (id : Int) (name : String) : Game :=
  { g with assets :=
      g.assets.filter (fun (k, i, _) => !(k == kind && i == id)) ++ [(kind, id, name)] }

def assetName? (g : Game) (kind : AssetKind) (id : Int) : Option String :=
  (g.assets.find? fun (k, i, _) => k == kind && i == id).map fun (_, _, n) => n

def assetId? (g : Game) (kind : AssetKind) (name : String) : Option Int :=
  (g.assets.find? fun (k, _, n) => k == kind && n == name).map fun (_, i, _) => i

def scriptId? (g : Game) (name : String) : Option Int := g.assetId? .script name

end Game

end GmlLift
