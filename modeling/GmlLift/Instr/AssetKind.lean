/-! Kinds of game assets that code can name. -/

namespace GmlLift

inductive AssetKind where
  | object | sprite | sound | room | background | path | script | font | timeline | shader
  | sequence | animCurve | particleSystem | roomInstance
deriving DecidableEq, Repr

namespace AssetKind

def all : List AssetKind :=
  [object, sprite, sound, room, background, path, script, font, timeline, shader, sequence,
   animCurve, particleSystem, roomInstance]

/-- The code in an asset operand. The code 9 belongs to no kind. -/
def code : AssetKind → UInt8
  | object => 0 | sprite => 1 | sound => 2 | room => 3 | background => 4 | path => 5 | script => 6
  | font => 7 | timeline => 8 | shader => 10 | sequence => 11 | animCurve => 12
  | particleSystem => 13 | roomInstance => 14

def name : AssetKind → String
  | object => "Object" | sprite => "Sprite" | sound => "Sound" | room => "Room"
  | background => "Background" | path => "Path" | script => "Script" | font => "Font"
  | timeline => "Timeline" | shader => "Shader" | sequence => "Sequence"
  | animCurve => "AnimCurve" | particleSystem => "ParticleSystem"
  | roomInstance => "RoomInstance"

def ofCode? (v : UInt8) : Option AssetKind := all.find? fun k => k.code == v

def ofName? (s : String) : Option AssetKind := all.find? fun k => k.name == s

end AssetKind

end GmlLift
