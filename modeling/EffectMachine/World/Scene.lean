import EffectMachine.Resource.Id
import EffectMachine.Space.Rotation

namespace EffectMachine

structure ActorId where
  number : UInt32
deriving DecidableEq

def ActorId.display (id : ActorId) : String := "actor#" ++ toString id.number

structure Actor where
  position : Vec3
  facing : Rotation := Rotation.identity
  scale : Scalar := 1
  combatStance : Bool := false
  /-- Offsets in the actor's own space, before its scale. -/
  joints : List (UInt8 × Vec3) := []

structure ZoneObject where
  position : Vec3
  orientation : Rotation := Rotation.identity
  scale : Scalar := 1

structure Scene where
  actors : List (ActorId × Actor) := []
  objects : List (ResourceId × ZoneObject) := []
  observer : Vec3 := Vec3.zero

def putEntry {κ α : Type} [DecidableEq κ] (entries : List (κ × α)) (key : κ) (value : α) :
    List (κ × α) :=
  (key, value) :: entries.filter fun e => e.1 ≠ key

namespace Scene

def actor? (s : Scene) (id : ActorId) : Option Actor := s.actors.lookup id

def insertActor (s : Scene) (id : ActorId) (a : Actor) : Scene :=
  { s with actors := putEntry s.actors id a }

def removeActor (s : Scene) (id : ActorId) : Scene :=
  { s with actors := s.actors.filter fun e => e.1 ≠ id }

def moveActor (s : Scene) (id : ActorId) (position : Vec3) : Scene :=
  match s.actor? id with
  | some a => s.insertActor id { a with position }
  | none => s

def insertObject (s : Scene) (link : ResourceId) (o : ZoneObject) : Scene :=
  { s with objects := putEntry s.objects link o }

def object? (s : Scene) (link : ResourceId) : Option ZoneObject := s.objects.lookup link

def position? (s : Scene) (id : ActorId) : Option Vec3 := (s.actor? id).map (·.position)

def joint? (s : Scene) (id : ActorId) (joint : UInt8) : Option Vec3 := do
  let a ← s.actor? id
  let offset ← a.joints.lookup joint
  return a.position + a.facing.apply (offset * a.scale)

def inCombatStance (s : Scene) (id : ActorId) : Bool :=
  match s.actor? id with
  | some a => a.combatStance
  | none => false

end Scene
end EffectMachine
