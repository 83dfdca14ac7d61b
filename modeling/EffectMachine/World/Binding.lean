import EffectMachine.Routine.Effect
import EffectMachine.World.Scene

namespace EffectMachine

/-- What is known of the attack that started an activation. -/
structure Attack where
  hitType : Int32 := 0
  onHitEffect : Int32 := 0
  retaliation : Bool := false
  critical : Bool := false
  missed : Bool := false
  guarded : Bool := false
deriving DecidableEq

/-- Flags that every child activation starts with a copy of. -/
structure ActivationContext where
  /-- For the host alone; the machine only hands it on. -/
  broadcastOverride : Bool := false
  /-- Anchors stay where they were first found. -/
  snapshotPosition : Bool := false
  /-- Anchors at joints stay where they were first found. -/
  snapshotJoints : Bool := false
  attack : Attack := {}
deriving DecidableEq

inductive Binding where
  | actors (source : ActorId) (target : Option ActorId) (context : ActivationContext)
  | weather
  | zone (link : ResourceId)
deriving DecidableEq

namespace Binding

def source? : Binding → Option ActorId
  | actors source _ _ => some source
  | _ => none

/-- The bound target, or else the source. -/
def target? : Binding → Option ActorId
  | actors source target _ => some (target.getD source)
  | _ => none

def actor? (b : Binding) : ActorRole → Option ActorId
  | .source => b.source?
  | .target => b.target?

def zoneLink? : Binding → Option ResourceId
  | zone link => some link
  | _ => none

def context : Binding → ActivationContext
  | actors _ _ context => context
  | _ => {}

/-- Weather and zone bindings have no context to change. -/
def hasContext : Binding → Bool
  | actors .. => true
  | _ => false

def mapContext (b : Binding) (f : ActivationContext → ActivationContext) : Binding :=
  match b with
  | actors source target context => actors source target (f context)
  | other => other

private def truth (b : Bool) : Int32 := if b then 1 else 0

def gameState (b : Binding) (input : GameStateInput) : Int32 :=
  let attack := b.context.attack
  match input with
  | .hitType => attack.hitType
  | .onHitEffect => attack.onHitEffect
  | .retaliation => truth attack.retaliation
  | .critical => truth attack.critical
  | .missed => truth attack.missed
  | .guarded => truth attack.guarded
  | .targetIsSource => truth (b.hasContext && b.target? = b.source?)

end Binding

namespace Joint

def root : UInt8 := 0x00

/-- A weapon on the back or the hip. -/
def sheathed : UInt8 := 0x1A

/-- A weapon in the hand. -/
def drawn : UInt8 := 0x1B

/-- Eight joints in a ring around an actor. -/
def ring : List UInt8 := [0xE0, 0xE1, 0xE2, 0xE3, 0xE4, 0xE5, 0xE6, 0xE7]

def asksForRing (joint : UInt8) : Bool := 0xF0 ≤ joint && joint ≤ 0xF7

end Joint

namespace Scene

/-- In combat stance a weapon is in the hand. -/
def remapJoint (s : Scene) (actor : ActorId) (joint : UInt8) : UInt8 :=
  if joint = Joint.sheathed && s.inCombatStance actor then Joint.drawn else joint

/-- The point with the least distance to another, the first of several. -/
def nearest (point : Vec3) : List Vec3 → Option Vec3
  | [] => none
  | p :: ps =>
    let key (q : Vec3) : Int := (q.distanceSquared point).orderKey
    some (ps.foldl (fun best q => if key q < key best then q else best) p)

/-- The ring joint nearest the opposing actor; without another actor the one that was asked for. -/
def ringJoint? (s : Scene) (actor : ActorId) (opposing : Option ActorId) (joint : UInt8) :
    Option Vec3 :=
  match (opposing.filter (· ≠ actor)).bind s.position? with
  | some point => nearest point (Joint.ring.filterMap (s.joint? actor))
  | none => s.joint? actor (joint - 0x10)

/-- Where a joint is, or the actor itself when it has no such joint. -/
def jointPosition? (s : Scene) (actor : ActorId) (opposing : Option ActorId) (joint : UInt8) :
    Option Vec3 :=
  let joint := s.remapJoint actor joint
  if joint = Joint.root then s.position? actor
  else
    let found := if Joint.asksForRing joint then s.ringJoint? actor opposing joint
      else s.joint? actor joint
    found.or (s.position? actor)

end Scene
end EffectMachine
