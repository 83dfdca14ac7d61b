import EffectMachine.Sequence.Control
import EffectMachine.World.Binding
import EffectMachine.World.Tick

namespace EffectMachine

/-- What an instruction does that only commands the world outside. -/
inductive SideEffect where
  | submit (command : Command)
  | playSound (sound : ResourceId) (position : Vec3) (volume : Scalar) (follow : Option ActorId)
  /-- The binding has no actor for the instruction. -/
  | noActor (role : ActorRole)
  | nothing

/-- Where the sounds and lights of an activation are. -/
def Scene.bindingPosition (s : Scene) (b : Binding) : Vec3 :=
  let found := match b with
    | .actors source _ _ => s.position? source
    | .weather => none
    | .zone link => (s.object? link).map ZoneObject.position
  found.getD s.observer

namespace SideEffect

def forActor (b : Binding) (role : ActorRole) (command : ActorId → Command) : SideEffect :=
  match b.actor? role with
  | some actor => submit (command actor)
  | none => noActor role

/-- The actors of a binding face each other when there are two. -/
def face (b : Binding) : SideEffect :=
  match b.source?, b.target? with
  | some actor, some toward => if actor = toward then nothing else submit (.face actor toward)
  | _, _ => nothing

/-- What an effect does to the world outside; nothing at all is said of the others. -/
def of? (s : Scene) (b : Binding) (e : Effect) : Option SideEffect :=
  let frames := e.duration
  match e.action with
  | .playSound sound volume follow =>
    some (playSound sound (s.bindingPosition b) volume (if follow then b.source? else none))
  | .stopSound sound => some (submit (.stopSound sound))
  | .playAnimation animation role loops transition =>
    some (forActor b role (.playAnimation · animation loops transition))
  | .stopAnimation animation role => some (forActor b role (.stopAnimation · animation))
  | .hold lock role => some (forActor b role (.lock · lock frames))
  | .faceTarget => some (face b)
  | .modelTransform role translation rotation scale =>
    some (forActor b role (.modelTransform · translation rotation scale frames))
  | .actorFade role start finish => some (forActor b role (.fade · start finish frames))
  | .actorWrap role color => some (forActor b role (.wrap · color frames))
  | .weaponTrace color => some (forActor b .source (.weaponTrace · color frames))
  | .screenFlash color => some (submit (.screenFlash color frames))
  | .knockback role animation => some (forActor b role (.knockback · animation))
  | .flinch role => some (forActor b role .flinch)
  | .cameraShake intensity => some (submit (.cameraShake intensity frames))
  | .pointLight color radius =>
    some (submit (.pointLight (s.bindingPosition b) color radius frames))
  | .setVisibility role visible => some (forActor b role (.setVisibility · visible))
  | _ => none

def perform (action : Action) : SideEffect → Tick Unit
  | submit command => Tick.submit command
  | playSound sound position volume follow => do
    let _ ← Tick.playSound sound position volume follow
  | noActor role => Tick.note (.noActor action.name role)
  | nothing => return ()

end SideEffect
end EffectMachine
