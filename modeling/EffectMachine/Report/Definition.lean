import EffectMachine.Report.Document
import EffectMachine.Resource.Directory

namespace EffectMachine

open Document

def ResourceId.document (id : ResourceId) : Document := text id.name

def ResourcePath.document (p : ResourcePath) : Document := list (p.segments.map ResourceId.document)

def Vec3.document (v : Vec3) : Document := list [scalar v.x, scalar v.y, scalar v.z]

def Color.document (c : Color) : Document :=
  record [("r", scalar c.r), ("g", scalar c.g), ("b", scalar c.b), ("a", scalar c.a)]

private def word (n : UInt32) : Document := natural n.toNat
private def half (n : UInt16) : Document := natural n.toNat
private def byte (n : UInt8) : Document := natural n.toNat
private def integer (n : Int32) : Document := number n.toInt
private def role (r : ActorRole) : String × Document := ("target", text r.name)

private def operation (name : String) (fields : List (String × Document)) : Document :=
  record (("op", text name) :: fields)

def ConditionSource.document : ConditionSource → Document
  | constant value => record [("Constant", integer value)]
  | gameState code => record [("GameState", integer code)]
  | random bound => record [("Random", integer bound)]
  | unknown tag value =>
    record [("Unknown", record [("tag", byte tag), ("value", integer value)])]

def Action.document : Action → Document
  | spawnGenerator generator => operation "SpawnGenerator" [("generator", generator.document)]
  | stopGenerator generator => operation "StopGenerator" [("generator", generator.document)]
  | spawnRoutine routine blocking =>
    operation "SpawnRoutine" [("routine", routine.document), ("blocking", bool blocking)]
  | linkRoutine routine blocking =>
    operation "LinkRoutine" [("routine", routine.document), ("blocking", bool blocking)]
  | randomRoutine choices =>
    operation "RandomRoutine" [("choices", list (choices.map ResourceId.document))]
  | stopRoutine routine => operation "StopRoutine" [("routine", routine.document)]
  | playSound sound volume follow =>
    operation "PlaySound"
      [("sound", sound.document), ("volume", scalar volume), ("follow", bool follow)]
  | stopSound sound => operation "StopSound" [("sound", sound.document)]
  | playAnimation animation actor loops transition =>
    operation "PlayAnimation"
      [("animation", animation.document), role actor, ("loops", byte loops),
       ("transition", half transition)]
  | stopAnimation animation actor =>
    operation "StopAnimation" [("animation", animation.document), role actor]
  | hold lock actor => operation ("Lock" ++ lock.name) [role actor]
  | faceTarget => operation "FaceTarget" []
  | beginBlock => operation "BeginBlock" []
  | endBlock => operation "EndBlock" []
  | condition register source =>
    operation "Condition" [("register", byte register), ("source", source.document)]
  | branch whenTrue => operation "Branch" [("when_true", bool whenTrue)]
  | modelTransform actor translation rotation scale =>
    operation "ModelTransform"
      [role actor, ("translation", translation.document), ("rotation", rotation.document),
       ("scale", scale.document)]
  | actorFade actor start finish =>
    operation "ActorFade" [role actor, ("from", scalar start), ("to", scalar finish)]
  | actorWrap actor color => operation "ActorWrap" [role actor, ("color", color.document)]
  | weaponTrace color => operation "WeaponTrace" [("color", color.document)]
  | followPoints generator points arcHeight =>
    operation "FollowPoints"
      [("generator", generator.document), ("points", word points), ("arc_height", scalar arcHeight)]
  | screenFlash color => operation "ScreenFlash" [("color", color.document)]
  | knockback actor animation =>
    operation "Knockback" [role actor, ("animation", animation.document)]
  | playbackRate rate => operation "PlaybackRate" [("rate", scalar rate)]
  | loopRoutine => operation "LoopRoutine" []
  | timeOfDayGate startMinute endMinute =>
    operation "TimeOfDayGate" [("start_minute", half startMinute), ("end_minute", half endMinute)]
  | broadcastOverride enabled => operation "BroadcastOverride" [("enabled", bool enabled)]
  | snapshot position joints =>
    operation "Snapshot" [("position", bool position), ("joints", bool joints)]
  | wait => operation "Wait" []
  | cameraShake intensity => operation "CameraShake" [("intensity", scalar intensity)]
  | pointLight color radius =>
    operation "PointLight" [("color", color.document), ("radius", scalar radius)]
  | setVisibility actor visible =>
    operation "SetVisibility" [role actor, ("visible", bool visible)]
  | stopAllGenerators => operation "StopAllGenerators" []
  | flinch actor => operation "Flinch" [role actor]

def Effect.document (e : Effect) : Document :=
  record
    [("opcode", byte e.action.opcode), ("delay", half e.delay), ("duration", half e.duration),
     ("kind", e.action.document)]

def Routine.document (r : Routine) : Document :=
  record
    [("id", r.id.document), ("origin", r.origin.document),
     ("effects", list (r.effects.map Effect.document)),
     ("on_complete", list (r.onComplete.map Effect.document)),
     ("on_stop", list (r.onStop.map Effect.document)), ("auto_run", bool r.autoRun)]

def GeneratorUpdater.document : GeneratorUpdater → Document
  | emissionRamp targetInterval frames =>
    operation "EmissionRamp"
      [("target_interval", scalar targetInterval), ("frames", scalar frames)]
  | baseOffset offset => operation "BaseOffset" [("offset", offset.document)]
  | baseVelocity velocity => operation "BaseVelocity" [("velocity", velocity.document)]
  | baseSpin rate => operation "BaseSpin" [("rate", rate.document)]
  | distanceCull maxDistance => operation "DistanceCull" [("max_distance", scalar maxDistance)]
  | snapshotAnchor => operation "SnapshotAnchor" []
  | baseJitter radius => operation "BaseJitter" [("radius", scalar radius)]

def Initializer.document : Initializer → Document
  | position offset => operation "Position" [("offset", offset.document)]
  | positionJitter extent => operation "PositionJitter" [("extent", extent.document)]
  | velocity v => operation "Velocity" [("velocity", v.document)]
  | velocityJitter extent => operation "VelocityJitter" [("extent", extent.document)]
  | gravity acceleration => operation "Gravity" [("acceleration", acceleration.document)]
  | rotation euler => operation "Rotation" [("euler", euler.document)]
  | angularVelocity rate => operation "AngularVelocity" [("rate", rate.document)]
  | scale s => operation "Scale" [("scale", s.document)]
  | scaleVelocity rate => operation "ScaleVelocity" [("rate", rate.document)]
  | color c => operation "Color" [("color", c.document)]
  | colorJitter extent => operation "ColorJitter" [("extent", extent.document)]
  | colorTransform target frames =>
    operation "ColorTransform" [("target", target.document), ("frames", word frames)]
  | keyFrames set channel =>
    operation "KeyFrames" [("set", set.document), ("channel", text channel.name)]
  | mesh provider => operation "Mesh" [("provider", provider.document)]
  | childGenerator generator => operation "ChildGenerator" [("generator", generator.document)]
  | orbit radius speed phaseJitter =>
    operation "Orbit"
      [("radius", scalar radius), ("speed", scalar speed), ("phase_jitter", scalar phaseJitter)]
  | sound s volume => operation "Sound" [("sound", s.document), ("volume", scalar volume)]
  | anchorRelative => operation "AnchorRelative" []

def Updater.document : Updater → Document
  | applyVelocity => operation "ApplyVelocity" []
  | damping factor => operation "Damping" [("factor", scalar factor)]
  | applyAngularVelocity => operation "ApplyAngularVelocity" []
  | applyScaleVelocity => operation "ApplyScaleVelocity" []
  | applyColorTransform => operation "ApplyColorTransform" []
  | applyKeyFrames => operation "ApplyKeyFrames" []
  | applyOrbit => operation "ApplyOrbit" []
  | fadeOut frames => operation "FadeOut" [("frames", word frames)]
  | fadeIn frames => operation "FadeIn" [("frames", word frames)]

def ExpirationHandler.document : ExpirationHandler → Document
  | spawnGenerator generator => operation "SpawnGenerator" [("generator", generator.document)]
  | playSound sound volume =>
    operation "PlaySound" [("sound", sound.document), ("volume", scalar volume)]
  | restart times => operation "Restart" [("times", word times)]

def ParticleOperation.document : ParticleOperation → Document
  | birth op => record [("Init", op.document)]
  | update op => record [("Update", op.document)]
  | expire op => record [("Expire", op.document)]

def Slotted.document {α : Type} (opcode : α → UInt8) (content : α → Document) (i : Slotted α) :
    Document :=
  record
    [("opcode", byte (opcode i.op)), ("alloc_offset", word i.offset), ("op", content i.op)]

def GeneratorFlags.document (f : GeneratorFlags) : Document :=
  record
    [("continuous_singleton", bool f.continuousSingleton), ("auto_run", bool f.autoRun),
     ("batched", bool f.batched), ("world_space", bool f.worldSpace)]

def Generator.document (g : Generator) : Document :=
  record
    [("id", g.id.document), ("origin", g.origin.document), ("attach", text g.attach.name),
     ("joints", list [byte g.sourceJoint, byte g.targetJoint]), ("flags", g.flags.document),
     ("interval", half g.interval), ("interval_variance", half g.intervalVariance),
     ("per_emission", half g.perEmission), ("batch_slots", half g.batchSlots),
     ("max_age", half g.maxAge), ("max_age_variance", half g.maxAgeVariance),
     ("provider", g.provider.document), ("zone_link", g.zoneLink.document),
     ("base_scale", scalar g.baseScale),
     ("generator_updaters", list (g.generatorUpdaters.map GeneratorUpdater.document)),
     ("initializers",
       list (g.initializers.map (Slotted.document Initializer.opcode Initializer.document))),
     ("updaters", list (g.updaters.map (Slotted.document Updater.opcode Updater.document))),
     ("expiration",
       list (g.expiration.map
         (Slotted.document ExpirationHandler.opcode ExpirationHandler.document)))]

def KeyFrame.document (k : KeyFrame) : Document :=
  record [("time", scalar k.time), ("value", scalar k.value)]

def KeyFrameSet.document (s : KeyFrameSet) : Document :=
  record [("id", s.id.document), ("keys", list (s.keys.map KeyFrame.document))]

def Resource.document : Resource → Document
  | routine r => r.document
  | generator g => g.document
  | keyFrames s => s.document

end EffectMachine
