import EffectMachine.Proofs.Tick
import EffectMachine.Proofs.World.Orbit
import EffectMachine.Sequence.Perform

namespace EffectMachine

def Notice.failure? : Notice → Option Fault
  | sequenceFailed _ f => some f
  | childFailed _ _ f => some f
  | _ => none

def Command.actors : Command → List ActorId
  | playAnimation actor .. => [actor]
  | stopAnimation actor _ => [actor]
  | playSound _ _ _ _ follow => follow.toList
  | stopSound _ => []
  | lock actor .. => [actor]
  | face actor toward => [actor, toward]
  | screenFlash .. => []
  | knockback actor _ => [actor]
  | flinch actor => [actor]
  | modelTransform actor .. => [actor]
  | fade actor .. => [actor]
  | wrap actor .. => [actor]
  | weaponTrace actor .. => [actor]
  | cameraShake .. => []
  | pointLight .. => []
  | setVisibility actor _ => [actor]

def Binding.names : Binding → List ActorId
  | actors source target _ => source :: target.toList
  | _ => []

namespace HostOrder

/-- Draws and notices are allowed, but for notices of failures. -/
structure Calm (O : HostOrder) : Prop where
  draw : ∀ h rng, h.rng.Reaches rng → O.rel h { h with rng }
  note : ∀ h (n : Notice), n.failure? = none → O.rel h { h with log := n :: h.log }

/-- And so are names. -/
structure Mild (O : HostOrder) : Prop extends O.Calm where
  named : ∀ h, O.rel h { h with nextSequence := h.nextSequence + 1 }

/-- And so are commands that name none but some actors. -/
structure Admits (O : HostOrder) (actors : List ActorId) : Prop extends O.Mild where
  command : ∀ h stage c, stage.recorded = c :: h.stage.recorded → c.actors ⊆ actors →
    O.rel h { h with stage }

variable {O : HostOrder} {actors : List ActorId}

theorem Admits.none (hO : O.Admits actors) : O.Admits [] where
  toMild := hO.toMild
  command h stage c hs hc := hO.command h stage c hs (List.Subset.trans hc (by simp))

def leaving (N : Notice → Prop) : HostOrder where
  rel h h' := ∀ n ∈ h'.log, n ∈ h.log ∨ N n
  refl _ _ hn := .inl hn
  trans h h' n hn := by
    rcases h' n hn with hn | hn
    · exact h n hn
    · exact .inr hn

theorem leaving_note {N : Notice → Prop} (h : Host) {n : Notice} (hn : N n) :
    (leaving N).rel h { h with log := n :: h.log } := by
  intro m hm
  rcases List.mem_cons.mp hm with rfl | hm
  · exact .inr hn
  · exact .inl hm

theorem leaving_admits {N : Notice → Prop} (hN : ∀ n : Notice, n.failure? = Option.none → N n)
    (actors : List ActorId) : (leaving N).Admits actors where
  draw _ _ _ _ hn := .inl hn
  note h n hn := leaving_note h (hN n hn)
  named _ _ hn := .inl hn
  command _ _ _ _ _ _ hn := .inl hn

end HostOrder

section Steps

variable {r : Surroundings} {O : HostOrder} {actors : List ActorId}

theorem HostOrder.Calm.leads_draw {α : Type} (hO : O.Calm) {d : Draw α} (hd : d.Advances) :
    (Tick.draw d).Leads r O :=
  fun h => hO.draw h _ (hd h.rng)

theorem HostOrder.Calm.leads_note (hO : O.Calm) (n : Notice) (hn : n.failure? = none) :
    (Tick.note n).Leads r O :=
  fun h => hO.note h n hn

theorem HostOrder.Mild.leads_newSequence (hO : O.Mild) : Tick.newSequence.Leads r O := hO.named

theorem HostOrder.Admits.leads_submit (hO : O.Admits actors) {c : Command}
    (hc : c.actors ⊆ actors) : (Tick.submit c).Leads r O := by
  refine fun h => hO.command h _ c ?_ hc
  cases c <;> rfl

theorem HostOrder.Admits.leads_playSound (hO : O.Admits actors) (sound : ResourceId)
    (position : Vec3) (volume : Scalar) {follow : Option ActorId} (hf : follow.toList ⊆ actors) :
    (Tick.playSound sound position volume follow).Leads r O :=
  fun h => hO.command h _ _ rfl hf

theorem Tick.leads_isPlaying (handle : SoundHandle) : (Tick.isPlaying handle).Leads r O := O.refl

end Steps

namespace Binding

variable {b : Binding} {role : ActorRole} {a : ActorId}

theorem source?_mem_names (h : b.source? = some a) : a ∈ b.names := by
  cases b <;> cases h
  exact List.mem_cons_self

theorem target?_mem_names (h : b.target? = some a) : a ∈ b.names := by
  cases b with
  | actors source target =>
    cases target with
    | none => exact Option.some.inj h ▸ List.mem_cons_self
    | some target => exact Option.some.inj h ▸ List.mem_cons_of_mem _ List.mem_cons_self
  | weather | zone => cases h

theorem actor?_mem_names (h : b.actor? role = some a) : a ∈ b.names := by
  cases role with
  | source => exact source?_mem_names h
  | target => exact target?_mem_names h

@[simp] theorem names_mapContext (b : Binding) (f : ActivationContext → ActivationContext) :
    (b.mapContext f).names = b.names := by
  cases b <;> rfl

end Binding

namespace SideEffect

def actors : SideEffect → List ActorId
  | submit c => c.actors
  | playSound _ _ _ follow => follow.toList
  | _ => []

theorem forActor_actors (b : Binding) (role : ActorRole) {command : ActorId → Command}
    (hc : ∀ a, (command a).actors = [a]) : (forActor b role command).actors ⊆ b.names := by
  unfold forActor
  split
  next actor ha =>
    rw [actors, hc]
    exact List.cons_subset.mpr ⟨Binding.actor?_mem_names ha, List.nil_subset _⟩
  next => exact List.nil_subset _

theorem face_actors (b : Binding) : (face b).actors ⊆ b.names := by
  unfold face
  split
  next actor toward ha ht =>
    split
    · exact List.nil_subset _
    · exact List.cons_subset.mpr ⟨Binding.source?_mem_names ha,
        List.cons_subset.mpr ⟨Binding.target?_mem_names ht, List.nil_subset _⟩⟩
  next => exact List.nil_subset _

/-- What an effect commands names only actors of the binding. -/
theorem of?_actors {s : Scene} {b : Binding} {e : Effect} {x : SideEffect}
    (hx : of? s b e = some x) : x.actors ⊆ b.names := by
  obtain ⟨delay, duration, action⟩ := e
  cases action <;> cases hx
  case playSound sound volume follow =>
    intro a ha
    cases follow with
    | false => cases ha
    | true => exact Binding.source?_mem_names (Option.mem_toList.mp ha)
  case faceTarget => exact face_actors b
  case stopSound | screenFlash | cameraShake | pointLight => exact List.nil_subset _
  all_goals exact forActor_actors b _ fun _ => rfl

end SideEffect

namespace ControlStack

variable {s c : ControlStack} {ns : List Notice}

theorem failure?_of_setRegister {register : UInt8} {value : Int32}
    (h : s.setRegister register value = .ok (c, ns)) : ∀ n ∈ ns, n.failure? = none := by
  unfold setRegister at h
  split at h
  · cases h
  · split at h
    · cases h
      simp
    · cases h
      simp [Notice.failure?]

theorem failure?_of_branch {whenTrue outcome : Bool}
    (h : s.branch whenTrue = .ok (outcome, c, ns)) : ∀ n ∈ ns, n.failure? = none := by
  unfold branch at h
  split at h
  · cases h
  next f outer hf =>
    cases h
    split <;> simp [Notice.failure?]

end ControlStack

namespace SequenceBody

variable (s : SequenceBody) {r : Surroundings} {O : HostOrder}

theorem leads_passGate (e : Effect) (startMinute endMinute : UInt16) :
    (s.passGate e startMinute endMinute).Leads r O :=
  .read (.ite (.pure _) (.pure _))

section Steering

section Calm

variable (hO : O.Calm)
include hO

theorem leads_conditionValue (source : ConditionSource) :
    (s.conditionValue source).Leads r O := by
  cases source with
  | constant => exact .pure _
  | gameState code =>
    unfold conditionValue
    dsimp only
    split
    · exact .pure _
    · exact .bind (hO.leads_note _ rfl) fun _ => .pure _
  | random => exact hO.leads_draw (Draw.below_advances _)
  | unknown => exact .bind (hO.leads_note _ rfl) fun _ => .pure _

theorem leads_spawnGenerator (id : ResourceId) (duration : UInt16)
    (follow : Option FollowPath) : (s.spawnGenerator id duration follow).Leads r O := by
  refine .read ?_
  split
  · exact .bind (hO.leads_note _ rfl) fun _ => .pure _
  · exact .pure _

theorem leads_chooseRoutine (choices : List ResourceId) : (s.chooseRoutine choices).Leads r O := by
  refine .ite (.bind (hO.leads_note _ rfl) fun _ => .pure _)
    (.bind (hO.leads_draw (Draw.below_advances _)) fun index => .read ?_)
  split
  · exact .pure _
  · exact .bind (hO.leads_note _ rfl) fun _ => .pure _

theorem leads_notes (ns : List Notice) (hn : ∀ n ∈ ns, n.failure? = none) :
    (notes ns).Leads r O := by
  induction ns with
  | nil => exact .pure _
  | cons n ns ih =>
    obtain ⟨hn, hns⟩ := List.forall_mem_cons.mp hn
    exact .bind (hO.leads_note _ hn) fun _ => ih hns

/-- Only a child that begins needs a name. -/
theorem leads_steer_of_spawnRoutine (e : Effect)
    (hs : ∀ id blocking scope, s.steer e = s.spawnRoutine id blocking scope →
      (s.spawnRoutine id blocking scope).Leads r O) : (s.steer e).Leads r O := by
  obtain ⟨delay, duration, action⟩ := e
  cases action with
  | spawnGenerator | followPoints =>
    exact .bind (s.leads_spawnGenerator hO _ _ _) fun _ => .pure _
  | spawnRoutine | linkRoutine => exact hs _ _ _ rfl
  | randomRoutine => exact .bind (s.leads_chooseRoutine hO _) fun _ => .pure _
  | endBlock =>
    unfold steer
    dsimp only
    split <;> exact .pure _
  | condition =>
    refine .bind (s.leads_conditionValue hO _) fun value => ?_
    split
    next hx =>
      exact .bind (leads_notes hO _ (ControlStack.failure?_of_setRegister hx)) fun _ => .pure _
    next => exact .pure _
  | branch =>
    unfold steer
    dsimp only
    split
    next hx => exact .bind (leads_notes hO _ (ControlStack.failure?_of_branch hx)) fun _ => .pure _
    next => exact .pure _
  | timeOfDayGate => exact s.leads_passGate _ _ _
  | _ => exact .pure _

end Calm

variable (hO : O.Mild)
include hO

theorem leads_start (routine : Routine) (binding : Binding) (playbackRate : Scalar)
    (depth : UInt8) : (Sequence.start routine binding playbackRate depth).Leads r O :=
  .bind hO.leads_newSequence fun _ => .pure _

theorem leads_spawnRoutine (id : ResourceId) (blocking : Bool) (scope : SearchScope) :
    (s.spawnRoutine id blocking scope).Leads r O := by
  refine .read (.ite (.bind (hO.leads_note _ rfl) fun _ => .pure _) ?_)
  split
  · exact .bind (hO.leads_note _ rfl) fun _ => .pure _
  · exact .bind (leads_start hO _ _ _ _) fun _ => .pure _

theorem leads_steer (e : Effect) : (s.steer e).Leads r O :=
  s.leads_steer_of_spawnRoutine hO.toCalm e fun _ _ _ _ => s.leads_spawnRoutine hO _ _ _

end Steering

theorem leads_sideEffect {actors : List ActorId} (hO : O.Admits actors) (action : Action)
    {x : SideEffect} (hx : x.actors ⊆ actors) : (x.perform action).Leads r O := by
  cases x with
  | submit => exact hO.leads_submit hx
  | playSound => exact .bind (hO.leads_playSound _ _ _ hx) fun _ => .pure _
  | noActor => exact hO.leads_note _ rfl
  | nothing => exact .pure _

theorem leads_perform (hO : O.Admits s.binding.names) (e : Effect) : (s.perform e).Leads r O := by
  refine .read ?_
  split
  next hx => exact .bind (leads_sideEffect hO _ (SideEffect.of?_actors hx)) fun _ => .pure _
  next => exact s.leads_steer hO.toMild e

end SequenceBody

end EffectMachine
