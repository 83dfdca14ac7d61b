import EffectMachine.Proofs.Sequence.Later
import EffectMachine.Proofs.Tick
import EffectMachine.Sequence.Perform

namespace EffectMachine

def Action.isControl : Action → Bool
  | .beginBlock => true
  | .endBlock => true
  | .condition .. => true
  | .branch _ => true
  | _ => false

def ControlStack.apply (c : ControlStack) (value : Int32) :
    Action → Except Fault (ControlStack × List Notice)
  | .beginBlock => .ok (c.beginBlock, [])
  | .endBlock => c.endBlock.map fun x => (x.2, [])
  | .condition register _ => c.setRegister register value
  | .branch whenTrue => (c.branch whenTrue).map fun x => x.2
  | _ => .ok (c, [])

theorem Action.isBlockBoundary_of_not_control {a : Action} (ha : a.isControl = false) :
    a.isBlockBoundary = false := by
  cases a <;> first | rfl | simp [Action.isControl] at ha

theorem Action.isControl_of_isBlockBoundary {a : Action} (ha : a.isBlockBoundary = true) :
    a.isControl = true := by
  cases a <;> first | rfl | simp [Action.isBlockBoundary] at ha

theorem ControlStack.apply_of_not_control (c : ControlStack) (value : Int32) {a : Action}
    (ha : a.isControl = false) : c.apply value a = .ok (c, []) := by
  cases a <;> first | rfl | simp [Action.isControl] at ha

@[simp] theorem EmitterBody.withWindow_depth (e : EmitterBody) (frames : Scalar) :
    (e.withWindow frames).depth = e.depth := by
  unfold withWindow
  split <;> rfl

namespace SequenceBody

/-- What an effect does to the sequence that runs it, and what follows. -/
inductive Does (s : SequenceBody) (e : Effect) : SequenceBody → Flow → Prop where
  /-- The world outside is told, or a notice is left. -/
  | aside (control : e.action.isControl = false) : s.Does e s .proceed
  | emitter (g : EmitterBody) (control : e.action.isControl = false) (owner : g.owner = some s.id)
      (depth : g.depth = 0) :
      s.Does e { s with emitters := s.emitters ++ [Emitter.ofBody g] } .proceed
  | quieted (pick : EmitterBody → Bool) (control : e.action.isControl = false) :
      s.Does e (s.stopWhere pick) .proceed
  | child (c : Sequence) (blockers : List SequenceId) (control : e.action.isControl = false)
      (alone : c.children = []) : s.Does e { s with blockers } (.spawned c)
  | splice (choices : List ResourceId) (effects : List Effect)
      (action : e.action = .randomRoutine choices) : s.Does e s (.splice effects)
  | stopRoutine (id : ResourceId) (action : e.action = .stopRoutine id) :
      s.Does e s (.stopRoutine id)
  | opened (action : e.action = .beginBlock) :
      s.Does e { s with control := s.control.beginBlock } .proceed
  | closed (f : ControlFrame) (control : ControlStack) (action : e.action = .endBlock)
      (done : s.control.endBlock = .ok (f, control)) : s.Does e { s with control } .proceed
  | loaded (register : UInt8) (source : ConditionSource) (value : Int32) (control : ControlStack)
      (notices : List Notice) (action : e.action = .condition register source)
      (done : s.control.setRegister register value = .ok (control, notices)) :
      s.Does e { s with control } .proceed
  | branched (whenTrue outcome : Bool) (control : ControlStack) (notices : List Notice)
      (action : e.action = .branch whenTrue)
      (done : s.control.branch whenTrue = .ok (outcome, control, notices)) :
      s.Does e { s with control } .proceed
  | underflow (fault : Fault) (control : e.action.isControl = true) : s.Does e s (.fault fault)
  | paced (rate : Scalar) (action : e.action = .playbackRate rate) :
      s.Does e { s with playbackRate := rate.max 0 } .proceed
  | loops (control : e.action.isControl = false) : s.Does e { s with looping := true } .proceed
  | gateOpen (start finish : UInt16) (action : e.action = .timeOfDayGate start finish) :
      s.Does e { s with scheduledStart := none } .proceed
  | gateClosed (start finish : UInt16) (action : e.action = .timeOfDayGate start finish) :
      s.Does e { s with
        scheduledStart := some start
        queue := { effect := e, charged := true } :: s.queue } .hold
  | rebound (change : ActivationContext → ActivationContext)
      (control : e.action.isControl = false) :
      s.Does e { s with binding := s.binding.mapContext change } .proceed

variable {s s' : SequenceBody} {e : Effect} {flow : Flow}

theorem spawnGenerator_does (hc : e.action.isControl = false) (id : ResourceId) (duration : UInt16)
    (follow : Option FollowPath) :
    (s.spawnGenerator id duration follow).Always fun s' => s.Does e s' .proceed := by
  refine .after _ fun r => ?_
  split
  · exact .after _ fun _ => .pure (.aside hc)
  · exact .pure (.emitter _ hc rfl (EmitterBody.withWindow_depth _ _))

theorem start_alone (r : Routine) (binding : Binding) (playbackRate : Scalar) (depth : UInt8) :
    (Sequence.start r binding playbackRate depth).Always fun c => c.children = [] :=
  .after _ fun _ => .pure rfl

theorem spawnRoutine_does (hc : e.action.isControl = false) (id : ResourceId) (blocking : Bool)
    (scope : SearchScope) :
    (s.spawnRoutine id blocking scope).Always fun x => s.Does e x.1 x.2 := by
  refine .after _ fun r => ?_
  dsimp only
  split
  · exact .after _ fun _ => .pure (.aside hc)
  · split
    · exact .after _ fun _ => .pure (.aside hc)
    · exact .bind (start_alone _ _ _ _) fun c alone => .pure (.child c _ hc alone)

theorem chooseRoutine_does {choices : List ResourceId} (ha : e.action = .randomRoutine choices) :
    (s.chooseRoutine choices).Always fun flow => s.Does e s flow := by
  have hc : e.action.isControl = false := by rw [ha]; rfl
  unfold chooseRoutine
  split
  · exact .after _ fun _ => .pure (.aside hc)
  · refine .after _ fun index => .after _ fun r => ?_
    split
    · exact .pure (.splice choices _ ha)
    · exact .after _ fun _ => .pure (.aside hc)

theorem passGate_does {startMinute endMinute : UInt16}
    (ha : e.action = .timeOfDayGate startMinute endMinute) :
    (s.passGate e startMinute endMinute).Always fun x => s.Does e x.1 x.2 := by
  refine .after _ fun r => ?_
  split
  · exact .pure (.gateOpen _ _ ha)
  · exact .pure (.gateClosed _ _ ha)

/-- What steers a sequence is one of the effects listed. -/
theorem steer_does (s : SequenceBody) (e : Effect) :
    (s.steer e).Always fun x => s.Does e x.1 x.2 := by
  have aside {a : Action} (ha : e.action = a) (hc : a.isControl = false) :
      e.action.isControl = false := by rw [ha]; exact hc
  unfold steer
  split
  case h_1 ha => exact .bind (spawnGenerator_does (aside ha rfl) _ _ _) fun _ hs => .pure hs
  case h_2 ha => exact .bind (spawnGenerator_does (aside ha rfl) _ _ _) fun _ hs => .pure hs
  case h_3 id ha => exact .pure (.quieted (fun g => g.definition.id = id) (aside ha rfl))
  case h_4 ha => exact .pure (.quieted (fun _ => true) (aside ha rfl))
  case h_5 ha => exact fun r h => spawnRoutine_does (aside ha rfl) _ _ _ r h
  case h_6 ha => exact fun r h => spawnRoutine_does (aside ha rfl) _ _ _ r h
  case h_7 ha => exact .bind (chooseRoutine_does ha) fun _ hs => .pure hs
  case h_8 ha => exact .pure (.stopRoutine _ ha)
  case h_9 ha => exact .pure (.opened ha)
  case h_10 ha =>
    split
    · exact .pure (.closed _ _ ha ‹_›)
    · exact .pure (.underflow _ (by rw [ha]; rfl))
  case h_11 register source ha =>
    refine .after _ fun value => ?_
    split
    · exact .after _ fun _ => .pure (.loaded register source value _ _ ha ‹_›)
    · exact .pure (.underflow _ (by rw [ha]; rfl))
  case h_12 whenTrue ha =>
    split
    · exact .after _ fun _ => .pure (.branched whenTrue _ _ _ ha ‹_›)
    · exact .pure (.underflow _ (by rw [ha]; rfl))
  case h_13 ha => exact .pure (.paced _ ha)
  case h_14 ha => exact .pure (.loops (aside ha rfl))
  case h_15 ha => exact fun r h => passGate_does ha r h
  case h_16 ha => exact .pure (.rebound _ (aside ha rfl))
  case h_17 ha => exact .pure (.rebound _ (aside ha rfl))
  case h_18 =>
    refine .pure (.aside ?_)
    cases ha : e.action <;> first | rfl | simp_all

/-- Every effect does one of the things listed. -/
theorem perform_does (s : SequenceBody) (e : Effect) :
    (s.perform e).Always fun x => s.Does e x.1 x.2 := by
  refine .after _ fun r => ?_
  split
  · refine .after _ fun _ => .pure (.aside ?_)
    cases ha : e.action <;> first | rfl | simp_all [SideEffect.of?]
  · exact s.steer_does e

/-- What does nothing to the world outside steers the sequence. -/
theorem perform_steer (s : SequenceBody) {e : Effect}
    (hn : ∀ scene binding, SideEffect.of? scene binding e = none) : s.perform e = s.steer e := by
  unfold perform
  simp only [hn]
  rfl

namespace Does

/-- Whatever an effect does leaves a later state. -/
theorem later (h : s.Does e s' flow) : s.Later s' := by
  cases h with
  | emitter g =>
    exact { Later.refl s with emitters := Extends.append Emitter.Later.refl _ _ }
  | quieted pick =>
    refine { Later.refl s with emitters := Extends.map (fun g => ?_) _ }
    split
    · exact g.later_stop
    · exact .refl g
  | _ => exact .of_eq rfl rfl rfl rfl rfl rfl

/-- A closed gate goes back to the head of the queue, its delay paid. -/
theorem queue_hold (h : s.Does e s' .hold) :
    s'.queue = { effect := e, charged := true } :: s.queue := by
  cases h with
  | gateClosed => rfl

theorem control_of_hold (h : s.Does e s' .hold) : e.action.isControl = false := by
  cases h with
  | gateClosed _ _ action => rw [action]; rfl

theorem queue_eq (h : s.Does e s' flow) (hf : flow ≠ .hold) : s'.queue = s.queue := by
  cases h with
  | gateClosed => exact absurd rfl hf
  | _ => rfl

theorem control_eq (h : s.Does e s' flow) (hc : e.action.isControl = false) :
    s'.control = s.control := by
  cases h with
  | opened action => simp [action, Action.isControl] at hc
  | closed _ _ action => simp [action, Action.isControl] at hc
  | loaded _ _ _ _ _ action => simp [action, Action.isControl] at hc
  | branched _ _ _ _ action => simp [action, Action.isControl] at hc
  | _ => rfl

theorem failure_eq (h : s.Does e s' flow) : s'.failure = s.failure := by
  cases h <;> rfl

/-- Of itself an effect fails only where the control stack does. -/
theorem control_of_fault {fault : Fault} (h : s.Does e s' (.fault fault)) :
    e.action.isControl = true := by
  cases h with
  | underflow _ control => exact control

theorem action_of_stopRoutine {id : ResourceId} (h : s.Does e s' (.stopRoutine id)) :
    e.action = .stopRoutine id := by
  cases h with
  | stopRoutine _ action => exact action

theorem action_of_splice {effects : List Effect} (h : s.Does e s' (.splice effects)) :
    ∃ choices, e.action = .randomRoutine choices := by
  cases h with
  | splice choices _ action => exact ⟨choices, action⟩

end Does

/-- The same sequence in another place of its blocks and at another rate, with other work and other
frames to spend: most effects neither read nor write these. -/
def retuned (s : SequenceBody) (c : ControlStack → ControlStack) (q : Scalar → Scalar)
    (w : List Pending → List Pending) (f : Scalar → Scalar) : SequenceBody :=
  { s with
    control := c s.control
    playbackRate := q s.playbackRate
    queue := w s.queue
    budget := f s.budget }

section Retuned

variable (s : SequenceBody) (c : ControlStack → ControlStack) (q : Scalar → Scalar)
  (w : List Pending → List Pending) (f : Scalar → Scalar)

theorem spawnGenerator_retuned (id : ResourceId) (duration : UInt16)
    (follow : Option FollowPath) :
    (s.retuned c q w f).spawnGenerator id duration follow =
      (·.retuned c q w f) <$> s.spawnGenerator id duration follow := by
  unfold spawnGenerator
  rw [map_bind]
  refine bind_congr fun r => ?_
  dsimp only [retuned]
  cases r.directory.generator? id (.ancestors s.routine.origin) <;> rfl

theorem spawnRoutine_retuned (id : ResourceId) (blocking : Bool) (scope : SearchScope) :
    (s.retuned c q w f).spawnRoutine id blocking scope =
      (fun x => (x.1.retuned c q w f, x.2)) <$> s.spawnRoutine id blocking scope := by
  unfold spawnRoutine
  rw [map_bind]
  refine bind_congr fun r => ?_
  change (if r.config.maxNestingDepth ≤ s.depth then _ else _) = _
  split
  · rfl
  · cases r.directory.routine? id scope <;> rfl

theorem passGate_retuned {e : Effect} (startMinute endMinute : UInt16)
    (hw : w ({ effect := e, charged := true } :: s.queue) =
      { effect := e, charged := true } :: w s.queue) :
    (s.retuned c q w f).passGate e startMinute endMinute =
      (fun x => (x.1.retuned c q w f, x.2)) <$> s.passGate e startMinute endMinute := by
  unfold passGate
  rw [map_bind]
  refine bind_congr fun r => ?_
  split
  · rfl
  · simp only [map_pure, retuned, hw]

/-- An effect that acts neither on the control stack nor on the playback rate does the same with
any. Of the queue and of the frames it takes no notice, unless it is a gate that goes back. -/
theorem perform_retuned (e : Effect) (hc : e.action.isControl = false)
    (hq : ∀ rate, e.action = .playbackRate rate → q (rate.max 0) = rate.max 0)
    (hw : ∀ start finish, e.action = .timeOfDayGate start finish →
      w ({ effect := e, charged := true } :: s.queue) =
        { effect := e, charged := true } :: w s.queue) :
    (s.retuned c q w f).perform e = (fun x => (x.1.retuned c q w f, x.2)) <$> s.perform e := by
  unfold perform
  rw [map_bind]
  refine bind_congr fun r => ?_
  rw [show (s.retuned c q w f).binding = s.binding from rfl]
  cases SideEffect.of? r.scene s.binding e with
  | some sideEffect => rfl
  | none =>
    simp only [steer]
    cases ha : e.action with
    | beginBlock | endBlock | condition | branch => simp [ha, Action.isControl] at hc
    | spawnGenerator | followPoints =>
      simp only [spawnGenerator_retuned]
      rfl
    | spawnRoutine => exact s.spawnRoutine_retuned c q w f ..
    | linkRoutine => exact s.spawnRoutine_retuned c q w f ..
    | timeOfDayGate start finish => exact s.passGate_retuned c q w f _ _ (hw start finish ha)
    | playbackRate rate => simp only [map_pure, retuned, hq rate ha]
    | _ => rfl

end Retuned

def withControl (s : SequenceBody) (control : ControlStack) : SequenceBody := { s with control }

/-- An effect that does not act on the control stack does the same with any. -/
theorem perform_withControl (s : SequenceBody) (c : ControlStack) (e : Effect)
    (hc : e.action.isControl = false) :
    (s.withControl c).perform e = (fun x => (x.1.withControl c, x.2)) <$> s.perform e :=
  s.perform_retuned (fun _ => c) (fun q => q) (fun w => w) (fun f => f) e hc (fun _ _ => rfl)
    fun _ _ _ => rfl

def loads (s : SequenceBody) : Action → Tick Int32
  | .condition _ source => s.conditionValue source
  | _ => return 0

/-- An effect that acts on the control stack does nothing else. -/
theorem perform_control (s : SequenceBody) {e : Effect} (hc : e.action.isControl = true) :
    s.perform e = s.loads e.action >>= fun value =>
      match s.control.apply value e.action with
      | .ok (c, notices) => notes notices >>= fun _ => pure (s.withControl c, .proceed)
      | .error fault => pure (s, .fault fault) := by
  obtain ⟨delay, duration, action⟩ := e
  cases action <;> simp only [Action.isControl, Bool.false_eq_true] at hc
  case beginBlock => rfl
  case endBlock =>
    simp only [perform, SideEffect.of?, steer, loads, ControlStack.apply, pure_bind]
    cases s.control.endBlock <;> rfl
  case condition register source =>
    simp only [perform, SideEffect.of?, steer, loads, ControlStack.apply]
    refine funext fun r => funext fun h => ?_
    simp only [Tick.run_bind, Tick.run_read]
    cases s.control.setRegister register (s.conditionValue source r h).1 <;> rfl
  case branch whenTrue =>
    simp only [perform, SideEffect.of?, steer, loads, ControlStack.apply, pure_bind]
    cases s.control.branch whenTrue <;> rfl

theorem loads_boundary (s : SequenceBody) {a : Action} (ha : a.isBlockBoundary = true) :
    s.loads a = pure 0 := by
  cases a <;> first | rfl | simp [Action.isBlockBoundary] at ha

theorem loads_withControl (s : SequenceBody) (c : ControlStack) (a : Action) :
    (s.withControl c).loads a = s.loads a := by
  cases a <;> rfl

end SequenceBody
end EffectMachine
