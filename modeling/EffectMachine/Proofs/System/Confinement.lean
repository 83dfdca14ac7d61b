import EffectMachine.Proofs.Particle.Levels
import EffectMachine.Proofs.Sequence.Execute
import EffectMachine.Proofs.System.Conduct

namespace EffectMachine

/-- Commands are only added, and those that are added are of some kind. -/
def HostOrder.commanding (N : Command → Prop) : HostOrder where
  rel h h' := ∃ new, h'.stage.recorded = new ++ h.stage.recorded ∧ ∀ c ∈ new, N c
  refl _ := ⟨[], rfl, by simp⟩
  trans := by
    rintro h h' h'' ⟨new, hs, hn⟩ ⟨new', hs', hn'⟩
    exact ⟨new' ++ new, by rw [hs', hs, List.append_assoc], List.forall_mem_append.mpr ⟨hn', hn⟩⟩

theorem HostOrder.commanding_mild (N : Command → Prop) : (commanding N).Mild where
  draw _ _ _ := ⟨[], rfl, by simp⟩
  note _ _ _ := ⟨[], rfl, by simp⟩
  named _ := ⟨[], rfl, by simp⟩

theorem HostOrder.commanding_admits {N : Command → Prop} {actors : List ActorId}
    (hN : ∀ c : Command, c.actors ⊆ actors → N c) : (commanding N).Admits actors where
  toMild := commanding_mild N
  command _ _ c hs hc := ⟨[c], hs, by simpa using hN c hc⟩

/-- The binding names no other actors than these. -/
def boundTo (actors : List ActorId) : Conduct where
  holds _ s _ := s.binding.names ⊆ actors
  allows _ := True

section Steps

variable {actors : List ActorId} {n : Nat} {r : Surroundings} {O : HostOrder}
  {s s' : SequenceBody} {e : Effect} {es : List Effect} {flow : Flow}

theorem HostOrder.Admits.mono {few : List ActorId} (hO : O.Admits actors) (h : few ⊆ actors) :
    O.Admits few where
  toMild := hO.toMild
  command h' stage c hs hc := hO.command h' stage c hs (List.Subset.trans hc h)

/-- An effect may change the flags of a binding, but whom it names stays. -/
theorem SequenceBody.Does.names_eq (h : s.Does e s' flow) :
    s'.binding.names = s.binding.names := by
  cases h with
  | rebound change => exact Binding.names_mapContext _ change
  | _ => rfl

theorem boundTo_follows {body : SequenceBody} (hn : body.binding.names = s.binding.names)
    (hf : flow.ComesFrom r s e) (h : s.binding.names ⊆ actors) :
    (boundTo actors).Follows n body e es flow := by
  have here : body.binding.names ⊆ actors := hn ▸ h
  cases flow with
  | spawned c =>
    obtain ⟨_, _, _, _, _, _, _, rfl⟩ := hf
    exact ⟨here, Sequence.graded_mk.mpr ⟨⟨h, fun _ _ => trivial⟩, by simp⟩⟩
  | fault f => exact ⟨here, trivial⟩
  | _ => exact here

/-- No step binds a sequence to other actors, and what it commands names only these. -/
theorem boundTo_keptIn (hO : O.Admits actors)
    (noted : ∀ n h, O.rel h { h with log := n :: h.log }) : (boundTo actors).KeptIn r O where
  noted _ := noted _
  frame h _ _ _ _ _ := h
  dropped h := h
  passed h _ _ := h
  performed {n s e es} h _ := by
    refine (s.leads_perform (hO.mono h) e).keeps
      (((s.perform_does e).at.and (s.perform_comesFrom e)).mono fun x hx => ?_)
    exact boundTo_follows hx.1.names_eq hx.2 h
  stopped h := h
  failed h _ := h
  requeued {n s} h _ := by
    have hreq := s.requeued_requeues
    generalize s.requeued.1 = s' at hreq
    cases hreq <;> exact h
  moved h elapsed := (leads_advanceEmitters hO.none none elapsed _).keeps fun _ =>
    ⟨fun _ _ => trivial, h, h⟩

end Steps

theorem commanding_noted {N : Command → Prop} (n : Notice) (h : Host) :
    (HostOrder.commanding N).rel h { h with log := n :: h.log } :=
  ⟨[], rfl, by simp⟩

namespace Sequence

/-- All commands of a run name only these actors. -/
def Confined (actors : List ActorId) : Sequence → List Visit → Prop
  | _, [] => True
  | s, v :: vs =>
    (∃ new, (s.visited v).2.stage.recorded = new ++ v.host.stage.recorded ∧
      ∀ c ∈ new, c.actors ⊆ actors) ∧
    (s.visited v).1.1.Confined actors vs

/-- By induction on the calls. -/
theorem confined_of_bound {actors : List ActorId} {s : Sequence} {n : Nat} (vs : List Visit)
    (hs : s.Graded (boundTo actors).Sound n) : s.Confined actors vs := by
  induction vs generalizing s with
  | nil => trivial
  | cons v vs ih =>
    have hk : (boundTo actors).KeptIn v.surroundings (.commanding fun c => c.actors ⊆ actors) :=
      boundTo_keptIn (HostOrder.commanding_admits fun _ h => h) commanding_noted
    obtain ⟨hx, hnew⟩ := answer_held hk hs v.call v.host
    exact ⟨hnew, ih hx.sound⟩

end Sequence

def Request.binding? : Request → Option Binding
  | trigger _ _ binding => some binding
  | start _ binding => some binding
  | _ => none

theorem Request.binding?_of_starts? {q : Request} {d : Directory} {x : Routine × Binding}
    (hx : q.starts? d = some x) : q.binding? = some x.2 := by
  cases q with
  | trigger id scope binding =>
    obtain ⟨routine, -, rfl⟩ := Option.map_eq_some_iff.mp hx
    rfl
  | start routine binding =>
    cases hx
    rfl
  | _ => cases hx

namespace Ledger

/-- Each command of a run names only actors of one binding that an activation was given so far. -/
def Confined : List Binding → Ledger → Host → List Occasion → Prop
  | _, _, _, [] => True
  | bs, l, h, o :: os =>
    let given := bs ++ o.request.binding?.toList
    (∃ new, (l.served h o).2.stage.recorded = new ++ (o.meanwhile h).stage.recorded ∧
      ∀ c ∈ new, ∃ b ∈ given, c.actors ⊆ b.names) ∧
    (l.served h o).1.1.Confined given (l.served h o).2 os

abbrev boundBy (bs : List Binding) (b : { b // b ∈ bs }) : Conduct := boundTo b.1.names

theorem Stands.given {bs bs' : List Binding} {l : Ledger} (hs : l.Stands (boundBy bs))
    (hb : bs ⊆ bs') : l.Stands (boundBy bs') where
  system := ⟨fun q hq => (hs.system.sequences q hq).elim fun b h => ⟨⟨b.1, hb b.2⟩, h⟩,
    fun x hx => (hs.system.failures x hx).elim fun b h => ⟨⟨b.1, hb b.2⟩, h⟩⟩
  handedOver x hx := (hs.handedOver x hx).elim fun b h => ⟨⟨b.1, hb b.2⟩, h⟩

/-- By induction on the requests. -/
theorem confined_of_stands (os : List Occasion) {bs : List Binding} {l : Ledger}
    (hs : l.Stands (boundBy bs)) (h : Host) : l.Confined bs h os := by
  induction os generalizing bs l h with
  | nil => trivial
  | cons o os ih =>
    let given := bs ++ o.request.binding?.toList
    let O := HostOrder.commanding fun c => ∃ b ∈ given, c.actors ⊆ b.names
    have admits (b : { b // b ∈ given }) : O.Admits b.1.names :=
      HostOrder.commanding_admits fun c hc => ⟨b.1, b.2, hc⟩
    have starts : ∀ x, o.request.starts? o.surroundings.directory = some x →
        Conduct.Starts (boundBy given) x := by
      intro x hx
      have hb : x.2 ∈ given := List.mem_append_right _
        (Option.mem_toList.mpr (Request.binding?_of_starts? hx))
      exact ⟨⟨x.2, hb⟩, fun _ _ => List.Subset.refl _⟩
    obtain ⟨hx, hnew⟩ := serve_stands (HostOrder.commanding_mild _)
      (fun b => boundTo_keptIn (r := o.surroundings) (admits b) commanding_noted) starts
      (hs.given (List.subset_append_left _ _)) (o.meanwhile h)
    exact ⟨hnew, ih hx _⟩

end Ledger

section Single

variable {r : Surroundings} {h : Host}

def AddsOne (h h' : Host) : Prop :=
  h'.stage.recorded = h.stage.recorded ∨ ∃ c, h'.stage.recorded = c :: h.stage.recorded

def HostOrder.offstage : HostOrder where
  rel h h' := h'.stage = h.stage
  refl _ := rfl
  trans h h' := h'.trans h

theorem HostOrder.offstage_mild : offstage.Mild where
  draw _ _ _ := rfl
  note _ _ _ := rfl
  named _ := rfl

theorem SideEffect.perform_addsOne (action : Action) (x : SideEffect) :
    AddsOne h (x.perform action r h).2 := by
  cases x with
  | submit c =>
    refine .inr ⟨c, ?_⟩
    cases c <;> rfl
  | playSound => exact .inr ⟨_, rfl⟩
  | noActor | nothing => exact .inl rfl

/-- What steers the sequence itself commands nothing. -/
theorem SequenceBody.perform_addsOne (s : SequenceBody) (e : Effect) :
    AddsOne h (s.perform e r h).2 := by
  rw [perform, Tick.run_read_bind]
  cases SideEffect.of? r.scene s.binding e with
  | some x => exact SideEffect.perform_addsOne _ x
  | none => exact .inl (congrArg Stage.recorded (s.leads_steer HostOrder.offstage_mild e h))

/-- Only stopping other sequences, which run their handlers, may command more. -/
theorem Sequence.execute_addsOne (run : StopHandlers Tick) (s : Sequence) {e : Effect}
    (he : ∀ id, e.action ≠ .stopRoutine id) : AddsOne h (s.execute run e r h).2 := by
  rw [s.execute_host run he]
  exact s.body.perform_addsOne e

end Single

/-- Whatever an activation and all that it starts command names only actors of its binding, over any
run of it, and so in a system only actors of the bindings there. Weather and zones have none. An
instruction commands at most once, unless it stops other sequences. -/
theorem commands_are_confined :
    (∀ id routine binding rate depth (vs : List Visit),
      (Sequence.mk (.fresh id routine binding rate depth) []).Confined binding.names vs) ∧
    (∀ h os, Ledger.Confined [] {} h os) ∧
    (∀ b : Binding, b.hasContext = false → ∀ c : Command, c.actors ⊆ b.names → c.actors = []) ∧
    ∀ run (s : Sequence) (e : Effect) r h, (∀ id, e.action ≠ .stopRoutine id) →
      AddsOne h (s.execute run e r h).2 := by
  refine ⟨fun id routine binding rate depth vs => ?_, fun h os => ?_, fun b hb c hc => ?_,
    fun run s e r h he => s.execute_addsOne run he⟩
  · exact Sequence.confined_of_bound (n := 0) vs
      (Sequence.fresh_sound _ _ _ _ _ (List.Subset.refl _))
  · exact Ledger.confined_of_stands os (Ledger.new_stands _) h
  · cases b with
    | actors => cases hb
    | weather | zone => exact List.subset_nil.mp hc

/-- Faces the target, has a child do the same to it and flinch, and flashes the screen. -/
def Routine.duel : Routine where
  id := ⟨1, 0, 0, 0⟩
  origin := ResourcePath.root
  effects := [⟨0, 0, .faceTarget⟩, ⟨0, 0, .snapshot true true⟩,
    ⟨0, 0, .spawnRoutine ⟨2, 0, 0, 0⟩ true⟩, ⟨0, 0, .screenFlash Color.white⟩]
  onComplete := []
  onStop := []
  autoRun := false

def Surroundings.duel : Surroundings :=
  let second : Routine := ⟨⟨2, 0, 0, 0⟩, ResourcePath.root,
    [⟨0, 0, .flinch .target⟩, ⟨0, 0, .playSound ⟨3, 0, 0, 0⟩ 1 true⟩], [], [], false⟩
  { bare with directory :=
      ({} : Directory).insert ResourcePath.root second.id (.routine second) }

def duelTick : Visit := ⟨.advance 1, .duel, .fresh⟩

/-- Between two actors the child names them in the second tick; the weather has none to name. -/
theorem duel_is_confined :
    let s := Sequence.mk (.fresh ⟨0⟩ .duel (.actors ⟨7⟩ (some ⟨8⟩) {}) 1 0) []
    let second := (s.visited duelTick).1.1.visited duelTick
    s.Confined [⟨7⟩, ⟨8⟩] [duelTick, duelTick] ∧
    second.2.stage.recorded.map Command.actors = [[], [⟨7⟩], [⟨8⟩]] ∧
    (Binding.weather.hasContext = false ∧ (Command.screenFlash Color.white 0).actors = []) ∧
    AddsOne .fresh (s.execute (Sequence.runStopHandlers 1) ⟨0, 0, .faceTarget⟩ .duel .fresh).2 := by
  obtain ⟨hvisits, -, hnone, hone⟩ := commands_are_confined
  exact ⟨hvisits _ _ (.actors ⟨7⟩ (some ⟨8⟩) {}) _ _ _, by decide +kernel,
    ⟨rfl, hnone .weather rfl _ (List.Subset.refl [])⟩, hone _ _ _ _ _ nofun⟩

end EffectMachine
