import EffectMachine.Particle.Advance
import EffectMachine.Proofs.Tick

namespace EffectMachine

variable (o : Option SequenceId) (elapsed : Scalar) (anchor : Anchor)

namespace EmitterBody

def withOwner (e : EmitterBody) (o : Option SequenceId) : EmitterBody := { e with owner := o }

variable (e : EmitterBody)

/-- Where an emitter finds its anchor does not depend on whose it is. -/
theorem updateAnchor_withOwner :
    (e.withOwner o).updateAnchor = (·.withOwner o) <$> e.updateAnchor := by
  have frozen : (e.withOwner o).frozen = e.frozen := rfl
  have resolved (s : Surroundings) : (e.withOwner o).resolved? s = e.resolved? s := rfl
  have parent : (e.withOwner o).parentAnchor = e.parentAnchor := rfl
  have noted : (e.withOwner o).anchorMissingNoted = e.anchorMissingNoted := rfl
  unfold updateAnchor
  rw [parent, frozen, noted]
  split
  · rfl
  · split
    · rfl
    · refine (bind_congr fun s => ?_).trans (map_bind _ _ _).symm
      rw [resolved]
      split
      · rfl
      · split <;> rfl

theorem applyUpdater_withOwner (u : GeneratorUpdater) :
    (e.withOwner o).applyUpdater elapsed u = (·.withOwner o) <$> e.applyUpdater elapsed u := by
  cases u <;> rfl

theorem prepare_withOwner :
    (e.withOwner o).prepare elapsed = (·.withOwner o) <$> e.prepare elapsed := by
  have folded (us : List GeneratorUpdater) (e : EmitterBody) :
      us.foldlM (fun e u => e.applyUpdater elapsed u) (e.withOwner o) =
        (·.withOwner o) <$> us.foldlM (fun e u => e.applyUpdater elapsed u) e := by
    induction us generalizing e with
    | nil => rfl
    | cons u us ih =>
      rw [List.foldlM_cons, List.foldlM_cons, applyUpdater_withOwner, bind_map_left, map_bind]
      exact bind_congr fun e => ih e
  have placed := updateAnchor_withOwner o { e with lifetime := e.lifetime + elapsed }
  refine (congrArg (· >>= _) placed).trans ?_
  rw [bind_map_left, prepare, map_bind]
  exact bind_congr fun e' => folded _ e'

theorem spawnBatch_withOwner (n : Nat) :
    (e.withOwner o).spawnBatch anchor n = e.spawnBatch anchor n := by
  induction n with
  | zero => rfl
  | succ n ih =>
    rw [spawnBatch, spawnBatch, ih]
    rfl

end EmitterBody

namespace Emitter

def withOwner (e : Emitter) (o : Option SequenceId) : Emitter := e.mapBody (·.withOwner o)

variable (e : Emitter)

theorem emitOne_withOwner : (e.withOwner o).emitOne anchor =
    (fun x => (x.1.withOwner o, x.2)) <$> e.emitOne anchor := by
  obtain ⟨body, particles⟩ := e
  change (if body.definition.flags.batched then
      (body.withOwner o).spawnBatch anchor (max body.definition.batchSlots.toNat 1) >>= _
    else body.spawn anchor >>= _) = _
  rw [EmitterBody.spawnBatch_withOwner, emitOne]
  dsimp only
  split
  · rw [map_bind]
    refine bind_congr fun x => ?_
    cases x <;> rfl
  · rw [map_bind]
    refine bind_congr fun x => ?_
    cases x <;> rfl

/-- What an emitter emits does not depend on whose it is. -/
theorem emit_withOwner (n : Nat) : (e.withOwner o).emit anchor n =
    (fun x => (x.1.withOwner o, x.2)) <$> e.emit anchor n := by
  induction n generalizing e with
  | zero => rfl
  | succ n ih =>
    have room (config : Config) : (e.withOwner o).hasRoom config = e.hasRoom config := by
      cases e; rfl
    simp only [emit, room, emitOne_withOwner, map_bind, bind_map_left]
    refine bind_congr fun s => ?_
    split
    · rfl
    · rw [map_bind]
      refine bind_congr fun x => ?_
      obtain ⟨e', halt⟩ := x
      cases halt with
      | none => exact ih e'
      | some why => rfl

theorem schedule_withOwner : (e.withOwner o).schedule = (·.withOwner o) <$> e.schedule := by
  obtain ⟨body, particles⟩ := e
  rfl

/-- How often it goes round does not depend on whose it is: by induction on the rounds. -/
theorem emitDue_withOwner (n : Nat) : emitDue anchor n (e.withOwner o) =
    (fun x => (x.1.withOwner o, x.2)) <$> emitDue anchor n e := by
  induction n generalizing e with
  | zero => rfl
  | succ n ih =>
    have countdown : (e.withOwner o).body.countdown = e.body.countdown := by cases e; rfl
    have definition : (e.withOwner o).body.definition = e.body.definition := by cases e; rfl
    have particles : (e.withOwner o).particles = e.particles := by cases e; rfl
    simp only [emitDue, countdown, definition, particles, emit_withOwner, bind_map_left]
    split
    · rfl
    · split
      · rfl
      · rw [map_bind]
        refine bind_congr fun x => ?_
        obtain ⟨e', halt⟩ := x
        cases halt with
        | some why => rfl
        | none =>
          dsimp only
          rw [schedule_withOwner, bind_map_left, map_bind]
          exact bind_congr fun e => ih e

theorem finish_withOwner : (e.withOwner o).finish elapsed anchor =
    (fun x => (x.1.withOwner o, x.2)) <$> e.finish elapsed anchor := by
  obtain ⟨body, particles⟩ := e
  have done : (body.withOwner o).doneEmitting = body.doneEmitting := rfl
  have culled : (body.withOwner o).culled = body.culled := rfl
  have due (n : Nat) := emitDue_withOwner o anchor
    (mk body (particles.filter fun p => !p.isComplete)) n
  simp only [withOwner, mapBody] at due ⊢
  simp only [finish, done, culled, due]
  split
  · simp only [map_bind, bind_map_left]
    refine bind_congr fun r => bind_congr fun x => ?_
    obtain ⟨⟨b, ps⟩, halt⟩ := x
    cases halt <;> rfl
  · rfl

end Emitter

/-- Nor does it matter to a whole tick. -/
theorem Emitter.advance_withOwner (parent : Option Anchor) (e : Emitter) :
    (e.withOwner o).advance parent elapsed =
      (fun x => (x.1.withOwner o, x.2)) <$> e.advance parent elapsed := by
  obtain ⟨body, particles⟩ := e
  have prepared := EmitterBody.prepare_withOwner o elapsed
    { body with parentAnchor := parent.or body.parentAnchor }
  refine (congrArg (· >>= _) prepared).trans ?_
  rw [Emitter.advance, map_bind, bind_map_left]
  refine bind_congr fun b => ?_
  rw [map_bind]
  refine bind_congr fun x => ?_
  obtain ⟨ps, halt⟩ := x
  cases halt with
  | some why => rfl
  | none => exact Emitter.finish_withOwner o elapsed _ (.mk b ps)

/-- The owner stays. -/
theorem Emitter.owner_advance (parent : Option Anchor) (e : Emitter) (r : Surroundings)
    (h : Host) : (e.advance parent elapsed r h).1.1.body.owner = e.body.owner := by
  have same : e.withOwner e.body.owner = e := by cases e; rfl
  have hx := congrFun (congrFun (e.advance_withOwner e.body.owner elapsed parent) r) h
  rw [same] at hx
  rw [hx, Tick.run_map]
  generalize e.advance parent elapsed r h = x
  obtain ⟨⟨⟨b, ps⟩, halt⟩, h'⟩ := x
  rfl

end EffectMachine
