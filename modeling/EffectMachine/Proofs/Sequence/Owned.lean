import EffectMachine.Proofs.Particle.Owned
import EffectMachine.Proofs.Sequence.Turns

namespace EffectMachine

namespace SequenceBody

/-- The same sequence: its emitters are where they were, and at most were told to stop. -/
structure Remains (s s' : SequenceBody) : Prop where
  id : s'.id = s.id
  emitters : Extends Emitter.Lasts s.emitters s'.emitters

variable {s s' s'' : SequenceBody}

theorem emitters_refl (es : List Emitter) :
    Extends Emitter.Lasts es es :=
  .refl Emitter.Lasts.refl es

theorem Remains.of_eq (id : s'.id = s.id) (emitters : s'.emitters = s.emitters) : s.Remains s' :=
  ⟨id, by rw [emitters]; exact emitters_refl _⟩

theorem Remains.refl (s : SequenceBody) : s.Remains s := .of_eq rfl rfl

theorem Remains.trans (h : s.Remains s') (h' : s'.Remains s'') : s.Remains s'' :=
  ⟨h'.id.trans h.id, h.emitters.trans (fun _ _ _ => Emitter.Lasts.trans) h'.emitters⟩

theorem remains_stopWhere (s : SequenceBody) (pick : EmitterBody → Bool) :
    s.Remains (s.stopWhere pick) := by
  refine ⟨rfl, Extends.map (fun e => ?_) _⟩
  split
  · exact Emitter.lasts_stop e
  · exact .refl e

theorem lasts_stopEmitters (es : List Emitter) :
    Extends Emitter.Lasts es (stopEmitters es) := by
  rw [stopEmitters_eq_map]
  exact Extends.map Emitter.lasts_stop es

theorem Does.remains {e : Effect} {flow : Flow} (h : s.Does e s' flow) : s.Remains s' := by
  cases h with
  | emitter g => exact ⟨rfl, .append Emitter.Lasts.refl _ _⟩
  | quieted pick => exact s.remains_stopWhere pick
  | _ => exact .of_eq rfl rfl

/-- All that a sequence does short of a tick leaves its emitters where they are. -/
theorem lasting_remains : Lasting Remains where
  refl := .refl
  trans _ _ _ := .trans
  does _ _ _ _ h := h.remains
  halted s := ⟨rfl, lasts_stopEmitters s.emitters⟩
  fail s _ := .after _ fun _ => .pure ⟨rfl, lasts_stopEmitters s.emitters⟩
  requeued s := by
    unfold SequenceBody.requeued
    split
    · exact .of_eq rfl rfl
    · dsimp only
      split
      · exact { s.remains_stopWhere fun g => g.owner = some s.id with }
      · exact .of_eq rfl rfl
  waits _ _ _ _ _ := .of_eq rfl rfl

end SequenceBody

namespace Sequence

open SequenceBody

/-- By induction on the tree. -/
theorem Pathwise.lasts {s s' : Sequence} (h : s.Pathwise Remains s') :
    s.Lasts s' := by
  generalize hn : Node.sequence s = n
  induction n using Node.induction generalizing s s' with
  | h n ih =>
    subst hn
    refine Node.lasts_of_owned ⟨s', rfl, h.body.id⟩ fun k => ?_
    cases k with
    | particle => exact .nil
    | emitter => exact .map_map h.body.emitters
    | sequence =>
      refine .map_map fun i c hi => ?_
      obtain ⟨c', hi', hc⟩ := h.children i c hi
      exact ⟨c', hi', ih .sequence _ (List.mem_map_of_mem (List.mem_of_getElem? hi)) hc rfl⟩

def hasEnded (s : Sequence) : Bool := s.isFailed || s.isComplete

def childTurn (parent : ResourceId) (elapsed : Scalar) (c : Sequence) :
    Tick (Sequence × Option Halt) := do
  let (c, halt) ← c.advance elapsed
  match halt with
  | some .outOfFuel => return (c, halt)
  | some (.fault fault) =>
    Tick.note (.childFailed parent c.body.routine.id fault)
    return (c, none)
  | none => return (c, none)

theorem advanceChildren_eq (parent : ResourceId) (elapsed : Scalar) :
    advanceChildren parent elapsed = inTurn (childTurn parent elapsed) := by
  funext cs
  induction cs with
  | nil => rfl
  | cons c cs ih =>
    rw [advanceChildren, inTurn, ih, childTurn, bind_assoc]
    refine bind_congr fun x => ?_
    obtain ⟨c', halt⟩ := x
    cases halt with
    | none => rfl
    | some why => cases why <;> rfl

theorem childTurn_fst (parent : ResourceId) (elapsed : Scalar) (c : Sequence) (r : Surroundings)
    (h : Host) : (c.childTurn parent elapsed r h).1.1 = (c.advance elapsed r h).1.1 := by
  rw [childTurn, Tick.run_bind]
  generalize c.advance elapsed r h = x
  obtain ⟨⟨c', halt⟩, h'⟩ := x
  cases halt with
  | none => rfl
  | some why => cases why <;> rfl

def childMoment? (s : Sequence) (m : Moment) (i : Nat) : Option Moment :=
  if s.isFailed then none
  else
    (turnHost? (childTurn s.body.routine.id m.elapsed) s.children i m.surroundings m.host).map
      fun host => { m with host }

def childStands? (s : Sequence) (m : Moment) (i : Nat) : Option Nat :=
  if s.isFailed || (s.movedChildren m).1.2.isSome then some i
  else standing (fun c => !c.hasEnded) (s.movedChildren m).1.1 i

def childAfter (s : Sequence) (m : Moment) (i : Nat) (c : Sequence) : Sequence :=
  match s.childMoment? m i with
  | some u => (c.ticked u).1.1
  | none => c

def reachesEmitters (s : Sequence) (m : Moment) : Bool :=
  !s.isFailed && (s.movedChildren m).1.2.isNone && (s.drained m).1.2.isNone

def movedEmitters (s : Sequence) (m : Moment) : (List Emitter × Option Halt) × Host :=
  advanceEmitters none m.elapsed (s.drained m).1.1.body.emitters m.surroundings (s.drained m).2

/-- The tick that an emitter of a sequence has, unless the tick is stopped before. Effects that run
before may have told it to stop: so it is found among the emitters after the draining. -/
def emitterTurn? (s : Sequence) (m : Moment) (i : Nat) : Option (Emitter × EmitterTick) :=
  if s.reachesEmitters m then
    (turnHost? (Emitter.advance none m.elapsed) (s.drained m).1.1.body.emitters i m.surroundings
      (s.drained m).2).bind fun host =>
        (s.drained m).1.1.body.emitters[i]?.map fun e => (e, ⟨none, m.elapsed, m.surroundings, host⟩)
  else none

def emitterStands? (s : Sequence) (m : Moment) (i : Nat) : Option Nat :=
  if s.reachesEmitters m && (s.movedEmitters m).1.2.isNone then
    standing (fun e => !e.isExpired) (s.movedEmitters m).1.1 i
  else some i

def emitterAfter (s : Sequence) (m : Moment) (i : Nat) (e : Emitter) : Emitter :=
  match s.emitterTurn? m i with
  | some x => (x.1.ticked x.2).1.1
  | none => e

variable {s : Sequence} {m : Moment} {i : Nat}

theorem movedChildren_getElem? {c : Sequence} (hf : s.isFailed = false)
    (hc : s.children[i]? = some c) :
    (s.movedChildren m).1.1[i]? = some (s.childAfter m i c) := by
  rw [movedChildren, advanceChildren_eq, getElem?_inTurn hc, childAfter, childMoment?, hf,
    if_neg Bool.false_ne_true]
  cases turnHost? _ s.children i m.surroundings m.host with
  | none => rfl
  | some host => exact congrArg some (childTurn_fst _ _ c _ _)

theorem ready_children (s : Sequence) (m : Moment) :
    (s.ready m).children = (s.movedChildren m).1.1.filter fun c => !c.hasEnded := by
  rw [ready, earn, children_mapBody, dropEnded]
  exact List.filter_congr fun c _ => (Bool.not_or ..).symm

theorem drained_pathwise (s : Sequence) (m : Moment) :
    (s.ready m).Pathwise Remains (s.drained m).1.1 :=
  drain_pathwise lasting_remains (preserve_runStopHandlers lasting_remains _) _ _ _ _

theorem settle_children (s : Sequence) (halt : Option Halt) :
    (s.settle halt).Always fun x => x.1.children = s.children := by
  unfold settle
  split
  · exact .after _ fun _ => .pure rfl
  · exact .pure rfl

/-- A child after a tick: let go because it has failed or is complete, or still there. -/
theorem child_fares {c : Sequence} (hc : s.children[i]? = some c) :
    Fares Lasts hasEnded
      (s.ticked m).1.1.children (s.childAfter m i c) (s.childStands? m i) := by
  cases hf : s.isFailed with
  | true =>
    obtain ⟨f, hs⟩ := isFailed_eq_true.mp hf
    rw [childStands?, hf, Bool.true_or, if_pos rfl, childAfter, childMoment?, if_pos hf,
      ticked_of_failed hs]
    exact .unmoved hc (.refl Lasts.refl _)
  | false =>
    have hm := movedChildren_getElem? (m := m) hf hc
    cases hh : (s.movedChildren m).1.2 with
    | some why =>
      rw [childStands?, hf, hh, Bool.false_or, Option.isSome_some, if_pos rfl,
        ticked_of_children_halt hf hh]
      exact .unmoved hm (.refl Lasts.refl _)
    | none =>
      rw [childStands?, hf, hh, if_neg (by simp)]
      refine .left hm ?_
      obtain ⟨es, h, ht⟩ := ticked_settles hf hh
      rw [ht, settle_children _ _ _ _, children_mk, ← ready_children]
      intro j c hj
      obtain ⟨c', hj', hp⟩ := (s.drained_pathwise m).children j c hj
      exact ⟨c', hj', hp.lasts⟩

/-- What has no turn stays where it is. -/
theorem childStands?_of_none (h : s.childMoment? m i = none) : s.childStands? m i = some i := by
  rw [childMoment?] at h
  refine if_pos ?_
  split at h
  next hf => rw [hf, Bool.true_or]
  next hf =>
    have hh := isSome_of_turnHost? (Option.map_eq_none_iff.mp h)
    rw [← advanceChildren_eq] at hh
    rw [movedChildren, hh, Bool.or_true]

theorem drained_emitters (s : Sequence) (m : Moment) :
    Extends Emitter.Lasts s.body.emitters
      (s.drained m).1.1.body.emitters := by
  have h := (s.drained_pathwise m).body.emitters
  rwa [ready, earn, body_mapBody] at h

/-- The end of a tick at most tells the emitters to stop. -/
theorem settle_emitters (s : Sequence) (halt : Option Halt) :
    (s.settle halt).Always fun x =>
      Extends Emitter.Lasts s.body.emitters
        x.1.body.emitters :=
  (settle_pathwise lasting_remains s halt).mono fun _ hx => hx.body.emitters

/-- An emitter of a sequence is there when its turn comes, and at most was told to stop. -/
theorem lasts_of_emitterTurn? {e e' : Emitter} {u : EmitterTick} (he : s.body.emitters[i]? = some e)
    (hu : s.emitterTurn? m i = some (e', u)) : e.Lasts e' := by
  rw [emitterTurn?] at hu
  split at hu
  · obtain ⟨host, -, hu⟩ := Option.bind_eq_some_iff.mp hu
    obtain ⟨d, hd, hu⟩ := Option.map_eq_some_iff.mp hu
    cases hu
    obtain ⟨d', hd', hl⟩ := s.drained_emitters m i e he
    rw [hd] at hd'
    cases hd'
    exact hl
  · cases hu

/-- As long as the emitters do not move, they at most are told to stop. -/
theorem ticked_emitters_of_unreached (hr : s.reachesEmitters m = false) :
    Extends Emitter.Lasts s.body.emitters
      (s.ticked m).1.1.body.emitters := by
  cases hf : s.isFailed with
  | true =>
    obtain ⟨f, hs⟩ := isFailed_eq_true.mp hf
    rw [ticked_of_failed hs]
    exact emitters_refl _
  | false =>
    cases hc : (s.movedChildren m).1.2 with
    | some why =>
      rw [ticked_of_children_halt hf hc]
      exact emitters_refl _
    | none =>
      have hd : (s.drained m).1.2.isSome = true := by
        simpa [reachesEmitters, hf, hc, ← Option.isSome_iff_ne_none] using hr
      rw [ticked_eq_settle hf hc, if_pos hd]
      exact (s.drained_emitters m).trans (fun _ _ _ => Emitter.Lasts.trans) (settle_emitters _ _ _ _)

/-- Once they have moved, those that have expired are let go, unless a fault has stopped the tick. -/
theorem ticked_emitters_of_reached (hr : s.reachesEmitters m = true) :
    Extends Emitter.Lasts
      (if (s.movedEmitters m).1.2.isSome then (s.movedEmitters m).1.1
        else (s.movedEmitters m).1.1.filter fun e => !e.isExpired)
      (s.ticked m).1.1.body.emitters := by
  simp only [reachesEmitters, Bool.and_eq_true, Bool.not_eq_true',
    Option.isNone_iff_eq_none] at hr
  obtain ⟨⟨hf, hc⟩, hd⟩ := hr
  have ho : ((s.drained m).1.1.advanceOwned m.elapsed m.surroundings (s.drained m).2).1.1.body.emitters
      = if (s.movedEmitters m).1.2.isSome then (s.movedEmitters m).1.1
        else (s.movedEmitters m).1.1.filter fun e => !e.isExpired := by
    rw [advanceOwned, Tick.run_bind, movedEmitters]
    dsimp only
    split <;> rfl
  have hn : ¬(s.drained m).1.2.isSome = true := by simp [hd]
  rw [← ho, ticked_eq_settle hf hc, if_neg hn]
  exact settle_emitters _ _ _ _

/-- An emitter of a sequence after a tick: let go because it has expired, or still there. -/
theorem emitter_fares {e : Emitter} (he : s.body.emitters[i]? = some e) :
    Fares Emitter.Lasts Emitter.isExpired
      (s.ticked m).1.1.body.emitters (s.emitterAfter m i e) (s.emitterStands? m i) := by
  cases hr : s.reachesEmitters m with
  | false =>
    rw [emitterStands?, hr, Bool.false_and, if_neg Bool.false_ne_true, emitterAfter, emitterTurn?,
      hr, if_neg Bool.false_ne_true]
    exact .unmoved he (ticked_emitters_of_unreached hr)
  | true =>
    have hx := ticked_emitters_of_reached hr
    obtain ⟨d, hd, hl⟩ := s.drained_emitters m i e he
    have hm := getElem?_inTurn (f := Emitter.advance none m.elapsed) (r := m.surroundings)
      (h := (s.drained m).2) hd
    rw [← advanceEmitters_eq, ← movedEmitters] at hm
    rw [emitterStands?, hr, Bool.true_and, emitterAfter, emitterTurn?, if_pos hr, hd]
    cases ht : turnHost? (Emitter.advance none m.elapsed) (s.drained m).1.1.body.emitters i
      m.surroundings (s.drained m).2 with
    | none =>
      have hh : (s.movedEmitters m).1.2.isSome = true := by
        rw [movedEmitters, advanceEmitters_eq]
        exact isSome_of_turnHost? ht
      rw [ht] at hm
      rw [if_pos hh] at hx
      rw [Option.isNone_eq_false_iff.mpr hh, if_neg Bool.false_ne_true]
      obtain ⟨d', hd', hl'⟩ := hx i d hm
      exact ⟨d', hd', hl.trans hl'⟩
    | some host =>
      rw [ht] at hm
      cases hh : (s.movedEmitters m).1.2 with
      | some why =>
        rw [hh, Option.isSome_some, if_pos rfl] at hx
        exact .unmoved hm hx
      | none =>
        rw [hh, if_neg (by simp)] at hx
        exact .left hm hx

/-- Without a turn an emitter stays where it stands. -/
theorem emitterStands?_of_none {e : Emitter} (he : s.body.emitters[i]? = some e)
    (h : s.emitterTurn? m i = none) : s.emitterStands? m i = some i := by
  refine if_neg ?_
  cases hr : s.reachesEmitters m with
  | false => rw [Bool.false_and]; exact Bool.false_ne_true
  | true =>
    rw [emitterTurn?, if_pos hr] at h
    obtain ⟨d, hd, -⟩ := s.drained_emitters m i e he
    have hn : turnHost? (Emitter.advance none m.elapsed) (s.drained m).1.1.body.emitters i
        m.surroundings (s.drained m).2 = none := by
      cases ht : turnHost? (Emitter.advance none m.elapsed) (s.drained m).1.1.body.emitters i
        m.surroundings (s.drained m).2 with
      | none => rfl
      | some host => rw [hd, ht] at h; cases h
    have hh := isSome_of_turnHost? hn
    rw [← advanceEmitters_eq] at hh
    rw [movedEmitters, Option.isNone_eq_false_iff.mpr hh, Bool.and_false]
    exact Bool.false_ne_true
/-- An emitter that has moved, and is let go, has expired; it may be one that was made in the same
tick. -/
theorem isExpired_of_emitterTurn? {x : Emitter × EmitterTick} (hx : s.emitterTurn? m i = some x)
    (hn : s.emitterStands? m i = none) : (x.1.ticked x.2).1.1.isExpired = true := by
  rw [emitterTurn?] at hx
  split at hx
  next hr =>
    obtain ⟨host, hh, hx⟩ := Option.bind_eq_some_iff.mp hx
    obtain ⟨d, hd, rfl⟩ := Option.map_eq_some_iff.mp hx
    have hm := getElem?_inTurn (f := Emitter.advance none m.elapsed) (r := m.surroundings)
      (h := (s.drained m).2) hd
    rw [hh, ← advanceEmitters_eq] at hm
    rw [emitterStands?] at hn
    split at hn
    · cases he : ((Emitter.advance none m.elapsed d m.surroundings host).1.1).isExpired with
      | true => exact he
      | false =>
        have hk : standing (fun e => !e.isExpired) (s.movedEmitters m).1.1 i = some _ :=
          standing_of_kept hm (by rw [he]; rfl)
        rw [hk] at hn
        cases hn
    · cases hn
  next => cases hx

end Sequence
end EffectMachine
