import EffectMachine.Proofs.Sequence.Drains

namespace EffectMachine.Sequence

namespace DrainEvent

def goesOn : DrainEvent → Bool
  | requeued => true
  | skipped _ => true
  | ran _ => true
  | _ => false

def halt? : DrainEvent → Option Halt
  | halted _ why => some why
  | _ => none

def taken? : DrainEvent → Option Effect
  | skipped e => some e
  | ran e => some e
  | halted e _ => some e
  | _ => none

def foundEmpty : DrainEvent → Bool
  | dry => true
  | requeued => true
  | _ => false

def isFault : DrainEvent → Bool
  | halted _ (.fault _) => true
  | _ => false

theorem halt?_of_goesOn {event : DrainEvent} (h : event.goesOn = true) : event.halt? = none := by
  cases event with
  | halted => cases h
  | _ => rfl

theorem halted_of_isFault {event : DrainEvent} (h : event.isFault = true) :
    ∃ e f, event = .halted e (.fault f) := by
  cases event with
  | halted e why =>
    cases why with
    | fault f => exact ⟨e, f, rfl⟩
    | outOfFuel => cases h
  | _ => cases h

end DrainEvent

structure Turn where
  surroundings : Surroundings
  host : Host
  before : Sequence
  event : DrainEvent
  after : Sequence

def drainTurns (run : StopHandlers Tick) : Nat → Sequence → Surroundings → Host → List Turn
  | 0, _, _, _ => []
  | n + 1, s, r, h =>
    let x := s.drainStep run r h
    let turn := ⟨r, h, s, x.1.2, x.1.1⟩
    if x.1.2.goesOn then turn :: drainTurns run n x.1.1 r x.2 else [turn]

def handlerTurns (run : StopHandlers Tick) :
    Nat → List Effect → Sequence → Surroundings → Host → List Turn
  | 0, _, _, _, _ => []
  | _ + 1, [], _, _, _ => []
  | n + 1, e :: es, s, r, h =>
    if s.skips e then ⟨r, h, s, .skipped e, s⟩ :: handlerTurns run n es s r h
    else
      let x := s.execute run e r h
      match x.1.2 with
      | .proceed => ⟨r, h, s, .ran e, x.1.1⟩ :: handlerTurns run n es x.1.1 r x.2
      | .splice effects =>
        ⟨r, h, s, .ran e, x.1.1⟩ :: handlerTurns run n (effects ++ es) x.1.1 r x.2
      | .hold => [⟨r, h, s, .held e, x.1.1⟩]
      | .halt why => [⟨r, h, s, .halted e why, x.1.1⟩]

/-- The draining loop is one turn, and the rest of the loop if it goes on. -/
theorem drain_succ (run : StopHandlers Tick) (n : Nat) (s : Sequence) (r : Surroundings)
    (h : Host) :
    s.drain run (n + 1) r h =
      if (s.drainStep run r h).1.2.goesOn then
        (s.drainStep run r h).1.1.drain run n r (s.drainStep run r h).2
      else (((s.drainStep run r h).1.1, (s.drainStep run r h).1.2.halt?),
        (s.drainStep run r h).2) := by
  rw [drain, Tick.run_bind]
  obtain ⟨⟨s', event⟩, h'⟩ := s.drainStep run r h
  cases event <;> rfl

def lastOf : Sequence → List Turn → Sequence
  | s, [] => s
  | _, t :: ts => t.after.lastOf ts

theorem drain_lastOf (run : StopHandlers Tick) (n : Nat) (s : Sequence) (r : Surroundings)
    (h : Host) : (s.drain run n r h).1.1 = s.lastOf (s.drainTurns run n r h) := by
  induction n generalizing s h with
  | zero => rfl
  | succ n ih =>
    rw [drain_succ, drainTurns]
    split
    · rw [lastOf, ih]
    · rfl

theorem drain_pathwise {R : SequenceBody → SequenceBody → Prop} (hR : SequenceBody.Lasting R)
    {run : StopHandlers Tick} (hr : run.Preserve R) (n : Nat) (s : Sequence) :
    (s.drain run n).Always fun x => s.Pathwise R x.1 := by
  induction n generalizing s with
  | zero => exact .pure (.refl hR.refl s)
  | succ n ih =>
    intro r h
    have hs := (s.drainStep_drains run r h).pathwise hR hr
    rw [drain_succ]
    split
    · exact hs.trans hR.trans (ih _ _ _)
    · exact hs

theorem drain_later {run : StopHandlers Tick} (hr : run.Persist) (n : Nat) (s : Sequence) :
    (s.drain run n).Always fun x => s.Later x.1 :=
  drain_pathwise SequenceBody.lasting_later hr n s

theorem drain_failure (run : StopHandlers Tick) (n : Nat) (s : Sequence) :
    (s.drain run n).Always fun x => x.1.body.failure = s.body.failure := by
  induction n generalizing s with
  | zero => exact .pure rfl
  | succ n ih =>
    intro r h
    have hs := (s.drainStep_drains run r h).failure_eq
    rw [drain_succ]
    split
    · exact (ih _ _ _).trans hs
    · exact hs

/-- The fault of a turn is what the loop comes back with. -/
theorem drain_of_fault {run : StopHandlers Tick} {n : Nat} {s : Sequence} {r : Surroundings}
    {h : Host} {t : Turn} {e : Effect} {f : Fault} (ht : t ∈ s.drainTurns run n r h)
    (he : t.event = .halted e (.fault f)) : (s.drain run n r h).1.2 = some (.fault f) := by
  induction n generalizing s h with
  | zero => simp [drainTurns] at ht
  | succ n ih =>
    rw [drainTurns] at ht
    rw [drain_succ]
    split at ht
    next hg =>
      rw [if_pos hg]
      rcases List.mem_cons.mp ht with rfl | ht
      · simp only at he
        simp [he, DrainEvent.goesOn] at hg
      · exact ih ht
    next hg =>
      rw [if_neg hg]
      simp only [List.mem_singleton] at ht
      subst t
      simp only at he
      simp only [he, DrainEvent.halt?]

/-- The loop comes back with no fault but that of one of its turns. -/
theorem fault_of_drain {run : StopHandlers Tick} {n : Nat} {s : Sequence} {r : Surroundings}
    {h : Host} {f : Fault} (hd : (s.drain run n r h).1.2 = some (.fault f)) :
    ∃ t ∈ s.drainTurns run n r h, ∃ e, t.event = .halted e (.fault f) := by
  induction n generalizing s h with
  | zero => simp [drain] at hd
  | succ n ih =>
    rw [drain_succ] at hd
    rw [drainTurns]
    split at hd
    next hg =>
      obtain ⟨t, ht, he⟩ := ih hd
      exact ⟨t, by rw [if_pos hg]; exact List.mem_cons_of_mem _ ht, he⟩
    next hg =>
      rw [if_neg hg]
      refine ⟨_, List.mem_singleton.mpr rfl, ?_⟩
      dsimp only at hd ⊢
      cases hv : (s.drainStep run r h).1.2 <;> simp only [hv, DrainEvent.halt?] at hd
      case halted e why =>
        exact ⟨e, by rw [Option.some.inj hd]⟩
      all_goals cases hd

/-- One tick of a run: how long it is, and what it finds. -/
structure Moment where
  elapsed : Scalar
  surroundings : Surroundings
  host : Host

def Moment.bare : Moment := ⟨1, .bare, .fresh⟩

def ticked (s : Sequence) (m : Moment) : (Sequence × Option Halt) × Host :=
  s.advance m.elapsed m.surroundings m.host

def after : Sequence → List Moment → Sequence
  | s, [] => s
  | s, m :: ms => (s.ticked m).1.1.after ms

/-- No loop of a run spends all of its fuel. -/
def Returns : Sequence → List Moment → Prop
  | _, [] => True
  | s, m :: ms => (s.ticked m).1.2 ≠ some .outOfFuel ∧ (s.ticked m).1.1.Returns ms

def movedChildren (s : Sequence) (m : Moment) : (List Sequence × Option Halt) × Host :=
  advanceChildren s.body.routine.id m.elapsed s.children m.surroundings m.host

/-- The sequence as a tick finds it when it begins to drain the queue. -/
def ready (s : Sequence) (m : Moment) : Sequence :=
  ((mk { s.body with refilled := false } (s.movedChildren m).1.1).dropEnded).earn m.elapsed

def drained (s : Sequence) (m : Moment) : (Sequence × Option Halt) × Host :=
  (s.ready m).drain (runStopHandlers m.surroundings.fuel) m.surroundings.fuel m.surroundings
    (s.movedChildren m).2

/-- The turns of a sequence's own draining in a tick; a failed one takes none. -/
def tickTurns (s : Sequence) (m : Moment) : List Turn :=
  if s.isFailed || (s.movedChildren m).1.2.isSome then []
  else (s.ready m).drainTurns (runStopHandlers m.surroundings.fuel) m.surroundings.fuel
    m.surroundings (s.movedChildren m).2

def turns : Sequence → List Moment → List Turn
  | _, [] => []
  | s, m :: ms => s.tickTurns m ++ (s.ticked m).1.1.turns ms

theorem isFailed_eq_true {s : Sequence} : s.isFailed = true ↔ ∃ f, s.body.failure = some f := by
  simp [isFailed, SequenceBody.isFailed, Option.isSome_iff_exists]

theorem isFailed_eq_false {s : Sequence} : s.isFailed = false ↔ s.body.failure = none := by
  simp [isFailed, SequenceBody.isFailed]

variable {s : Sequence} {m : Moment}

/-- Nothing moves any more in a sequence that failed, not even its children. -/
theorem ticked_of_failed {f : Fault} (hf : s.body.failure = some f) :
    s.ticked m = ((s, some (.fault f)), m.host) := by
  cases s with
  | mk body children =>
    have hf : body.failure = some f := hf
    simp only [ticked, advance, hf, Tick.run_pure]

/-- A tick moves the children, and goes on if they came to an end. -/
theorem advance_of_not_failed (hf : s.isFailed = false) (elapsed : Scalar) :
    s.advance elapsed =
      advanceChildren s.body.routine.id elapsed s.children >>= fun x =>
        if x.2.isSome then pure (mk { s.body with refilled := false } x.1, x.2)
        else (mk { s.body with refilled := false } x.1).advanceSelf elapsed := by
  cases s with
  | mk body children =>
    unfold Sequence.advance
    split
    next f hs =>
      have hn : body.failure = none := isFailed_eq_false.mp hf
      exact absurd hs (by simp [hn])
    next => rfl

/-- If a child gives up, the sequence itself does nothing in the tick. -/
theorem ticked_of_children_halt (hf : s.isFailed = false) {why : Halt}
    (hc : (s.movedChildren m).1.2 = some why) :
    s.ticked m = ((mk { s.body with refilled := false } (s.movedChildren m).1.1, some why),
      (s.movedChildren m).2) := by
  have hc : (advanceChildren s.body.routine.id m.elapsed s.children m.surroundings m.host).1.2 =
      some why := hc
  simp only [ticked, advance_of_not_failed hf, Tick.run_bind, hc, Option.isSome_some, if_true,
    Tick.run_pure, movedChildren]

theorem ticked_of_children (hf : s.isFailed = false) (hc : (s.movedChildren m).1.2 = none) :
    s.ticked m = (mk { s.body with refilled := false } (s.movedChildren m).1.1).advanceSelf
      m.elapsed m.surroundings (s.movedChildren m).2 := by
  have hc : (advanceChildren s.body.routine.id m.elapsed s.children m.surroundings m.host).1.2 =
      none := hc
  simp only [ticked, advance_of_not_failed hf, Tick.run_bind, hc, Option.isSome_none,
    Bool.false_eq_true, if_false, movedChildren]

theorem settle_halt (s : Sequence) (halt : Option Halt) :
    (s.settle halt).Always fun x => x.2 = halt := by
  unfold settle
  split
  · exact .after _ fun _ => .pure rfl
  · exact .pure rfl

theorem settle_of_ne_fault (s : Sequence) {halt : Option Halt}
    (hh : ∀ f, halt ≠ some (.fault f)) : s.settle halt = pure (s, halt) := by
  unfold settle
  split
  next f => exact absurd rfl (hh f)
  next => rfl

theorem settle_fault_isFailed (s : Sequence) (f : Fault) :
    (s.settle (some (.fault f))).Always fun x => x.1.isFailed = true :=
  .bind (P := fun b : SequenceBody => b.isFailed = true) (.after _ fun _ => .pure rfl)
    fun _ hb => .pure hb

/-- The end of a tick changes nothing but the sequence's own emitters. -/
theorem advanceOwned_emitters (s : Sequence) (elapsed : Scalar) :
    (s.advanceOwned elapsed).Always fun x =>
      ∃ es, x.1 = mk { s.body with emitters := es } s.children := by
  refine .after _ fun x => ?_
  dsimp only
  split
  · exact .pure ⟨_, rfl⟩
  · exact .pure ⟨_, rfl⟩

/-- How a tick ends, by how far its draining comes. -/
theorem ticked_eq_settle (hf : s.isFailed = false) (hc : (s.movedChildren m).1.2 = none) :
    s.ticked m =
      if (s.drained m).1.2.isSome then
        (s.drained m).1.1.settle (s.drained m).1.2 m.surroundings (s.drained m).2
      else
        let x := (s.drained m).1.1.advanceOwned m.elapsed m.surroundings (s.drained m).2
        x.1.1.settle x.1.2 m.surroundings x.2 := by
  have ht : s.ticked m = ((s.ready m).drain (runStopHandlers m.surroundings.fuel)
      m.surroundings.fuel >>= fun x =>
        if x.2.isSome then x.1.settle x.2
        else x.1.advanceOwned m.elapsed >>= fun y => y.1.settle y.2)
      m.surroundings (s.movedChildren m).2 := by
    rw [ticked_of_children hf hc, advanceSelf, Tick.run_read_bind]
    rfl
  rw [ht, Tick.run_bind, ← drained]
  split
  · rfl
  · rfl

/-- What a tick ends with: the fault of its draining or, without one, of the emitters. -/
def tickHalt (s : Sequence) (m : Moment) : Option Halt :=
  match (s.drained m).1.2 with
  | some why => some why
  | none => ((s.drained m).1.1.advanceOwned m.elapsed m.surroundings (s.drained m).2).1.2

/-- Whatever it ends with, a tick leaves what its draining left, but for the emitters. -/
theorem ticked_settles (hf : s.isFailed = false) (hc : (s.movedChildren m).1.2 = none) :
    ∃ es h, s.ticked m =
      (mk { (s.drained m).1.1.body with emitters := es } (s.drained m).1.1.children).settle
        (s.tickHalt m) m.surroundings h := by
  rw [ticked_eq_settle hf hc, tickHalt]
  cases hd : (s.drained m).1.2 with
  | some why =>
    refine ⟨(s.drained m).1.1.body.emitters, (s.drained m).2, ?_⟩
    rw [Option.isSome_some, if_pos rfl]
    exact congrArg (fun x => settle x (some why) m.surroundings (s.drained m).2) (mk_eta _).symm
  | none =>
    rw [if_neg (by simp)]
    obtain ⟨es, he⟩ := (s.drained m).1.1.advanceOwned_emitters m.elapsed m.surroundings
      (s.drained m).2
    dsimp only
    rw [he]
    exact ⟨es, _, rfl⟩

/-- What a tick can come to, and the turns it takes: a sequence that has failed does nothing, one
with a child that gives up goes no further, and any other one settles what its turns and its
emitters have left. -/
inductive Ticks (s : Sequence) (m : Moment) : List Turn → Sequence × Option Halt → Prop
  | failed (f : Fault) (failed : s.isFailed = true) : s.Ticks m [] (s, some (.fault f))
  | cut (why : Halt) (live : s.isFailed = false)
      (children : (s.movedChildren m).1.2 = some why) :
      s.Ticks m [] (mk { s.body with refilled := false } (s.movedChildren m).1.1, some why)
  | settled (es : List Emitter) (h : Host) (live : s.isFailed = false)
      (children : (s.movedChildren m).1.2 = none) :
      s.Ticks m (s.tickTurns m)
        ((mk { (s.drained m).1.1.body with emitters := es } (s.drained m).1.1.children).settle
          (s.tickHalt m) m.surroundings h).1

/-- Every tick of a sequence comes to one of these ends, with the turns it takes. -/
theorem ticks (s : Sequence) (m : Moment) : s.Ticks m (s.tickTurns m) (s.ticked m).1 := by
  cases hf : s.isFailed with
  | true =>
    obtain ⟨f, he⟩ := isFailed_eq_true.mp hf
    have hn : s.tickTurns m = [] := by simp [tickTurns, hf]
    rw [hn, ticked_of_failed he]
    exact .failed f hf
  | false =>
    cases hc : (s.movedChildren m).1.2 with
    | some why =>
      have hn : s.tickTurns m = [] := by simp [tickTurns, hc]
      rw [hn, ticked_of_children_halt hf hc]
      exact .cut why hf hc
    | none =>
      obtain ⟨es, h, ht⟩ := ticked_settles hf hc
      rw [ht]
      exact .settled es h hf hc

theorem ticked_id (s : Sequence) (m : Moment) : (s.ticked m).1.1.body.id = s.body.id := by
  have hk := s.ticks m
  generalize s.tickTurns m = ts at hk
  generalize (s.ticked m).1 = x at hk ⊢
  cases hk with
  | failed | cut => rfl
  | settled es h live children =>
    have hd : (s.drained m).1.1.body.id = s.body.id :=
      (drain_later (persist_runStopHandlers _) _ (s.ready m) _ _).body.id
    exact (settle_later _ _ m.surroundings h).body.id.trans hd

theorem advanceChildren_halt (parent : ResourceId) (elapsed : Scalar) (cs : List Sequence) :
    (advanceChildren parent elapsed cs).Always fun x => x.2 = none ∨ x.2 = some .outOfFuel := by
  induction cs with
  | nil => exact .pure (.inl rfl)
  | cons c cs ih =>
    unfold advanceChildren
    refine .after _ fun x => ?_
    dsimp only
    split
    next hx => exact .pure (.inr hx)
    next f hx => exact .after _ fun _ => .bind ih fun y hy => .pure hy
    next hx => exact .bind ih fun y hy => .pure hy

/-- The same effects wait, in the same place of the blocks. -/
structure SameWork (s s' : Sequence) : Prop where
  queue : s'.body.queue = s.body.queue
  control : s'.body.control = s.body.control

theorem SameWork.refl (s : Sequence) : s.SameWork s := ⟨rfl, rfl⟩

theorem SameWork.trans {s s' s'' : Sequence} (h : s.SameWork s') (h' : s'.SameWork s'') :
    s.SameWork s'' :=
  ⟨h'.queue.trans h.queue, h'.control.trans h.control⟩

def Turn.IsStep (t : Turn) : Prop :=
  (t.before.drainStep (runStopHandlers t.surroundings.fuel) t.surroundings t.host).1 =
    (t.after, t.event)

/-- Each turn takes up the work where the one before left it. After a fault there is none. -/
def Chained : Sequence → List Turn → Prop
  | _, [] => True
  | s, t :: ts => s.SameWork t.before ∧ t.IsStep ∧ (t.event.isFault = true → ts = []) ∧
      t.after.Chained ts

theorem Chained.of_sameWork {s s' : Sequence} {ts : List Turn} (hs : s.SameWork s')
    (h : s'.Chained ts) : s.Chained ts := by
  cases ts with
  | nil => trivial
  | cons t ts => exact ⟨hs.trans h.1, h.2⟩

/-- Chains join, unless a fault stands between them. -/
theorem Chained.append {s : Sequence} {ts us : List Turn} (ht : s.Chained ts)
    (hf : ∀ t ∈ ts, t.event.isFault = true → us = []) (hu : (s.lastOf ts).Chained us) :
    s.Chained (ts ++ us) := by
  induction ts generalizing s with
  | nil => exact hu
  | cons t ts ih =>
    obtain ⟨hw, hs, hl, ht⟩ := ht
    refine ⟨hw, hs, ?_, ih ht (fun u hm => hf u (List.mem_cons_of_mem _ hm)) hu⟩
    intro he
    rw [hl he, hf t List.mem_cons_self he]
    rfl

theorem Chained.of_initial {s : Sequence} {ts us : List Turn} (h : s.Chained us)
    (hp : ts <+: us) : s.Chained ts := by
  induction ts generalizing s us with
  | nil => trivial
  | cons t ts ih =>
    obtain ⟨rest, rfl⟩ := hp
    obtain ⟨hw, hs, hl, ht⟩ := h
    refine ⟨hw, hs, fun he => ?_, ih ht ⟨rest, rfl⟩⟩
    exact (List.append_eq_nil_iff.mp (hl he)).1

theorem chained_drainTurns (n : Nat) (s : Sequence) (r : Surroundings) (h : Host) :
    s.Chained (s.drainTurns (runStopHandlers r.fuel) n r h) := by
  induction n generalizing s h with
  | zero => trivial
  | succ n ih =>
    rw [drainTurns]
    split
    next hg =>
      refine ⟨.refl s, rfl, fun hf => ?_, ih _ _⟩
      cases hv : (s.drainStep (runStopHandlers r.fuel) r h).1.2 <;>
        simp_all [DrainEvent.goesOn, DrainEvent.isFault]
    next => exact ⟨.refl s, rfl, fun _ => rfl, trivial⟩

theorem ready_sameWork (s : Sequence) (m : Moment) : s.SameWork (s.ready m) := ⟨rfl, rfl⟩

theorem chained_tickTurns (s : Sequence) (m : Moment) : s.Chained (s.tickTurns m) := by
  unfold tickTurns
  split
  · trivial
  · exact (chained_drainTurns ..).of_sameWork (s.ready_sameWork m)

/-- A child never hands a fault to its parent. -/
theorem movedChildren_none (hf : s.isFailed = false) (hr : (s.ticked m).1.2 ≠ some .outOfFuel) :
    (s.movedChildren m).1.2 = none := by
  rcases advanceChildren_halt s.body.routine.id m.elapsed s.children m.surroundings m.host
    with hc | hc
  · exact hc
  · exact absurd (by rw [ticked_of_children_halt hf hc]) hr

theorem drained_returns (hf : s.isFailed = false) (hr : (s.ticked m).1.2 ≠ some .outOfFuel) :
    (s.drained m).1.2 ≠ some .outOfFuel := by
  intro hd
  obtain ⟨es, h, ht⟩ := ticked_settles hf (movedChildren_none hf hr)
  rw [ht, settle_halt _ _ _ _, tickHalt, hd] at hr
  exact hr rfl

theorem tickTurns_of_children (hf : s.isFailed = false) (hc : (s.movedChildren m).1.2 = none) :
    s.tickTurns m = (s.ready m).drainTurns (runStopHandlers m.surroundings.fuel)
      m.surroundings.fuel m.surroundings (s.movedChildren m).2 := by
  simp only [tickTurns, hf, hc, Option.isSome_none, Bool.or_self, Bool.false_eq_true, if_false]

theorem drained_lastOf (hf : s.isFailed = false) (hc : (s.movedChildren m).1.2 = none) :
    ((s.ready m).lastOf (s.tickTurns m)) = (s.drained m).1.1 := by
  rw [tickTurns_of_children hf hc, drained, drain_lastOf]

theorem lastOf_sameWork {s s' : Sequence} (hs : s.SameWork s') (ts : List Turn) :
    (s.lastOf ts).SameWork (s'.lastOf ts) := by
  cases ts with
  | nil => exact hs
  | cons t ts => exact .refl _

/-- A tick leaves the work as its last turn left it, unless the sequence failed. -/
theorem ticked_sameWork (s : Sequence) (m : Moment) :
    (s.ticked m).1.1.isFailed = true ∨
      ((s.lastOf (s.tickTurns m)).SameWork (s.ticked m).1.1 ∧
        ∀ t ∈ s.tickTurns m, t.event.isFault = false) := by
  have hk := s.ticks m
  generalize s.tickTurns m = ts at hk ⊢
  generalize (s.ticked m).1 = x at hk ⊢
  cases hk with
  | failed f failed => exact .inl failed
  | cut => exact .inr ⟨⟨rfl, rfl⟩, by simp⟩
  | settled es h live children =>
    have hl : (s.lastOf (s.tickTurns m)).SameWork (s.drained m).1.1 := by
      rw [← drained_lastOf live children]
      exact lastOf_sameWork (s.ready_sameWork m) _
    by_cases hh : ∃ f, s.tickHalt m = some (.fault f)
    · obtain ⟨f, hh⟩ := hh
      rw [hh]
      exact .inl (settle_fault_isFailed _ f _ _)
    · rw [settle_of_ne_fault _ fun f hx => hh ⟨f, hx⟩]
      refine .inr ⟨hl.trans ⟨rfl, rfl⟩, fun t hm => eq_false_of_ne_true fun he => hh ?_⟩
      obtain ⟨e, f, hv⟩ := DrainEvent.halted_of_isFault he
      rw [tickTurns_of_children live children] at hm
      have hd : (s.drained m).1.2 = some (.fault f) := drain_of_fault hm hv
      exact ⟨f, by rw [tickHalt, hd]⟩

theorem turns_of_failed (hf : s.isFailed = true) (ms : List Moment) : s.turns ms = [] := by
  induction ms with
  | nil => rfl
  | cons m ms ih =>
    obtain ⟨f, hs⟩ := isFailed_eq_true.mp hf
    rw [turns, ticked_of_failed hs, ih]
    simp [tickTurns, hf]

theorem chained_turns (s : Sequence) (ms : List Moment) : s.Chained (s.turns ms) := by
  induction ms generalizing s with
  | nil => trivial
  | cons m ms ih =>
    rw [turns]
    rcases s.ticked_sameWork m with hf | ⟨hw, hq⟩
    · rw [turns_of_failed hf, List.append_nil]
      exact s.chained_tickTurns m
    · refine (s.chained_tickTurns m).append (fun t ht he => ?_) ((ih _).of_sameWork hw)
      rw [hq t ht] at he
      cases he

end EffectMachine.Sequence
