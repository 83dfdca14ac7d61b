import EffectMachine.Proofs.Sequence.BlockDrains
import EffectMachine.Proofs.Sequence.Containment
import EffectMachine.Proofs.Sequence.Fates
import EffectMachine.Proofs.Sequence.Sections

namespace EffectMachine.Sequence

/-- What became of the effect that a turn took. What others fail with does not make it fail. -/
def DrainEvent.fate? : DrainEvent → Option Fate
  | skipped _ => some .skipped
  | ran _ => some .ran
  | halted e (.fault _) => some (if e.action.isControl then .failed else .ran)
  | halted _ .outOfFuel => some .ran
  | _ => none

def fatesOf (ts : List Turn) : List Fate := ts.filterMap (·.event.fate?)

def takenWith (ts : List Turn) : List (Effect × Int32) :=
  ts.filterMap fun t => t.event.taken?.map fun e => (e, t.loads e)

theorem takenWith_fst (ts : List Turn) : (takenWith ts).map Prod.fst = takenOf ts := by
  simp [takenWith, takenOf, List.map_filterMap, Option.map_map, Function.comp_def]

/-- What a turn makes of the effect that it takes, if it takes one: what the control stack says. -/
inductive Turn.Follows (t : Turn) (c : ControlStack) : Prop where
  | idle (none : t.event.taken? = none) (same : t.after.body.control = c)
  | skipped (e : Effect) (event : t.event = .skipped e)
      (skips : (c.isSkipping && !e.action.isBlockBoundary) = true)
      (same : t.after.body.control = c)
  | ran (e : Effect) (notices : List Notice) (taken : t.event.taken? = some e)
      (fate : t.event.fate? = some .ran)
      (skips : (c.isSkipping && !e.action.isBlockBoundary) = false)
      (done : c.apply (t.loads e) e.action = .ok (t.after.body.control, notices))
  | failed (e : Effect) (fault : Fault) (event : t.event = .halted e (.fault fault))
      (control : e.action.isControl = true)
      (skips : (c.isSkipping && !e.action.isBlockBoundary) = false)
      (done : c.apply (t.loads e) e.action = .error fault)

/-- An effect does to the control stack what it is there for, or fails. -/
theorem execute_applies {run : StopHandlers Tick} {s s' : Sequence} {e : Effect}
    {r : Surroundings} {h : Host} {next : Next} (hx : (s.execute run e r h).1 = (s', next)) :
    (∃ notices, s.body.control.apply (s.body.loads e.action r h).1 e.action =
        .ok (s'.body.control, notices) ∧ (e.action.isControl = true → next = .proceed)) ∨
      ∃ fault, s.body.control.apply (s.body.loads e.action r h).1 e.action = .error fault ∧
        next = .halt (.fault fault) ∧ e.action.isControl = true := by
  cases hc : e.action.isControl with
  | false =>
    have he := execute_control_eq run s hc r h
    rw [hx] at he
    refine .inl ⟨[], ?_, by simp⟩
    rw [ControlStack.apply_of_not_control _ _ hc, he]
  | true =>
    rw [execute_control run s hc, Tick.run_bind] at hx
    cases ha : s.body.control.apply (s.body.loads e.action r h).1 e.action with
    | error f =>
      simp only [ha] at hx
      cases hx
      exact .inr ⟨f, rfl, rfl, rfl⟩
    | ok x =>
      simp only [ha] at hx
      cases hx
      exact .inl ⟨x.2, by simp, fun _ => rfl⟩

/-- Each turn makes of its effect what the control stack says, as the turns before left it. -/
def Followed : ControlStack → List Turn → Prop
  | _, [] => True
  | c, t :: ts =>
    t.Follows c ∧ (t.event.isFault = true → ts = []) ∧ Followed t.after.body.control ts

/-- Effects that follow the control stack fare as it says. -/
theorem fatesOf_eq_of_followed {c : ControlStack} {ts : List Turn} (h : Followed c ts) :
    fatesOf ts = c.fates (takenWith ts) := by
  induction ts generalizing c with
  | nil => rfl
  | cons t ts ih =>
    obtain ⟨hf, hl, ht⟩ := h
    have ih := ih ht
    cases hf with
    | idle none same =>
      have hn : t.event.fate? = Option.none := by
        cases hv : t.event <;> first | rfl | simp [hv, DrainEvent.taken?] at none
      have hw : takenWith (t :: ts) = takenWith ts := by simp [takenWith, none]
      have hk : fatesOf (t :: ts) = fatesOf ts := by simp [fatesOf, hn]
      rw [hw, hk, ih, same]
    | skipped e event skips same =>
      have hw : takenWith (t :: ts) = (e, t.loads e) :: takenWith ts := by
        simp [takenWith, event, DrainEvent.taken?]
      have hk : fatesOf (t :: ts) = .skipped :: fatesOf ts := by
        simp [fatesOf, event, DrainEvent.fate?]
      rw [hw, hk, ControlStack.fates_of_skips skips, ih, same]
    | ran e notices taken fate skips done =>
      have hw : takenWith (t :: ts) = (e, t.loads e) :: takenWith ts := by simp [takenWith, taken]
      have hk : fatesOf (t :: ts) = .ran :: fatesOf ts := by simp [fatesOf, fate]
      rw [hw, hk, ControlStack.fates_of_ok skips done, ih]
    | failed e fault event control skips done =>
      have hw : takenWith (t :: ts) = (e, t.loads e) :: takenWith ts := by
        simp [takenWith, event, DrainEvent.taken?]
      have hk : fatesOf (t :: ts) = [.failed] := by
        rw [hl (by rw [event]; rfl)]
        simp [fatesOf, event, DrainEvent.fate?, control]
      rw [hw, hk, ControlStack.fates_of_error skips done]

section Loops

variable {run : StopHandlers Tick} {s s' : Sequence} {e : Effect} {r : Surroundings} {h : Host}
  {t : Turn}

/-- A turn in which an effect was executed, as a loop tells it by what comes next. -/
theorem follows_of_execute {next : Next} {c : ControlStack}
    (hx : (s.execute run e t.surroundings t.host).1 = (s', next)) (hn : next ≠ .hold)
    (hc : s.body.control = c) (hl : (s.body.loads e.action t.surroundings t.host).1 = t.loads e)
    (hk : (c.isSkipping && !e.action.isBlockBoundary) = false)
    (ha : t.after.body.control = s'.body.control)
    (he : t.event = match next with | .halt why => .halted e why | _ => .ran e) : t.Follows c := by
  subst hc
  rcases execute_applies hx with ⟨notices, hd, hp⟩ | ⟨fault, hd, rfl, hctl⟩
  · rw [hl, ← ha] at hd
    cases next with
    | hold => exact absurd rfl hn
    | halt why =>
      have hctl : e.action.isControl = false := by
        refine eq_false_of_ne_true fun hctl => ?_
        cases hp hctl
      refine .ran e notices (by rw [he]; rfl) ?_ hk hd
      rw [he]
      cases why <;> simp [DrainEvent.fate?, hctl]
    | _ => exact .ran e notices (by rw [he]; rfl) (by rw [he]; rfl) hk hd
  · rw [hl] at hd
    exact .failed e fault he hctl hk hd

/-- A turn makes of the effect that it takes what the control stack says. -/
theorem Turn.IsStep.follows (h : t.IsStep) (hf : t.event.foundEmpty = false) :
    t.Follows t.before.body.control := by
  have hd := h.drains
  obtain ⟨r, host, s, event, s'⟩ := t
  dsimp only at hd hf
  have charged (head : Pending) (rest : List Pending) :
      (s.takeHead head rest).body.control = s.body.control := s.body.charge_control head rest
  have loads (head : Pending) (rest : List Pending) (e : Effect) :
      ((s.takeHead head rest).body.loads e.action r host).1 = (s.body.loads e.action r host).1 := by
    rw [s.loads_takeHead]
  cases hd with
  | dry | requeued => cases hf
  | blocked => exact .idle rfl (by rw [body_mapBody]; rfl)
  | waiting head rest => exact .idle rfl (charged head rest)
  | skipped head rest _ _ skips => exact .skipped head.effect rfl skips (by rw [body_mapBody])
  | ran head rest _ _ _ skips _ done =>
    exact follows_of_execute done (by simp) (charged head rest) (loads head rest _) skips rfl rfl
  | halted head rest _ why _ _ skips _ done =>
    exact follows_of_execute done (by simp) (charged head rest) (loads head rest _) skips rfl rfl
  | spliced head rest s' effects _ _ skips _ done =>
    exact follows_of_execute done (by simp) (charged head rest) (loads head rest _) skips
      (by rw [body_mapBody]) rfl
  | held head rest s' _ _ _ _ done =>
    have hc := execute_control_eq (runStopHandlers r.fuel) (s.takeHead head rest)
      (control_of_execute_hold (by rw [done])) r host
    rw [done] at hc
    refine .idle rfl ?_
    rw [body_mapBody]
    exact hc.trans (charged head rest)

theorem followed_of_chained {ts : List Turn} (hs : s.Chained ts)
    (hf : ∀ t ∈ ts, t.event.foundEmpty = false) : Followed s.body.control ts := by
  induction ts generalizing s with
  | nil => trivial
  | cons t ts ih =>
    obtain ⟨hw, ht, hl, hc⟩ := hs
    rw [List.forall_mem_cons] at hf
    refine ⟨?_, hl, ih hc hf.2⟩
    rw [← hw.control]
    exact ht.follows hf.1

/-- The effects of handlers follow the control stack from turn to turn. -/
theorem followed_handlerTurns (run : StopHandlers Tick) (n : Nat) (es : List Effect) (s : Sequence)
    (r : Surroundings) (h : Host) : Followed s.body.control (handlerTurns run n es s r h) := by
  induction n generalizing es s h with
  | zero => trivial
  | succ n ih =>
    cases es with
    | nil => trivial
    | cons e es =>
      rw [handlerTurns]
      cases hk : s.skips e with
      | true => exact ⟨.skipped e rfl hk rfl, (fun hf => by cases hf), ih es s h⟩
      | false =>
        rw [if_neg Bool.false_ne_true]
        dsimp only
        generalize hx : s.execute run e r h = x
        obtain ⟨⟨s', next⟩, h'⟩ := x
        have hx : (s.execute run e r h).1 = (s', next) := by rw [hx]
        cases next with
        | proceed =>
          exact ⟨follows_of_execute hx (by simp) rfl rfl hk rfl rfl, (fun hf => by cases hf),
            ih es s' h'⟩
        | splice effects =>
          exact ⟨follows_of_execute hx (by simp) rfl rfl hk rfl rfl, (fun hf => by cases hf),
            ih (effects ++ es) s' h'⟩
        | hold =>
          have hc := execute_control_eq run s (control_of_execute_hold (by rw [hx])) r h
          rw [hx] at hc
          exact ⟨.idle rfl hc, fun _ => rfl, trivial⟩
        | halt why =>
          exact ⟨follows_of_execute hx (by simp) rfl rfl hk rfl rfl, fun _ => rfl, trivial⟩

end Loops

/-- The effects that some turns took fared as they would from an empty stack. -/
def FaresAfresh (routine : ResourceId) (ts : List Turn) : Prop :=
  fatesOf ts = (ControlStack.empty routine).fates (takenWith ts)

/-- Turns that take up what a turn queued when it found the queue empty. -/
structure IsSection (ts : List Turn) (t : Turn) (us : List Turn) : Prop where
  within : ∃ i, ts[i]? = some t ∧ us <+: ts.drop (i + 1)
  start : t.event.foundEmpty = true
  stays : ∀ u ∈ us, u.event.foundEmpty = false

section Sections

variable {s : Sequence} {ts us : List Turn} {t : Turn}

theorem Chained.of_getElem? {i : Nat} (h : s.Chained ts) (hi : ts[i]? = some t) :
    t.IsStep ∧ t.after.Chained (ts.drop (i + 1)) := by
  induction ts generalizing s i with
  | nil => cases hi
  | cons u ts ih =>
    obtain ⟨_, hs, _, hc⟩ := h
    cases i with
    | zero =>
      obtain rfl : u = t := by simpa using hi
      exact ⟨hs, hc⟩
    | succ i => exact ih hc (by simpa using hi)

theorem Turn.IsStep.control_of_foundEmpty (h : t.IsStep) (hf : t.event.foundEmpty = true) :
    t.after.body.control =
      if t.refills then t.before.body.control.clear else t.before.body.control := by
  obtain ⟨_, hq⟩ := h.requeues hf
  cases hr : t.refills with
  | true => exact (h.of_refills hr).2.2.2
  | false =>
    refine hq.control_eq ?_
    cases hb : t.before.body.refilled with
    | true => exact h.refilled hb
    | false => simpa [Turn.refills, hb] using hr

/-- A section begins with an empty stack if it is a copy of the main list, and else fares as if it
did exactly when the frames left open are out of its sight. -/
theorem faresAfresh_iff (hs : s.Chained ts) (hu : IsSection ts t us) :
    FaresAfresh t.before.body.control.routine us ↔
      t.refills = true ∨ t.before.body.control.isOutOfSight (takenOf us) = true := by
  obtain ⟨i, hi, hp⟩ := hu.within
  obtain ⟨ht, hc⟩ := hs.of_getElem? hi
  have hf := fatesOf_eq_of_followed (followed_of_chained (hc.of_initial hp) hu.stays)
  rw [ht.control_of_foundEmpty hu.start] at hf
  rw [FaresAfresh, hf, ← takenWith_fst, ← ControlStack.fates_eq_clear_iff]
  cases t.refills with
  | true => exact iff_of_true rfl (.inl rfl)
  | false => simp only [Bool.false_eq_true, if_false, false_or]; rfl

theorem stopTurns_faresAfresh (depth : Nat) (s : Sequence) (r : Surroundings) (h : Host) :
    FaresAfresh s.body.control.routine (s.stopTurns depth r h) := by
  cases depth with
  | zero => rfl
  | succ depth =>
    rw [stopTurns]
    split
    · rfl
    · have hf := followed_handlerTurns (runStopHandlers depth) r.fuel s.body.routine.onStop
        (mk s.body.halted (stopAllWith (runStopHandlers (depth + 1)) s.children r h).1.1) r
        (stopAllWith (runStopHandlers (depth + 1)) s.children r h).2
      exact fatesOf_eq_of_followed hf

/-- A stop does the same whatever was left open. -/
theorem stopWith_withControl (run : StopHandlers Tick) (hs : s.body.isEnded = false)
    {c : ControlStack} (hc : c.routine = s.body.control.routine) :
    (s.withControl c).stopWith run = s.stopWith run := by
  obtain ⟨body, children⟩ := s
  have hh : (body.withControl c).halted = body.halted := by
    simp only [SequenceBody.halted, SequenceBody.withControl, ControlStack.clear, hc, body_mk]
  rw [stopWith_of_live run hs, stopWith_of_live run (s := (mk body children).withControl c) hs]
  simp only [withControl, mapBody, body_mk, children_mk, hh]

end Sections

/-- The stop handlers of a routine and every copy of its main list after the first run as from an
empty control stack. Its completion handlers do so exactly when the frames that the effects before
them left open are out of their sight. -/
theorem sections_fare_afresh_iff (s : Sequence) :
    (∀ depth r h, FaresAfresh s.body.control.routine (s.stopTurns depth r h) ∧
      ∀ c : ControlStack, c.routine = s.body.control.routine → s.body.isEnded = false →
        (s.withControl c).stopWith (runStopHandlers depth) r h =
          s.stopWith (runStopHandlers depth) r h) ∧
    ∀ ms t us, IsSection (s.turns ms) t us →
      (FaresAfresh t.before.body.control.routine us ↔
        t.refills = true ∨ t.before.body.control.isOutOfSight (takenOf us) = true) := by
  refine ⟨fun depth r h => ⟨stopTurns_faresAfresh depth s r h, fun c hc hs => ?_⟩, fun ms t us hu =>
    faresAfresh_iff (s.chained_turns ms) hu⟩
  rw [stopWith_withControl (runStopHandlers depth) hs hc]

/-- A looping sequence whose main list leaves a block open that skips. -/
def leftOpen (onComplete : List Effect) : Sequence :=
  ofLists 0 [⟨0, 0, .loopRoutine⟩, ⟨0, 0, .beginBlock⟩, ⟨0, 0, .condition 0 (.constant 1)⟩,
    ⟨0, 0, .branch true⟩] onComplete [⟨0, 0, .screenFlash Color.white⟩] []

/-- Completion handlers that are no more than a block do not see it. -/
theorem leftOpen_block_fares_afresh :
    let ts := (leftOpen [⟨0, 0, .beginBlock⟩, ⟨0, 0, .endBlock⟩]).turns [.bare]
    ∃ t us, IsSection ts t us ∧ t.completes = true ∧ us.length = 2 ∧
      FaresAfresh t.before.body.control.routine us := by
  intro ts
  have hu : IsSection ts (ts.get ⟨4, by decide +kernel⟩) ((ts.drop 5).take 2) :=
    ⟨⟨4, List.getElem?_eq_getElem _, List.take_prefix 2 _⟩, by decide +kernel, by decide +kernel⟩
  exact ⟨_, _, hu, by decide +kernel, by decide +kernel,
    ((sections_fare_afresh_iff _).2 _ _ _ hu).mpr (.inr (by decide +kernel))⟩

/-- Any other effect among them is passed over, which would run from an empty stack. -/
theorem leftOpen_flash_skipped :
    let ts := (leftOpen [⟨0, 0, .screenFlash Color.white⟩]).turns [.bare]
    ∃ t us, IsSection ts t us ∧ t.completes = true ∧
      takenOf us = [⟨0, 0, .screenFlash Color.white⟩] ∧ fatesOf us = [.skipped] ∧
      (ControlStack.empty t.before.body.control.routine).fates (takenWith us) = [.ran] := by
  intro ts
  have hu : IsSection ts (ts.get ⟨4, by decide +kernel⟩) ((ts.drop 5).take 1) :=
    ⟨⟨4, List.getElem?_eq_getElem _, List.take_prefix 1 _⟩, by decide +kernel, by decide +kernel⟩
  exact ⟨_, _, hu, by decide +kernel, by decide +kernel, by decide +kernel, by decide +kernel⟩

end EffectMachine.Sequence
