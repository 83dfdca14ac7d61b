import EffectMachine.Proofs.Sequence.Budgets

namespace EffectMachine

namespace SequenceBody

def withRate (s : SequenceBody) (playbackRate : Scalar) : SequenceBody := { s with playbackRate }

/-- With another rate an effect does the same, and leaves another rate at most. -/
theorem perform_withRate (s : SequenceBody) (q : Scalar) (e : Effect) (r : Surroundings)
    (h : Host) : ∃ q', (s.withRate q).perform e r h =
      (((s.perform e r h).1.1.withRate q', (s.perform e r h).1.2), (s.perform e r h).2) := by
  cases hc : e.action.isControl with
  | true =>
    refine ⟨q, ?_⟩
    have hl : (s.withRate q).loads e.action = s.loads e.action := by cases e.action <;> rfl
    rw [perform_control _ hc, perform_control _ hc, hl]
    simp only [Tick.run_bind]
    rw [show (s.withRate q).control = s.control from rfl]
    cases s.control.apply (s.loads e.action r h).1 e.action <;> rfl
  | false =>
    by_cases hp : ∃ rate, e.action = .playbackRate rate
    · obtain ⟨rate, ha⟩ := hp
      obtain ⟨delay, duration, action⟩ := e
      cases ha
      exact ⟨rate.max 0, rfl⟩
    · have hq := s.perform_retuned (fun c => c) (fun _ => q) (fun w => w) (fun f => f) e hc
        (fun rate ha => absurd ⟨rate, ha⟩ hp) fun _ _ _ => rfl
      exact ⟨q, congrFun (congrFun hq r) h⟩

theorem requeued_withRate (s : SequenceBody) (q : Scalar) :
    (s.withRate q).requeued = (s.requeued.1.withRate q, s.requeued.2) := by
  by_cases hc : (!s.completionRan && !s.routine.onComplete.isEmpty) = true
  · simp only [requeued, withRate, hc, if_true]
    rfl
  · by_cases hl : (s.looping && !s.stopped && !s.refilled) = true
    · simp only [requeued, withRate, hc, hl, if_true]
      rfl
    · simp only [requeued, withRate, hc, hl]
      rfl

theorem charge_withRate (s : SequenceBody) (q : Scalar) (head : Pending) (rest : List Pending) :
    (s.withRate q).charge head rest = (s.charge head rest).withRate q := by
  unfold charge
  split <;> rfl

end SequenceBody

namespace Sequence

def withRate (s : Sequence) (q : Scalar) : Sequence := s.mapBody (·.withRate q)

/-- With another rate all is done as before, and another rate is left at most. -/
def IgnoresRate {β : Type} (f : Sequence → Tick (Sequence × β)) : Prop :=
  ∀ s q r h, ∃ q', f (s.withRate q) r h =
    (((f s r h).1.1.withRate q', (f s r h).1.2), (f s r h).2)

variable {β γ : Type} {run : StopHandlers Tick}

theorem IgnoresRate.bind {f : Sequence → Tick (Sequence × β)}
    {g : Sequence × β → Tick (Sequence × γ)} (hf : IgnoresRate f)
    (hg : ∀ b, IgnoresRate fun s => g (s, b)) : IgnoresRate fun s => f s >>= g := by
  intro s q r h
  obtain ⟨q', hq⟩ := hf s q r h
  obtain ⟨q'', hq'⟩ := hg (f s r h).1.2 (f s r h).1.1 q' r (f s r h).2
  refine ⟨q'', ?_⟩
  simp only [Tick.run_bind, hq]
  exact hq'

theorem IgnoresRate.pure {f : Sequence → Sequence} (b : β)
    (hf : ∀ s q, f (s.withRate q) = (f s).withRate q) :
    IgnoresRate fun s => (Pure.pure (f s, b) : Tick (Sequence × β)) := by
  intro s q r h
  exact ⟨q, by simp only [Tick.run_pure, hf]⟩

theorem execute_ignoresRate (run : StopHandlers Tick) (e : Effect) :
    IgnoresRate fun s => s.execute run e := by
  intro s q r h
  cases s with
  | mk body children =>
    obtain ⟨q', hq⟩ := body.perform_withRate q e r h
    refine ⟨q', ?_⟩
    simp only [execute, withRate, mapBody, body_mk, children_mk, Tick.run_bind, hq]
    generalize body.perform e r h = x
    obtain ⟨⟨body', flow⟩, h'⟩ := x
    cases flow <;> rfl

theorem concluded_ignoresRate (e : Effect) (x : Sequence × Next) (q : Scalar) :
    concluded e (x.1.withRate q, x.2) = ((concluded e x).1.withRate q, (concluded e x).2) := by
  obtain ⟨⟨body, children⟩, next⟩ := x
  cases next <;> rfl

/-- No turn of the draining loop looks at the rate. -/
theorem drainStep_ignoresRate (run : StopHandlers Tick) :
    IgnoresRate fun s => s.drainStep run := by
  intro s q r h
  cases s with
  | mk body children =>
    change ∃ q', (mk (body.withRate q) children).drainStep run r h =
      ((((mk body children).drainStep run r h).1.1.withRate q',
        ((mk body children).drainStep run r h).1.2), ((mk body children).drainStep run r h).2)
    by_cases hb : body.blockers = []
    case neg =>
      rw [(mk (body.withRate q) children).drainStep_of_blocked run hb,
        (mk body children).drainStep_of_blocked run hb]
      exact ⟨q, rfl⟩
    cases hq : body.queue with
    | nil =>
      rw [(mk (body.withRate q) children).drainStep_of_empty run hb hq,
        (mk body children).drainStep_of_empty run hb hq]
      refine ⟨q, ?_⟩
      simp only [body_mk, children_mk, body.requeued_withRate q]
      rfl
    | cons head rest =>
      cases hs : (mk body children).skips head.effect with
      | true =>
        rw [(mk (body.withRate q) children).drainStep_of_skips run hb hq hs,
          (mk body children).drainStep_of_skips run hb hq hs]
        exact ⟨q, rfl⟩
      | false =>
        by_cases hn : (body.charge head rest).budget < 0
        · have hn' : ((body.withRate q).charge head rest).budget < 0 := by
            rw [body.charge_withRate q]
            exact hn
          rw [(mk (body.withRate q) children).drainStep_of_unpaid run hb hq hs hn',
            (mk body children).drainStep_of_unpaid run hb hq hs hn]
          refine ⟨q, ?_⟩
          simp only [body_mk, children_mk, body.charge_withRate q]
          rfl
        · have hn' : ¬((body.withRate q).charge head rest).budget < 0 := by
            rw [body.charge_withRate q]
            exact hn
          rw [(mk (body.withRate q) children).drainStep_of_paid run hb hq hs hn',
            (mk body children).drainStep_of_paid run hb hq hs hn]
          have ht : (mk (body.withRate q) children).takeHead head rest =
              ((mk body children).takeHead head rest).withRate q := by
            simp only [takeHead, body_mk, children_mk, body.charge_withRate q]
            rfl
          rw [ht]
          obtain ⟨q', hq'⟩ := execute_ignoresRate run head.effect
            ((mk body children).takeHead head rest) q r h
          refine ⟨q', ?_⟩
          simp only [Tick.run_map, hq']
          rw [concluded_ignoresRate]

/-- By induction on the fuel. -/
theorem drain_ignoresRate (run : StopHandlers Tick) (n : Nat) :
    IgnoresRate fun s => s.drain run n := by
  induction n with
  | zero => exact .pure _ fun _ _ => rfl
  | succ n ih =>
    intro s q r h
    obtain ⟨q', hq⟩ := drainStep_ignoresRate run s q r h
    dsimp only at hq ⊢
    rw [drain_succ, drain_succ, hq]
    split
    · exact ih _ q' r _
    · exact ⟨q', rfl⟩

theorem advanceOwned_ignoresRate (elapsed : Scalar) :
    IgnoresRate fun s => s.advanceOwned elapsed := by
  intro s q r h
  refine ⟨q, ?_⟩
  cases s with
  | mk body children =>
    simp only [advanceOwned, withRate, mapBody, body_mk, children_mk, Tick.run_bind,
      SequenceBody.withRate]
    split <;> rfl

theorem settle_ignoresRate (halt : Option Halt) : IgnoresRate fun s => s.settle halt := by
  intro s q r h
  refine ⟨q, ?_⟩
  cases s with
  | mk body children =>
    match halt with
    | none => rfl
    | some .outOfFuel => rfl
    | some (.fault f) => rfl

def spend (run : StopHandlers Tick) (n : Nat) (elapsed : Scalar) (s : Sequence) :
    Tick (Sequence × Option Halt) := do
  let (s, halt) ← s.drain run n
  if halt.isSome then s.settle halt
  else
    let (s, halt) ← s.advanceOwned elapsed
    s.settle halt

theorem advanceSelf_eq (s : Sequence) (elapsed : Scalar) :
    s.advanceSelf elapsed = read >>= fun r =>
      (s.dropEnded.earn elapsed).spend (runStopHandlers r.fuel) r.fuel elapsed := rfl

theorem spend_ignoresRate (run : StopHandlers Tick) (n : Nat) (elapsed : Scalar) :
    IgnoresRate (spend run n elapsed) := by
  unfold spend
  refine (drain_ignoresRate run n).bind fun halt => ?_
  cases halt with
  | some why => exact settle_ignoresRate _
  | none => exact (advanceOwned_ignoresRate elapsed).bind fun halt => settle_ignoresRate halt

/-- What a `PlaybackRate` effect does. -/
theorem execute_playbackRate (run : StopHandlers Tick) (s : Sequence) (delay duration : UInt16)
    (rate : Scalar) : s.execute run ⟨delay, duration, .playbackRate rate⟩ =
      pure (s.withRate (rate.max 0), .proceed) := by
  cases s
  rfl

def withFrames (s : Sequence) (budget playbackRate : Scalar) : Sequence :=
  s.mapBody fun body => { body with budget, playbackRate }

/-- To a tick that moves the sequence, the rate is nothing but what it earns. -/
theorem ticked_withFrames {s : Sequence} {m : Moment} (hf : s.isFailed = false)
    (hr : (s.ticked m).1.2 ≠ some .outOfFuel) {b q : Scalar}
    (he : b + m.elapsed * q = s.earned m) :
    ∃ q', (s.withFrames b q).ticked m =
      (((s.ticked m).1.1.withRate q', (s.ticked m).1.2), (s.ticked m).2) := by
  have hc := movedChildren_none hf hr
  cases s with
  | mk body children =>
    have hready : ((mk { body with budget := b, playbackRate := q, refilled := false }
        ((mk body children).movedChildren m).1.1).dropEnded).earn m.elapsed =
        ((mk body children).ready m).withRate q := by
      simp only [ready, earn, dropEnded, withRate, mapBody, body_mk, children_mk, he, earned,
        SequenceBody.withRate]
    have hs : ((mk body children).ticked m) = ((mk body children).ready m).spend
        (runStopHandlers m.surroundings.fuel) m.surroundings.fuel m.elapsed m.surroundings
        ((mk body children).movedChildren m).2 := by
      rw [ticked_of_children hf hc, advanceSelf_eq]
      rfl
    have hs' : (((mk body children).withFrames b q).ticked m) =
        (((mk body children).ready m).withRate q).spend
        (runStopHandlers m.surroundings.fuel) m.surroundings.fuel m.elapsed m.surroundings
        ((mk body children).movedChildren m).2 := by
      have hf' : ((mk body children).withFrames b q).isFailed = false := hf
      rw [ticked_of_children hf' hc, advanceSelf_eq, ← hready]
      rfl
    rw [hs, hs']
    exact spend_ignoresRate _ _ _ _ _ _ _

/-- A `PlaybackRate` effect sets the rate and nothing else; what is left of a tick does the same
with any rate; and in the ticks after it the rate is nothing but what it earns. -/
structure PacesLater (s : Sequence) : Prop where
  sets : ∀ run delay duration rate, s.execute run ⟨delay, duration, .playbackRate rate⟩ =
    pure (s.withRate (rate.max 0), .proceed)
  unread : ∀ run n elapsed q r h, ∃ q', (s.withRate q).spend run n elapsed r h =
    (((s.spend run n elapsed r h).1.1.withRate q', (s.spend run n elapsed r h).1.2),
      (s.spend run n elapsed r h).2)
  earns : ∀ m b q, s.isFailed = false → (s.ticked m).1.2 ≠ some .outOfFuel →
    b + m.elapsed * q = s.earned m → ∃ q', (s.withFrames b q).ticked m =
      (((s.ticked m).1.1.withRate q', (s.ticked m).1.2), (s.ticked m).2)

theorem pacesLater (s : Sequence) : s.PacesLater where
  sets run := execute_playbackRate run s
  unread run n elapsed := spend_ignoresRate run n elapsed s
  earns _ _ _ hf hr he := ticked_withFrames hf hr he

end Sequence
end EffectMachine
