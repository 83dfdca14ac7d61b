import EffectMachine.Proofs.Particle.Endings
import EffectMachine.Proofs.Track

namespace EffectMachine

namespace Emitter

variable {e : Emitter} {t : EmitterTick}

/-- A tick of an emitter that was told to stop moves its particles, and makes none. -/
theorem ticked_of_stopRequested (hs : e.body.stopRequested = true) :
    ∃ b, e.body.Keeps b ∧ (e.ticked t).1.1 =
      mk b (if (e.movedParticles t).1.2.isSome then (e.movedParticles t).1.1
        else (e.movedParticles t).1.1.filter fun p => !p.isComplete) := by
  have hk := e.prepared_keeps t
  rw [ticked_eq]
  split
  next hm => exact ⟨_, hk, rfl⟩
  next hm =>
    have hd : (e.prepared t).1.doneEmitting = true := by
      rw [EmitterBody.doneEmitting, hk.stopRequested, hs, Bool.true_or]
    refine ⟨{ (e.prepared t).1 with countdown := (e.prepared t).1.countdown - t.elapsed },
      ⟨hk.definition, hk.stopRequested, hk.emitted⟩, ?_⟩
    rw [finish]
    dsimp only
    rw [hd, Bool.not_true, Bool.and_false, if_neg Bool.false_ne_true]
    rfl

/-- Each particle that such an emitter owns after a tick is one that it owned before. -/
theorem exists_particleStands (hs : e.body.stopRequested = true) {j : Nat}
    (hj : j < (e.ticked t).1.1.particles.length) :
    ∃ i < e.particles.length, e.particleStands? t i = some j := by
  have hl : (e.movedParticles t).1.1.length = e.particles.length := by
    rw [movedParticles, advanceParticles_eq]
    exact length_inTurn _ _ _
  obtain ⟨b, -, hx⟩ := ticked_of_stopRequested (t := t) hs
  rw [hx, particles_mk] at hj
  simp only [particleStands?]
  split at hj
  next hm => exact ⟨j, hl ▸ hj, if_pos hm⟩
  next hm =>
    obtain ⟨i, hi, hstands⟩ := exists_standing (List.getElem?_eq_getElem hj)
    exact ⟨i, hl ▸ (List.getElem?_eq_some_iff.mp hi).1, by rw [if_neg hm]; exact hstands⟩

/-- What has become of an emitter that was told to stop, with a way that leads from old places to
new ones: it has made no particle, and owns none but those that it owned. -/
structure Dwindles (x x' : Emitter) (a a' : Place) (lead : Place → Option Place) : Prop where
  stopRequested : x'.body.stopRequested = true
  emitted : x'.body.emitted = x.body.emitted
  owned : ∀ j < x'.particles.length, ∃ i < x.particles.length,
    lead (a ++ [⟨.particle, i⟩]) = some (a' ++ [⟨.particle, j⟩])

/-- Where a place of the tree leads, whatever happens to the emitter at the top. -/
def trackAfter : Emitter → List Happening → Place → Option Place
  | _, [], a => some a
  | e, .tick t :: hs, a =>
    (Node.track a (.emitter e) (.emitter t)).bind fun a' => (e.ticked t).1.1.trackAfter hs a'
  | e, .stop :: hs, a => e.stop.trackAfter hs a

/-- The emitter at a place was told to stop, and from now on it makes no particle, however long the
tree lives. -/
structure SilentAt (e : Emitter) (a : Place) (x : Emitter) : Prop where
  /-- As long as it is there it is done emitting, has made as many particles as now, and owns none but
  those that it owns now. -/
  stays : ∀ hs a', e.trackAfter hs a = some a' →
    ∃ x', (Node.emitter (e.after hs)).at? a' = some (.emitter x') ∧ x'.doneEmitting = true ∧
      x.Dwindles x' a a' (e.trackAfter hs)
  /-- It goes in a tick that leaves it with nothing, and that has made nothing either. -/
  goes : ∀ hs a' t, e.trackAfter hs a = some a' →
    Node.track a' (.emitter (e.after hs)) (.emitter t) = none →
    ∃ x' u, Node.turnAt? a' (.emitter (e.after hs)) (.emitter t) = some (.emitter x', .emitter u) ∧
      (x'.ticked u).1.1.isExpired = true ∧ (x'.ticked u).1.1.body.emitted = x.body.emitted

variable {x y z z' : Emitter} {a a' b b' : Place} {lead lead' : Place → Option Place}

/-- An emitter that stands still has made no particle. -/
theorem dwindles_refl (hs : x.body.stopRequested = true)
    (hl : ∀ i, lead (a ++ [⟨.particle, i⟩]) = some (a' ++ [⟨.particle, i⟩])) :
    x.Dwindles x a a' lead :=
  ⟨hs, rfl, fun j hj => ⟨j, hj, hl j⟩⟩

/-- What dwindles twice dwindles along the way that leads from the first places to the last. -/
theorem Dwindles.trans (h : x.Dwindles y a b lead) (h' : y.Dwindles z b a' lead') :
    x.Dwindles z a a' fun a => (lead a).bind lead' where
  stopRequested := h'.stopRequested
  emitted := h'.emitted.trans h.emitted
  owned j hj := by
    obtain ⟨k, hk, hkj⟩ := h'.owned j hj
    obtain ⟨i, hi, hik⟩ := h.owned k hk
    exact ⟨i, hi, by rw [hik, Option.bind_some, hkj]⟩

/-- Being told to stop again changes nothing. -/
theorem Dwindles.remains (h : y.Dwindles z a a' lead) (hy : y = x ∨ y = x.stop)
    (hz : z' = z ∨ z' = z.stop)
    (hl : ∀ i j, lead (a ++ [⟨.particle, i⟩]) = some (a' ++ [⟨.particle, j⟩]) →
      lead' (b ++ [⟨.particle, i⟩]) = some (b' ++ [⟨.particle, j⟩])) : x.Dwindles z' b b' lead' where
  stopRequested := by
    rcases hz with rfl | rfl
    · exact h.stopRequested
    · rw [body_stop]
  emitted := by
    rcases hy with rfl | rfl <;> rcases hz with rfl | rfl <;> simpa using h.emitted
  owned j hj := by
    have hj : j < z.particles.length := by
      rcases hz with rfl | rfl
      · exact hj
      · rwa [particles_stop, List.length_map] at hj
    obtain ⟨i, hi, hij⟩ := h.owned j hj
    refine ⟨i, ?_, hl i j hij⟩
    rcases hy with rfl | rfl
    · exact hi
    · rwa [particles_stop, List.length_map] at hi

end Emitter

namespace Node

/-- By induction on the place: an emitter that was told to stop makes nothing in a tick. -/
theorem track_dwindles {n : Node} {τ : NodeTick} {a a' : Place} {x : Emitter}
    (hx : n.at? a = some (.emitter x)) (hs : x.body.stopRequested = true)
    (ha : track a n τ = some a') :
    ∃ x', (n.ticked τ).at? a' = some (.emitter x') ∧
      x.Dwindles x' a a' fun a => track a n τ := by
  induction a generalizing n τ a' x with
  | nil =>
    cases ha
    cases hx
    cases τ with
    | emitter t =>
      obtain ⟨b, hk, hb⟩ := Emitter.ticked_of_stopRequested (t := t) hs
      refine ⟨_, rfl, ?_, ?_, fun j hj => ?_⟩
      · rw [hb]
        exact hk.stopRequested.trans hs
      · rw [hb]
        exact hk.emitted
      · obtain ⟨i, hi, hij⟩ := Emitter.exists_particleStands hs hj
        refine ⟨i, hi, ?_⟩
        have hj : (emitter x).stands? (.emitter t) ⟨.particle, i⟩ = some j := hij
        rw [List.nil_append, List.nil_append, track, hj]
        cases (emitter x).turn? (.emitter t) ⟨.particle, i⟩ <;> rfl
    | _ =>
      refine ⟨x, rfl, Emitter.dwindles_refl hs fun i => ?_⟩
      simp [track, stands?, turn?]
  | cons b a ih =>
    obtain ⟨e, he, hx⟩ := Option.bind_eq_some_iff.mp hx
    obtain ⟨j, a₁, e', rfl, hj, he', hstep⟩ := exists_of_track_cons he ha
    rw [at?_cons, he', Option.bind_some]
    rcases hstep with ⟨ht, rfl, hl⟩ | ⟨u, ht, hu, ha, hl⟩
    · obtain ⟨c, hc, hr⟩ := hl a₁ _ hx
      obtain ⟨y, rfl, hy⟩ := hr.emitter
      have still : x.Dwindles x (b :: a₁) (⟨b.kind, j⟩ :: a₁) fun a => track a n τ := by
        refine Emitter.dwindles_refl hs fun i => ?_
        rw [List.cons_append, track, hj, ht]
        rfl
      exact ⟨y, hc, still.remains (.inl rfl) hy fun i j h => h⟩
    · obtain ⟨c, hc, hr⟩ := hu a _ hx
      obtain ⟨y, rfl, hy⟩ := hr.emitter
      have hys : y.body.stopRequested = true := by
        rcases hy with rfl | rfl
        · exact hs
        · rw [Emitter.body_stop]
      obtain ⟨z, hz, hd⟩ := ih hc hys ha
      obtain ⟨c', hc', hr'⟩ := hl a₁ _ hz
      obtain ⟨z', rfl, hz'⟩ := hr'.emitter
      refine ⟨z', hc', hd.remains hy hz' fun i j h => ?_⟩
      rw [List.cons_append, track, hj, ht]
      simp only [Option.bind_some]
      rw [h]
      rfl

end Node

namespace Emitter

variable {e x : Emitter} {a : Place}

theorem at?_stop (hx : (Node.emitter e).at? a = some (.emitter x)) :
    (Node.emitter e.stop).at? a = some (.emitter x.stop) := by
  rw [show Node.emitter e.stop = (Node.emitter e).hushed from rfl, Node.at?_hushed rfl, hx]
  rfl

/-- By induction on what happens to the tree. -/
theorem dwindles_after (hx : (Node.emitter e).at? a = some (.emitter x))
    (hs : x.body.stopRequested = true) (hs' : List Happening) {a' : Place}
    (ha : e.trackAfter hs' a = some a') :
    ∃ x', (Node.emitter (e.after hs')).at? a' = some (.emitter x') ∧
      x.Dwindles x' a a' (e.trackAfter hs') := by
  induction hs' generalizing e a x with
  | nil =>
    cases ha
    exact ⟨x, hx, dwindles_refl hs fun i => rfl⟩
  | cons y hs' ih =>
    cases y with
    | tick t =>
      obtain ⟨a₁, h₁, ha⟩ := Option.bind_eq_some_iff.mp ha
      obtain ⟨x₁, hx₁, hd₁⟩ := Node.track_dwindles (τ := .emitter t) hx hs h₁
      obtain ⟨x', hx', hd⟩ := ih hx₁ hd₁.stopRequested ha
      exact ⟨x', hx', hd₁.trans hd⟩
    | stop =>
      obtain ⟨x', hx', hd⟩ := ih (at?_stop hx) (by rw [body_stop]) ha
      exact ⟨x', hx', hd.remains (.inr rfl) (.inl rfl) fun i j h => h⟩

/-- An emitter that was told to stop stays silent, wherever it stands and however long the tree
lives. -/
theorem silentAt (hx : (Node.emitter e).at? a = some (.emitter x))
    (hs : x.body.stopRequested = true) : e.SilentAt a x where
  stays hs' a' ha := by
    obtain ⟨x', hx', hd⟩ := dwindles_after hx hs hs' ha
    refine ⟨x', hx', ?_, hd⟩
    rw [doneEmitting, EmitterBody.doneEmitting, hd.stopRequested, Bool.true_or]
  goes hs' a' t ha hn := by
    obtain ⟨x', hx', hd⟩ := dwindles_after hx hs hs' ha
    obtain ⟨τ, hτ, ho⟩ := Node.turnAt?_of_track_none rfl hx' hn
    have root : (Node.emitter (e.after hs')).Suits (.emitter t) := trivial
    have suits := Node.suits_of_turnAt? root hτ
    cases τ with
    | emitter u =>
      obtain ⟨b, hk, hb⟩ := ticked_of_stopRequested (t := u) hd.stopRequested
      refine ⟨x', u, hτ, ho, ?_⟩
      rw [hb, body_mk, hk.emitted, hd.emitted]
    | _ => exact False.elim suits

end Emitter

namespace Particle

variable {g : Generator} {p q : Particle} {t : ParticleTick}

/-- Do the handlers of a particle have their turn in a tick? Once all that it owns has moved and the
particle has grown older, it has expired, and its handlers have not had their turn before. -/
def expires (g : Generator) (p : Particle) (t : ParticleTick) : Bool :=
  p.ownedMoved g t && !p.body.carrier && (p.grown g t).1.isExpired &&
    !(p.grown g t).1.body.expirationHandled

/-- Places are not moved by emitters that come behind. -/
theorem at?_of_added {new : List Emitter} (hc : q.children = p.children)
    (he : q.emitters = p.emitters ++ new) {b : Branch} {a : Place} {n : Node}
    (hn : (Node.particle p).at? (b :: a) = some n) : (Node.particle q).at? (b :: a) = some n := by
  obtain ⟨d, hd, hn⟩ := Option.bind_eq_some_iff.mp hn
  suffices h : ((Node.particle q).owned b.kind)[b.index]? = some d by
    rw [Node.at?_cons, h]
    exact hn
  obtain ⟨k, i⟩ := b
  cases k with
  | particle => exact (congrArg (fun cs => (cs.map Node.particle)[i]?) hc).trans hd
  | emitter =>
    have hd : (p.emitters.map Node.emitter)[i]? = some d := hd
    have hi := (List.getElem?_eq_some_iff.mp hd).1
    change (q.emitters.map Node.emitter)[i]? = some d
    rw [he, List.map_append, List.getElem?_append_left hi, hd]
  | sequence => cases hd

/-- Right before the handlers of a particle run, all emitters below it are told to stop. -/
theorem at?_of_expires (hx : p.expires g t = true) {a : Place} {e : Emitter}
    (he : (Node.particle (p.grown g t).1).at? a = some (.emitter e)) :
    (Node.particle (p.ticked g t).1.1).at? a = some (.emitter e.stop) := by
  simp only [expires, Bool.and_eq_true, Bool.not_eq_true'] at hx
  obtain ⟨⟨⟨ho, hc⟩, hd⟩, hh⟩ := hx
  rw [ticked_of_single ho hc, endTick, hd, hh]
  obtain ⟨hcs, new, hes⟩ := expire_owned (t.scope g) (p.grown g t).1.stopEmitters
    t.surroundings (p.grown g t).2
  cases a with
  | nil => cases he
  | cons b a =>
    refine at?_of_added hcs hes ?_
    rw [show Node.particle (p.grown g t).1.stopEmitters = (Node.particle (p.grown g t).1).hushed
      from rfl, Node.at?_hushed rfl, he]
    rfl

theorem expirationHandled_grown (g : Generator) (p : Particle) (t : ParticleTick) :
    (p.grown g t).1.body.expirationHandled = p.body.expirationHandled := by
  rw [grown]
  split
  · rfl
  · exact (((p.settled g t).hearing _).body.grow_passed g t.elapsed t.anchor _ _).expirationHandled

/-- A particle that a tick leaves expired has had its handlers in that tick or before, unless it had
expired already and a fault cut the tick short. -/
theorem expires_of_isExpired (hc : p.body.carrier = false)
    (hx : (p.ticked g t).1.1.isExpired = true) :
    p.expires g t = true ∨ p.body.expirationHandled = true ∨
      p.isExpired = true ∧ (p.ticked g t).1.2.isSome = true := by
  cases ho : p.ownedMoved g t with
  | false =>
    obtain ⟨hb, -, hn⟩ := ticked_of_not_ownedMoved ho
    refine .inr (.inr ⟨?_, Option.isSome_iff_ne_none.mpr hn⟩)
    rw [isExpired, hb, hc] at hx
    rw [isExpired, hc]
    exact hx
  | true =>
    cases hg : (p.grown g t).1.body.expirationHandled with
    | true => exact .inr (.inl (expirationHandled_grown g p t ▸ hg))
    | false =>
      refine .inl ?_
      cases hd : (p.grown g t).1.isExpired with
      | true => rw [expires, ho, hc, hd, hg]; rfl
      | false =>
        rw [ticked_of_single ho hc, endTick, hd, Bool.false_and, if_neg Bool.false_ne_true] at hx
        exact absurd hx (by rw [Tick.run_pure, hd]; exact Bool.false_ne_true)

/-- Handlers have had their turn only if the particle has expired in this tick or before. -/
theorem expires_of_expirationHandled (hx : (p.ticked g t).1.1.body.expirationHandled = true) :
    p.expires g t = true ∨ p.body.expirationHandled = true := by
  cases ho : p.ownedMoved g t with
  | false => exact .inr ((ticked_of_not_ownedMoved ho).1 ▸ hx)
  | true =>
    cases hc : p.body.carrier with
    | true =>
      have hs : (p.settled g t).body.carrier = true := hc
      rw [ticked_of_ownedMoved ho, advanceSelf_eq, if_pos hs] at hx
      exact .inr hx
    | false =>
      cases he : p.expires g t with
      | true => exact .inl rfl
      | false =>
        have hn : ((p.grown g t).1.isExpired && !(p.grown g t).1.body.expirationHandled) = false := by
          simpa [expires, ho, hc] using he
        rw [ticked_of_single ho hc, endTick, hn, if_neg Bool.false_ne_true] at hx
        exact .inr (expirationHandled_grown g p t ▸ hx)

structure Carries (p : Particle) : Prop where
  carrier : p.body.carrier = true
  forcedExpired : p.body.forcedExpired = false
  emitters : p.emitters = []

/-- A carrier stays one, and a fault never comes to it. -/
theorem Carries.ticked (h : p.Carries) (t : ParticleTick) : (p.ticked g t).1.1.Carries := by
  cases ho : p.ownedMoved g t with
  | false =>
    obtain ⟨hb, he, -⟩ := ticked_of_not_ownedMoved ho
    exact ⟨hb ▸ h.carrier, hb ▸ h.forcedExpired,
      List.eq_nil_of_length_eq_zero (by rw [he, h.emitters]; rfl)⟩
  | true =>
    have hs : (p.settled g t).body.carrier = true := h.carrier
    have he : (p.settled g t).emitters = [] := by
      rw [settled, emitters_mk, movedEmitters, h.emitters]
      rfl
    rw [ticked_of_ownedMoved ho, advanceSelf_eq, if_pos hs]
    exact ⟨h.carrier, h.forcedExpired, he⟩

theorem Carries.after (h : p.Carries) (hs : List Happening) : (p.after g hs).Carries := by
  induction hs generalizing p with
  | nil => exact h
  | cons x hs ih =>
    cases x with
    | tick t => exact ih (h.ticked t)
    | hush =>
      refine ih ⟨?_, ?_, ?_⟩
      · rw [body_stopEmitters, h.carrier]
      · rw [body_stopEmitters, h.forcedExpired]
      · rw [emitters_stopEmitters, h.emitters]
        rfl

/-- A carrier that has expired owns nothing any more. -/
theorem Carries.owned (h : p.Carries) (hx : p.isExpired = true) :
    p.children = [] ∧ p.emitters = [] := by
  rw [isExpired, h.forcedExpired, h.carrier, Bool.false_or, if_pos rfl] at hx
  exact ⟨List.isEmpty_iff.mp hx, h.emitters⟩

end Particle

namespace Emitter

/-- A particle whose handlers have their turn in a tick is there afterwards if an emitter is below
it, and all those emitters were told to stop. -/
theorem exists_track_of_expires {e x : Emitter} {t : EmitterTick} {b c : Place} {p : Particle}
    {g : Generator} {u : ParticleTick}
    (hp : Node.turnAt? b (.emitter e) (.emitter t) = some (.particle p, .particle g u))
    (hx : p.expires g u = true)
    (hc : (Node.particle (p.grown g u).1).at? c = some (.emitter x)) :
    ∃ b', Node.track b (.emitter e) (.emitter t) = some b' ∧
      (Node.emitter (e.ticked t).1.1).at? (b' ++ c) = some (.emitter x.stop) := by
  have hb := Node.at?_of_turnAt? rfl hp
  have ho := Particle.at?_of_expires hx hc
  cases ht : Node.track b (.emitter e) (.emitter t) with
  | none =>
    -- What is over owns no emitter.
    obtain ⟨v, hv, hd⟩ := Node.turnAt?_of_track_none rfl hb ht
    cases hp.symm.trans hv
    obtain rfl := (Node.isOver_of_at? hd ho).2 rfl
    cases ho
  | some b' =>
    obtain ⟨q, hq, hr⟩ := Node.track_some hb ht
    refine ⟨b', rfl, ?_⟩
    have hq : (Node.emitter (e.ticked t).1.1).at? b' = some q := hq
    rw [Node.at?_append, hq, Option.bind_some]
    rw [Node.outcome, hp] at hr
    rcases hr with rfl | rfl
    · exact ho
    · change (Node.particle (p.ticked g u).1.1).hushed.at? c = _
      rw [Node.at?_hushed rfl, ho]
      exact congrArg (fun e => some (Node.emitter e)) x.stop_stop

/-- A stop reaches all emitters of a tree: each is done emitting, and never makes a particle again,
whatever happens to the tree. In the same way all emitters below a particle are stopped as soon as its
handlers have their turn. They have it in the tick in which the particle expires, and a carrier
expires with nothing left that could emit. -/
theorem stop_is_for_good (e : Emitter) :
    (∀ a x, (Node.emitter e).at? a = some (.emitter x) →
      (Node.emitter e.stop).at? a = some (.emitter x.stop) ∧ x.stop.doneEmitting = true ∧
        e.stop.SilentAt a x.stop) ∧
    (∀ t b p g u c x,
      Node.turnAt? b (.emitter e) (.emitter t) = some (.particle p, .particle g u) →
      p.expires g u = true → (Node.particle (p.grown g u).1).at? c = some (.emitter x) →
      ∃ b', Node.track b (.emitter e) (.emitter t) = some b' ∧
        (Node.emitter (e.ticked t).1.1).at? (b' ++ c) = some (.emitter x.stop) ∧
        (e.ticked t).1.1.SilentAt (b' ++ c) x.stop) ∧
    (∀ (g : Generator) (p : Particle) (u : ParticleTick), p.body.carrier = false →
      ((p.ticked g u).1.1.isExpired = true → p.expires g u = true ∨
        p.body.expirationHandled = true ∨ p.isExpired = true ∧ (p.ticked g u).1.2.isSome = true) ∧
      ((p.ticked g u).1.1.body.expirationHandled = true →
        p.expires g u = true ∨ p.body.expirationHandled = true)) ∧
    ∀ g anchor cs hs, ((Particle.carrierOf g anchor cs).after g hs).isExpired = true →
      ((Particle.carrierOf g anchor cs).after g hs).children = [] ∧
        ((Particle.carrierOf g anchor cs).after g hs).emitters = [] := by
  refine ⟨fun a x hx => ?_, fun t b p g u c x hp hx hc => ?_, fun g p u hc => ?_,
    fun g anchor cs hs hx => ?_⟩
  · exact ⟨at?_stop hx, x.doneEmitting_stop, silentAt (at?_stop hx) (by rw [body_stop])⟩
  · obtain ⟨b', hb, hs⟩ := exists_track_of_expires hp hx hc
    exact ⟨b', hb, hs, silentAt hs (by rw [body_stop])⟩
  · exact ⟨Particle.expires_of_isExpired hc, Particle.expires_of_expirationHandled⟩
  · have h : (Particle.carrierOf g anchor cs).Carries := ⟨rfl, rfl, rfl⟩
    exact (h.after hs).owned hx

end Emitter

def Particle.fleeting : Particle :=
  mk (.blank (.plain [] []) 1 .identity) [] [.ofBody (.fresh (.plain [] []) .weather)]

def EmitterTick.plain : EmitterTick := ⟨none, 1, .bare, .fresh⟩

namespace Emitter

def nest : Emitter := mk (.fresh (.plain [] []) .weather) [.fleeting]

/-- The emitter in the nest is silent once the nest is told to stop, and also, with one particle made,
once the particle has expired that owns it. -/
theorem nest_falls_silent :
    (∃ x, nest.stop.SilentAt [⟨.particle, 0⟩, ⟨.emitter, 0⟩] x) ∧
    (∃ x : Emitter, x.body.emitted = 1 ∧
      (nest.ticked .plain).1.1.SilentAt [⟨.particle, 0⟩, ⟨.emitter, 0⟩] x) ∧
    Particle.fleeting.expires (.plain [] []) .bare = true ∧
    ((Particle.carrierOf (.plain [] []) .identity []).after (.plain [] []) [.tick .bare]).emitters =
      [] := by
  obtain ⟨reached, ended, found, carriers⟩ := stop_is_for_good nest
  refine ⟨⟨_, (reached [⟨.particle, 0⟩, ⟨.emitter, 0⟩] _ rfl).2.2⟩, ?_, ?_, ?_⟩
  · have turn : Node.turnAt? [⟨.particle, 0⟩] (.emitter nest) (.emitter .plain) =
      some (.particle .fleeting, .particle (.plain [] []) (nest.particleTick .plain)) := rfl
    have expires : Particle.fleeting.expires (.plain [] []) (nest.particleTick .plain) = true := by
      decide +kernel
    have made : (Particle.fleeting.grown (.plain [] []) (nest.particleTick .plain)).1.emitters.map
        (fun x => x.body.emitted) = [1] := by
      decide +kernel
    have stays : Node.track [⟨.particle, 0⟩] (.emitter nest) (.emitter .plain) =
        some [⟨.particle, 0⟩] := by
      decide +kernel
    obtain ⟨x, hx, hm⟩ := List.map_eq_singleton_iff.mp made
    have there : (Node.particle (Particle.fleeting.grown (.plain [] [])
        (nest.particleTick .plain)).1).at? [⟨.emitter, 0⟩] = some (.emitter x) := by
      simp [Node.owned, hx]
    obtain ⟨b, hb, -, hs⟩ := ended _ _ _ _ _ _ _ turn expires there
    cases stays.symm.trans hb
    exact ⟨x.stop, by rw [body_stop]; exact hm, hs⟩
  · rcases (found (.plain [] []) .fleeting .bare rfl).1 (by decide +kernel) with h | h | h
    · exact h
    · cases h
    · exact absurd h.1 (by decide +kernel)
  · exact (carriers _ _ _ _ (by decide +kernel)).2

end Emitter
end EffectMachine
