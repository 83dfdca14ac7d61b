import EffectMachine.Config.Load
import EffectMachine.Proofs.Sequence.FirstDelays
import EffectMachine.Proofs.System.Apart

namespace EffectMachine

open EffectMachine.System

/-- The turns that the activations of a name take while a list moves. -/
def System.turnsIn (elapsed : Scalar) (r : Surroundings) (a : SequenceId) :
    List Sequence → Host → List Sequence.Turn
  | [], _ => []
  | q :: qs, h =>
    let x := q.move elapsed r h
    (if q.body.id = a then q.tickTurns ⟨elapsed, r, h⟩ else []) ++
      if x.1.2 = some .outOfFuel then [] else turnsIn elapsed r a qs x.2

section Moving

variable {elapsed : Scalar} {r : Surroundings} {a : SequenceId}

/-- Each turn is one of a tick of its activation. -/
theorem System.tick_of_turnsIn {qs : List Sequence} {h : Host} {t : Sequence.Turn}
    (ht : t ∈ turnsIn elapsed r a qs h) :
    ∃ q ∈ qs, q.body.id = a ∧ ∃ k, t ∈ q.tickTurns ⟨elapsed, r, k⟩ := by
  induction qs generalizing h with
  | nil => cases ht
  | cons q qs ih =>
    rw [turnsIn, List.mem_append] at ht
    rcases ht with ht | ht
    · split at ht
      next ha => exact ⟨q, List.mem_cons_self, ha, h, ht⟩
      next => cases ht
    · split at ht
      next => cases ht
      next =>
        obtain ⟨p, hp, hk⟩ := ih ht
        exact ⟨p, List.mem_cons_of_mem _ hp, hk⟩

/-- The activation moves once, and the turns of that tick are among those of the list. -/
theorem System.turnsIn_named {qs : List Sequence} {h : Host} {q : Sequence}
    (hr : (advanceIn elapsed qs r h).1.2.2 ≠ some .outOfFuel)
    (hq : qs.find? (fun p => p.body.id = a) = some q) :
    ∃ k, (∀ t ∈ q.tickTurns ⟨elapsed, r, k⟩, t ∈ turnsIn elapsed r a qs h) ∧
      (q.move elapsed r k).1.2 ≠ some .outOfFuel ∧
      (advanceIn elapsed qs r h).1.1.find? (fun p => p.body.id = a) =
        some (q.move elapsed r k).1.1 := by
  induction qs generalizing h with
  | nil => cases hq
  | cons p qs ih =>
    rw [advanceIn_cons] at hr ⊢
    dsimp only at hr ⊢
    split at hr
    next ho => exact absurd ho hr
    next ho =>
      rw [if_neg ho, turnsIn]
      have hid : (p.move elapsed r h).1.1.body.id = p.body.id := p.move_id h
      by_cases ha : p.body.id = a
      · -- The first of that name is the one that is found, before the tick and after it.
        rw [List.find?_cons_of_pos (by simpa using ha)] at hq
        obtain rfl := Option.some.inj hq
        refine ⟨h, fun t ht => ?_, ho, List.find?_cons_of_pos (by simpa [hid] using ha)⟩
        rw [if_pos ha]
        exact List.mem_append_left _ ht
      · rw [List.find?_cons_of_neg (by simpa using ha)] at hq
        obtain ⟨k, hturns, hk, hfind⟩ := ih hr hq
        refine ⟨k, fun t ht => ?_, hk, ?_⟩
        · rw [if_neg ho]
          exact List.mem_append_right _ (hturns t ht)
        · rw [List.find?_cons_of_neg (by simpa [hid] using ha)]
          exact hfind

end Moving

theorem View.stopped_of_stopIf {v : View} {pick : Sequence → Bool} {r : Surroundings} {h : Host}
    {q : Sequence} (hq : (v.stopIf pick r h).1.sequence? = some q) :
    ∃ p, v.sequence? = some p ∧ (q = p ∨ q = (p.stop r h).1.1) := by
  by_cases hp : ∃ p, v.sequence? = some p ∧ pick p = true
  · obtain ⟨p, hp, hpick⟩ := hp
    rw [View.stopIf_some hp hpick] at hq
    exact ⟨p, hp, .inr (Option.some.inj hq).symm⟩
  · have hskip : v.stopIf pick = pure v :=
      View.stopIf_of_skip fun p hp' => eq_false_of_ne_true fun hpick => hp ⟨p, hp', hpick⟩
    rw [hskip] at hq
    exact ⟨q, hq, .inl rfl⟩

namespace Ledger

variable {l : Ledger} {h : Host} {a : SequenceId} {o : Occasion} {e : Effect} {rate : Scalar}

/-- The turns that an activation takes of its own while a request is served. -/
def turnsOf (l : Ledger) (h : Host) (o : Occasion) (a : SequenceId) : List Sequence.Turn :=
  match o.request with
  | .advance elapsed => turnsIn elapsed o.surroundings a l.system.sequences (o.meanwhile h)
  | _ => []

/-- As long as an activation has executed nothing it does not do so in a tick of no frames, unless
it was stopped, which drops what waits. -/
def HoldsFirst (a : SequenceId) : Ledger → Host → List Occasion → Prop
  | _, _, [] => True
  | l, h, o :: os =>
    (∀ elapsed, o.request = .advance elapsed → elapsed.IsZero →
      ∀ q, l.system.get? a = some q → q.body.stopped = false →
        ∀ t ∈ l.turnsOf h o a, t.event.executed? = none) ∧
    ((l.served h o).1.2 ≠ some .outOfFuel →
      (∀ t ∈ l.turnsOf h o a, t.event.executed? = none) →
      HoldsFirst a (l.served h o).1.1 (l.served h o).2 os)

/-- The first effect of an activation is still to be executed, if it is there. -/
structure AwaitsFirst (l : Ledger) (h : Host) (a : SequenceId) (e : Effect) (rate : Scalar) :
    Prop where
  named : l.Named h
  given : a.number < h.nextSequence
  awaits : ∀ q, l.system.get? a = some q → q.AwaitsFirst e rate

/-- What a request other than a tick does to the sequence of a name: it stops it, or nothing. -/
theorem get?_of_served (hn : l.Named h) (ha : a.number < h.nextSequence)
    (hr : (l.served h o).1.2 ≠ some .outOfFuel) (ho : o.request.isAdvance = false) {q : Sequence}
    (hq : (l.served h o).1.1.system.get? a = some q) :
    ∃ p, l.system.get? a = some p ∧ (q = p ∨ ∃ k, q = (p.stop o.surroundings k).1.1) := by
  obtain ⟨k, -, hk, -⟩ := view_serve (hn.later (o.forward h))
    (Nat.lt_of_lt_of_le ha (o.forward h)) o.request hr
  have hv : ((l.view a).serve a o.request o.surroundings k).1.1.sequence? = some q :=
    (congrArg (fun x => x.1.sequence?) hk).trans hq
  generalize o.request = request at hv ho
  cases request with
  | stop | stopRoutine =>
    obtain ⟨p, hp, hq⟩ := View.stopped_of_stopIf hv
    exact ⟨p, hp, hq.imp_right fun hq => ⟨k, hq⟩⟩
  | advance => cases ho
  | trigger | start | takeFailures => exact ⟨q, hv, .inl rfl⟩

/-- What a tick does to it: the sequence moves, unless it is let go of. -/
theorem get?_of_ticked (hn : l.Named h) {elapsed : Scalar} (ho : o.request = .advance elapsed)
    (hr : (l.served h o).1.2 ≠ some .outOfFuel) {q : Sequence}
    (hq : (l.served h o).1.1.system.get? a = some q) :
    ∃ p k, l.system.get? a = some p ∧
      (∀ t ∈ p.tickTurns ⟨elapsed, o.surroundings, k⟩, t ∈ l.turnsOf h o a) ∧
      (p.move elapsed o.surroundings k).1.2 ≠ some .outOfFuel ∧
      q = (p.move elapsed o.surroundings k).1.1 := by
  rw [served, ho] at hr hq
  obtain ⟨hr, hx⟩ := serve_of_advance hr
  have hmoved := advanceIn_moved _ _ hr
  rw [hx] at hq
  have hfind := (find?_filter_named _ _ (hmoved.ids ▸ hn.once)).symm.trans hq
  have hfind := (Option.filter_eq_some_iff.mp hfind).1
  have hp : l.system.get? a ≠ none := by
    intro hnone
    have hmem := find?_eq_none_iff.mp hnone
    rw [← hmoved.ids, ← find?_eq_none_iff] at hmem
    cases hmem.symm.trans hfind
  obtain ⟨p, hp⟩ := Option.ne_none_iff_exists'.mp hp
  obtain ⟨k, hturns, hk, hfind'⟩ := turnsIn_named hr hp
  refine ⟨p, k, hp, ?_, hk, Option.some.inj (hfind.symm.trans hfind')⟩
  rw [turnsOf, ho]
  exact hturns

/-- As long as it executes nothing, an activation goes on to await its first effect. -/
theorem AwaitsFirst.served (hl : l.AwaitsFirst h a e rate)
    (hr : (l.served h o).1.2 ≠ some .outOfFuel)
    (hnone : ∀ t ∈ l.turnsOf h o a, t.event.executed? = none) :
    (l.served h o).1.1.AwaitsFirst (l.served h o).2 a e rate := by
  refine ⟨(hl.named.later (o.forward h)).serve _ hr,
    Nat.lt_of_lt_of_le hl.given (forward_served l h o), fun q hq => ?_⟩
  cases ho : o.request with
  | advance elapsed =>
    obtain ⟨p, k, hp, hturns, hk, rfl⟩ := get?_of_ticked hl.named ho hr hq
    have hp := hl.awaits p hp
    unfold Sequence.move at hk ⊢
    split at hk
    next hf => rwa [if_pos hf]
    next hf =>
      rw [if_neg hf]
      exact Sequence.ticked_awaitsFirst (m := ⟨elapsed, _, k⟩) hp hk fun t ht =>
        hnone t (hturns t ht)
  | trigger | start | stop | stopRoutine | takeFailures =>
    obtain ⟨p, hp, rfl | ⟨k, rfl⟩⟩ :=
      get?_of_served hl.named hl.given hr (congrArg Request.isAdvance ho) hq
    · exact hl.awaits q hp
    · exact .inl (p.stop_ended o.surroundings k)

/-- By induction on the requests. -/
theorem AwaitsFirst.holdsFirst (hl : l.AwaitsFirst h a e rate) (hrate : rate.isFinite = true)
    (hd : 0 < e.delay) (os : List Occasion) : HoldsFirst a l h os := by
  induction os generalizing l h with
  | nil => trivial
  | cons o os ih =>
    refine ⟨fun elapsed ho hz q hq hlive t ht => ?_, fun hr hnone => ih (hl.served hr hnone)⟩
    rw [turnsOf, ho] at ht
    -- Names are used once, so the turn is one of the activation that is found.
    obtain ⟨p, hp, rfl, k, ht⟩ := tick_of_turnsIn ht
    obtain ⟨pre, post, hs⟩ := List.append_of_mem hp
    have hget : l.system.get? p.body.id = some p := by
      have hn := hl.named.once
      rw [hs] at hn
      rw [System.get?, hs]
      exact find?_named hn
    obtain rfl := Option.some.inj (hget.symm.trans hq)
    exact (hl.awaits p hget).zero_tick (m := ⟨elapsed, _, k⟩) hlive hrate hd hz t ht

end Ledger

namespace Career

/-- An activation that starts has its first effect before it. -/
theorem born_awaitsFirst {k : Career} {x : Routine × Binding} {e : Effect} {rest : List Effect}
    (hr : Ledger.Returns {} k.host k.before)
    (hx : k.birth.request.starts? k.birth.surroundings.directory = some x)
    (he : x.1.effects = e :: rest) : k.born.1.AwaitsFirst k.born.2 k.name e
      k.birth.surroundings.config.playbackRate := by
  have hn := ((Ledger.named_empty k.host).after hr).later (k.birth.forward _)
  refine ⟨hn.serve _ (Ledger.halt_of_starts hx), ?_, fun q hq => ?_⟩
  · rw [born, name]
    dsimp only
    rw [Ledger.served, Ledger.serve_of_starts hx]
    exact Nat.lt_succ_self _
  · have hview := congrArg View.sequence? (Ledger.view_born hn hx)
    obtain rfl := Option.some.inj (hview.symm.trans hq)
    exact .inr (SequenceBody.fresh_expects he)

end Career

def Routine.pause : Routine :=
  ⟨ResourceId.none, ResourcePath.root, [⟨1, 0, .wait⟩], [], [], false⟩

namespace Config

variable {c : Config} {source : String}

/-- In every run under this configuration, whatever starts with a delay waits for it. -/
def HoldsDelays (c : Config) : Prop :=
  ∀ (k : Career) (x : Routine × Binding) (e : Effect) (rest : List Effect),
    (∀ o ∈ k.run, o.surroundings.config = c) → Ledger.Returns {} k.host k.before →
    k.birth.request.starts? k.birth.surroundings.directory = some x →
    x.1.effects = e :: rest → 0 < e.delay → Ledger.HoldsFirst k.name k.born.1 k.born.2 k.after

theorem holdsDelays_of_finite (hc : c.playbackRate.isFinite = true) : c.HoldsDelays := by
  intro k x e rest hconfig hr hx he hd
  have hbirth : k.birth.surroundings.config = c := hconfig _ (by simp [Career.run])
  have hborn := Career.born_awaitsFirst hr hx he
  rw [hbirth] at hborn
  exact hborn.holdsFirst hc hd k.after

def hasty (c : Config) : Career where
  host := .fresh
  before := []
  birth := .alone { Surroundings.bare with config := c } (.start .pause .weather)
  after := [.alone { Surroundings.bare with config := c } (.advance 0)]

/-- At any other rate a rest is over at once. -/
theorem not_holdsDelays (hc : c.playbackRate.isFinite = false) : ¬c.HoldsDelays := by
  intro h
  let m : Sequence.Moment := ⟨0, { Surroundings.bare with config := c }, c.hasty.born.2⟩
  let s : Sequence := .mk (.fresh c.hasty.name .pause .weather c.playbackRate 0) []
  have hs : s.body.Expects ⟨1, 0, .wait⟩ c.playbackRate := SequenceBody.fresh_expects rfl
  have hk := h c.hasty (.pause, .weather) ⟨1, 0, .wait⟩ []
    (by simp [hasty, Career.run, Occasion.alone]) trivial rfl rfl (by decide)
  have hzero : (0 : Scalar).IsZero := by decide
  have hsequences : c.hasty.born.1.system.sequences = [s] := rfl
  have hid : s.body.id = c.hasty.name := rfl
  have hget : c.hasty.born.1.system.get? c.hasty.name = some s := by
    rw [System.get?, hsequences, List.find?_cons_of_pos (by simpa using hid)]
  obtain ⟨t, us, ht⟩ := s.exists_turn (m := m) rfl rfl (show Surroundings.bare.fuel ≠ 0 by decide)
  have he := Sequence.zero_tick_executes hs hc (m := m) hzero ht
  have hturn : t ∈ c.hasty.born.1.turnsOf c.hasty.born.2
      (.alone { Surroundings.bare with config := c } (.advance 0)) c.hasty.name := by
    change t ∈ turnsIn 0 m.surroundings c.hasty.name [s] m.host
    rw [turnsIn, if_pos hid]
    exact List.mem_append_left _ (ht ▸ List.mem_cons_self)
  cases he.symm.trans (hk.1 0 rfl hzero s hget rfl t hturn)

theorem validated_iff {c' : Config} : c.validate = .ok c' ↔
    c' = c ∧ ¬c.frameRate ≤ 0 ∧ ¬c.playbackRate < 0 ∧ c.maxNestingDepth ≠ 0 := by
  unfold validate
  split
  next h => simp [h]
  next =>
    split
    next h => simp [h]
    next =>
      split
      next h => simp [h]
      next h => simp [*, eq_comm]

/-- Whatever the reader, what is accepted has been validated as it is. -/
theorem validate_of_parseWith {read : String → Except Fault Config}
    (h : parseWith read source = .ok c) : c.validate = .ok c := by
  unfold parseWith at h
  cases hread : read source with
  | error why =>
    rw [hread] at h
    cases h
  | ok found =>
    rw [hread] at h
    dsimp only [bind, Except.bind] at h
    cases hv : found.validate with
    | error why =>
      rw [hv] at h
      cases h
    | ok config =>
      rw [hv] at h
      obtain rfl := Except.ok.inj h
      obtain ⟨rfl, -⟩ := validated_iff.mp hv
      exact hv

/-- What a check says of a text, it says of an accepted configuration. -/
theorem exists_of_parse (source : String) (P : Config → Bool)
    (h : (Config.parse source).toOption.any P = true) :
    ∃ c, Config.parse source = .ok c ∧ P c = true := by
  cases hc : Config.parse source with
  | error why =>
    rw [hc] at h
    cases h
  | ok c =>
    rw [hc] at h
    exact ⟨c, rfl, h⟩

end Config

/-- Whatever reads it, the bounds of an accepted configuration hold of its rates as far as these are
numbers. What starts with a delay waits for it exactly if the rate of playback is finite. -/
theorem accepted_bounds_iff (read : String → Except Fault Config) (source : String) (c : Config)
    (h : Config.parseWith read source = .ok c) :
    (0 < c.frameRate ↔ c.frameRate.isNaN = false) ∧
      (0 ≤ c.playbackRate ↔ c.playbackRate.isNaN = false) ∧ 1 ≤ c.maxNestingDepth ∧
      (c.HoldsDelays ↔ c.playbackRate.isFinite = true) := by
  obtain ⟨-, hframes, hplayback, hdepth⟩ := Config.validated_iff.mp
    (Config.validate_of_parseWith h)
  refine ⟨⟨fun hp => ?_, fun hn => ?_⟩, ⟨fun hp => ?_, fun hn => ?_⟩, ?_, fun hd => ?_,
    Config.holdsDelays_of_finite⟩
  · exact Scalar.isNaN_of_isNumber (Scalar.isNumber_of_lt hp).2
  · exact (Scalar.not_le_iff (Scalar.isNumber_of_isNaN hn) Scalar.isFinite_zero.ne_nan).mp hframes
  · exact Scalar.isNaN_of_isNumber (Scalar.isNumber_of_le hp).2
  · exact Scalar.nonneg_of_not_neg (Scalar.isNumber_of_isNaN hn) hplayback
  · exact UInt8.pos_iff_ne_zero.mpr hdepth
  · exact Bool.of_not_eq_false fun hf => Config.not_holdsDelays hf hd

theorem slowed_bounds :
    ∃ c, Config.parse "frame_rate = 30.0\nplayback_rate = 0.5" = .ok c ∧ 0 < c.frameRate ∧
      0 ≤ c.playbackRate ∧ 1 ≤ c.maxNestingDepth ∧ c.HoldsDelays := by
  let source := "frame_rate = 30.0\nplayback_rate = 0.5"
  obtain ⟨c, hc, hread⟩ := Config.exists_of_parse source
    (fun c => !c.frameRate.isNaN && !c.playbackRate.isNaN && c.playbackRate.isFinite)
    (by decide +kernel)
  simp only [Bool.and_eq_true, Bool.not_eq_true'] at hread
  obtain ⟨hf, hp, hd, hw⟩ := accepted_bounds_iff Config.readSettings source c hc
  exact ⟨c, hc, hf.mpr hread.1.1, hp.mpr hread.1.2, hd, hw.mpr hread.2⟩

/-- A rate that is no number is accepted, and makes every delay void. -/
theorem nanRate_accepted :
    ∃ c, Config.parse "playback_rate = nan" = .ok c ∧ ¬0 ≤ c.playbackRate ∧ ¬c.HoldsDelays := by
  obtain ⟨c, hc, hread⟩ := Config.exists_of_parse "playback_rate = nan"
    (fun c => !decide (0 ≤ c.playbackRate) && !c.playbackRate.isFinite) (by decide +kernel)
  simp only [Bool.and_eq_true, Bool.not_eq_true', decide_eq_false_iff_not] at hread
  exact ⟨c, hc, hread.1, Config.not_holdsDelays hread.2⟩

end EffectMachine
