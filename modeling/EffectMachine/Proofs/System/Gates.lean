import EffectMachine.Proofs.Sequence.Gates
import EffectMachine.Proofs.System.Delays

namespace EffectMachine.Sequence

namespace Register

variable {x y : Register} {s s' : Sequence} {t : Turn} {g b : Entry} {start finish : UInt16}

/-- What a register leaves to be found: the same entries, or none where the queue was dropped. -/
structure Leads (x y : Register) : Prop where
  next : y.next = x.next
  waiting : y.waiting = x.waiting ∨ y.waiting = []

theorem Leads.refl (x : Register) : x.Leads x := ⟨rfl, .inl rfl⟩

theorem Leads.trans {z : Register} (h : x.Leads y) (h' : y.Leads z) : x.Leads z := by
  refine ⟨h'.next.trans h.next, ?_⟩
  rcases h'.waiting with hw | hw
  · rw [hw]
    exact h.waiting
  · exact .inr hw

theorem leads_drop (x : Register) (s : Sequence) : x.Leads (x.drop s) := by
  unfold Register.drop
  split
  · exact ⟨rfl, .inr rfl⟩
  · exact .refl x

/-- Turns with registers that are true of them, each the one that the turn before has left. -/
def Runs : Register → List (Register × Turn) → Prop
  | _, [] => True
  | x, (y, t) :: l => x.Leads y ∧ y.Keeps t.before ∧ t.IsStep ∧ (y.turn t).Runs l

theorem Runs.of_leads {l : List (Register × Turn)} (h : x.Leads y) (hl : y.Runs l) : x.Runs l := by
  cases l with
  | nil => trivial
  | cons p l => exact ⟨h.trans hl.1, hl.2⟩

/-- By induction on the turns. -/
theorem Keeps.along_runs {ts : List Turn} {l : List (Register × Turn)} (h : x.Keeps s)
    (ht : s.Linked ts) (hl : (ts.foldl Register.turn x).Runs l) : x.Runs (x.along ts ++ l) := by
  induction ts generalizing s x with
  | nil => exact hl
  | cons t ts ih =>
    obtain ⟨rfl, hs, ht⟩ := ht
    exact ⟨.refl x, h, hs, ih ⟨h.mirrors.turn hs.moves, hs.moves.poised h.poised⟩ ht hl⟩

/-- By induction on the calls. -/
theorem Keeps.records_runs (h : x.Keeps s) (vs : List Visit) : x.Runs (x.records s vs) := by
  induction vs generalizing s x with
  | nil => trivial
  | cons v vs ih =>
    obtain ⟨s', hs, ht⟩ := linked_visitTurns s v
    refine (h.of_sameWork hs).along_runs ht ?_
    exact .of_leads (leads_drop _ _) (ih (h.visit v).1)

theorem Runs.after {l l' : List (Register × Turn)} (h : x.Runs (l ++ (y, t) :: l')) :
    y.Keeps t.before ∧ t.IsStep ∧ y.Runs ((y, t) :: l') := by
  induction l generalizing x with
  | nil => exact ⟨h.2.1, h.2.2.1, .refl y, h.2⟩
  | cons p l ih => exact ih h.2.2.2

/-- In this turn a gate leaves the queue, passed over or open. -/
structure Passes (x : Register) (t : Turn) (g : Entry) (start finish : UInt16) : Prop where
  head : x.waiting.head? = some g
  event : t.event = .skipped g.effect ∨
    t.event = .ran g.effect ∧ t.surroundings.clock.inWindow start finish = true

def Before (x : Register) (g b : Entry) : Prop := [g, b].Sublist x.waiting

/-- What waits behind another entry is not at the head. -/
theorem Before.head (h : x.Before g b) (ha : (x.waiting.map Entry.number).Nodup) :
    x.waiting.head? ≠ some b := by
  intro hb
  obtain ⟨kept, hw⟩ := List.head?_eq_some_iff.mp hb
  rw [Before, hw] at h
  rw [hw, List.map_cons, List.nodup_cons] at ha
  refine ha.1 (List.mem_map_of_mem ?_)
  cases h with
  | cons _ h => exact h.subset (by simp)
  | cons_cons _ h => exact h.subset (by simp)

theorem Gone.head (h : x.Gone b.number) : x.waiting.head? ≠ some b :=
  fun hb => h.left b (List.mem_of_head? hb) rfl

/-- What waits behind a gate still does, or has left the queue. -/
theorem Leads.before (h : x.Leads y) (hg : ∀ e ∈ x.waiting, e.number < x.next)
    (hx : x.Before g b ∨ x.Gone b.number) : y.Before g b ∨ y.Gone b.number := by
  rcases h.waiting with hw | hw
  · rcases hx with hx | hx
    · exact .inl (by rwa [Before, hw])
    · exact .inr ⟨h.next ▸ hx.given, by rw [hw]; exact hx.left⟩
  · refine .inr ⟨?_, by simp [hw]⟩
    rw [h.next]
    rcases hx with hx | hx
    · exact hg b (hx.subset (by simp))
    · exact hx.given

/-- What a turn executes is at the head. -/
theorem Keeps.executed (h : x.Keeps t.before) (hs : t.IsStep) {e : Effect}
    (he : t.event.executed? = some e) : ∃ b, x.waiting.head? = some b ∧ b.effect = e := by
  cases hf : t.before.faces? with
  | none => cases (hs.pays.idles hf).symm.trans he
  | some head =>
    obtain ⟨b, kept, hw, hb, -⟩ := h.mirrors.charged_of_faced hf
    refine ⟨b, by simp [hw], hb.trans ?_⟩
    by_cases hn : t.running < 0
    · rw [hs.pays.waits head hf hn] at he
      cases he
    · exact Option.some.inj ((hs.pays.runs head hf hn).symm.trans he)

/-- What leaves the queue is at the head. -/
theorem Keeps.taken (h : x.Keeps t.before) (hs : t.IsStep) {e : Effect}
    (he : t.event.taken? = some e) : ∃ b kept, x.waiting = b :: kept ∧ b.effect = e := by
  cases hs.moves with
  | rests _ taken | enters _ taken | stays _ _ _ taken => cases taken.symm.trans he
  | leaves head rest effects taken before after =>
    obtain ⟨b, kept, hw, hb, -⟩ := h.mirrors.cons before
    exact ⟨b, kept, hw, hb.trans (Option.some.inj (taken.symm.trans he))⟩

/-- A gate that leaves the queue is passed over or open: it has no other way to go. -/
theorem Keeps.passes (h : x.Keeps t.before) (hs : t.IsStep)
    (ha : g.effect.action = .timeOfDayGate start finish) (hg : x.waiting.head? = some g)
    (ht : t.event.taken?.isSome = true) : x.Passes t g start finish := by
  obtain ⟨e, he⟩ := Option.isSome_iff_exists.mp ht
  obtain ⟨b, kept, hw, rfl⟩ := h.taken hs he
  obtain rfl : b = g := by simpa [hw] using hg
  have hgate := hs.drains.gate ha
  refine ⟨hg, ?_⟩
  cases hv : t.event with
  | skipped e' =>
    rw [hv] at he
    exact .inl (congrArg DrainEvent.skipped (Option.some.inj he))
  | ran e' =>
    rw [hv] at he hgate
    obtain rfl := Option.some.inj he
    have hw := hgate rfl
    split at hw
    next hc => exact .inr ⟨rfl, hc⟩
    next => cases hw
  | halted e' why =>
    rw [hv] at he hgate
    obtain rfl := Option.some.inj he
    have hw := hgate rfl
    split at hw <;> cases hw
  | blocked | dry | requeued | waiting | held =>
    rw [hv] at he
    cases he

/-- As long as a gate is not passed, it waits before whatever waited behind it. -/
theorem Before.turn (hb : x.Before g b) (h : x.Keeps t.before) (hs : t.IsStep)
    (ha : g.effect.action = .timeOfDayGate start finish) :
    x.Passes t g start finish ∨ (x.turn t).Before g b := by
  have later {kept : List Entry} (hk : [g, b].Sublist kept)
      (he : (if t.event.taken?.isSome then x.waiting.tail else x.waiting) = kept) :
      (x.turn t).Before g b := by
    rw [Before, Register.turn]
    dsimp only
    rw [he]
    exact hk.trans (List.sublist_append_right _ _)
  cases ht : t.event.taken?.isSome with
  | false => exact .inr (later hb (by simp [ht]))
  | true =>
    rw [Before] at hb
    cases hw : x.waiting with
    | nil =>
      rw [hw] at hb
      cases hb
    | cons e kept =>
      rw [hw] at hb
      cases hb with
      | cons _ hb => exact .inr (later hb (by simp [ht, hw]))
      | cons_cons _ hb => exact .inl (h.passes hs ha (by simp [hw]) ht)

/-- By induction on the turns: before the entry behind comes to the head, the gate is passed. -/
theorem Runs.guards {l pre post : List (Register × Turn)} {z : Register} {u : Turn}
    (hl : x.Runs l) (hn : ∀ e ∈ x.waiting, e.number < x.next)
    (hx : x.Before g b ∨ x.Gone b.number) (ha : g.effect.action = .timeOfDayGate start finish)
    (he : l = pre ++ (z, u) :: post) (hz : z.waiting.head? = some b) :
    ∃ p ∈ pre, p.1.Passes p.2 g start finish := by
  induction l generalizing x pre with
  | nil => simp at he
  | cons p l ih =>
    obtain ⟨y, t⟩ := p
    obtain ⟨hlead, hk, hs, hl⟩ := hl
    have hy := hlead.before hn hx
    cases pre with
    | nil =>
      obtain ⟨hp, rfl⟩ := List.cons.inj he
      cases hp
      rcases hy with hy | hy
      · exact absurd hz (hy.head hk.mirrors.apart)
      · exact absurd hz hy.head
    | cons p pre =>
      obtain ⟨rfl, hrest⟩ := List.cons.inj he
      have hn' := (hk.mirrors.turn hs.moves).given
      have further (hy : (y.turn t).Before g b ∨ (y.turn t).Gone b.number) :
          ∃ p ∈ (y, t) :: pre, p.1.Passes p.2 g start finish := by
        obtain ⟨p, hp, hpass⟩ := ih hl hn' hy hrest
        exact ⟨p, List.mem_cons_of_mem _ hp, hpass⟩
      rcases hy with hy | hy
      · rcases hy.turn hk hs ha with hpass | hy
        · exact ⟨(y, t), List.mem_cons_self, hpass⟩
        · exact further (.inl hy)
      · exact further (.inr (hy.turn t))

/-- Nothing gets past a gate over a run. -/
structure Guards (x : Register) (s : Sequence) (vs : List Visit) : Prop where
  /-- An entry is executed from the head of the queue only. -/
  heads : ∀ y t e, (y, t) ∈ x.records s vs → t.event.executed? = some e →
    ∃ b, y.waiting.head? = some b ∧ b.effect = e
  /-- Before an entry that waits behind a gate comes to the head, the gate is passed: it is executed
  within its window, or it is itself passed over. -/
  guards : ∀ before y t after mid z u rest g b start finish,
    x.records s vs = before ++ (y, t) :: after → y.Before g b →
    g.effect.action = .timeOfDayGate start finish →
    (y, t) :: after = mid ++ (z, u) :: rest → z.waiting.head? = some b →
    ∃ p ∈ mid, p.1.Passes p.2 g start finish

theorem Keeps.guards (h : x.Keeps s) (vs : List Visit) : x.Guards s vs where
  heads y t e hm he := ((h.run vs).2 y t hm).1.executed ((h.run vs).2 y t hm).2 he
  guards before y t after mid z u rest g b start finish hl hb ha he hz := by
    have hr := h.records_runs vs
    rw [hl] at hr
    obtain ⟨hk, -, hr⟩ := hr.after
    exact hr.guards hk.mirrors.given (.inl hb) ha he hz

end Register

section Visits

variable {s : Sequence} {e : Effect} {start finish : UInt16}

/-- From here on each tick comes to a closed gate and to nothing else, and leaves no frames, up to
the first tick within the window, which passes it. A failed sequence takes no more turns. -/
def StaysShut (e : Effect) (start finish : UInt16) : Sequence → List Visit → Prop
  | s, [] => s.body.budget ≤ 0
  | s, v :: vs => s.body.budget ≤ 0 ∧
    match v.moment? with
    | none => StaysShut e start finish (s.visited v).1.1 vs
    | some m =>
      if s.isFailed then s.tickTurns m = [] ∧ StaysShut e start finish (s.visited v).1.1 vs
      else if m.surroundings.clock.inWindow start finish then
        ∃ t us, s.tickTurns m = t :: us ∧ t.event = .ran e
      else
        (∃ t, s.tickTurns m = [t] ∧ t.event = .held e) ∧
          StaysShut e start finish (s.visited v).1.1 vs

/-- Whenever a turn of a run executes a gate, the clock says whether it is passed; if not, it stays
shut for as long as the clock says so. -/
def MindsGates : Sequence → List Visit → Prop
  | _, [] => True
  | s, v :: vs =>
    (∀ t ∈ s.visitTurns v, ∀ e start finish, e.action = .timeOfDayGate start finish →
      t.event.executed? = some e →
        if t.surroundings.clock.inWindow start finish then t.event = .ran e
        else t.event = .held e ∧ StaysShut e start finish (s.visited v).1.1 vs) ∧
    (s.visited v).1.1.MindsGates vs

/-- A sequence that is shut out of a gate, as long as it has not failed. -/
structure IsShutOut (s : Sequence) (e : Effect) : Prop where
  spent : s.body.budget ≤ 0
  shutOut : s.isFailed = false → s.body.ShutOut e

theorem IsShutOut.of_body {s' : Sequence} (h : s.IsShutOut e) (hb : s'.body = s.body) :
    s'.IsShutOut e := by
  refine ⟨hb ▸ h.spent, fun hf => ?_⟩
  rw [isFailed, hb] at hf
  exact hb ▸ h.shutOut hf

theorem visited_rate {v : Visit} (hv : v.stops = false) (hs : ¬s.body.playbackRate < 0) :
    ¬(s.visited v).1.1.body.playbackRate < 0 := by
  obtain ⟨call, r, h⟩ := v
  cases call with
  | advance elapsed => exact ticked_rate hs ⟨elapsed, r, h⟩
  | stop => cases hv
  | stopRoutine routine => rwa [visited_body rfl rfl]

/-- By induction on the calls. -/
theorem staysShut (vs : List Visit) (hs : s.IsShutOut e)
    (ha : e.action = .timeOfDayGate start finish) (hr : s.Answers vs)
    (hv : ∀ v ∈ vs, v.stops = false)
    (hlen : ∀ v ∈ vs, ∀ m, v.moment? = some m → ¬m.elapsed < 0)
    (hq : ¬s.body.playbackRate < 0) : StaysShut e start finish s vs := by
  induction vs generalizing s with
  | nil => exact hs.spent
  | cons v vs ih =>
    obtain ⟨hv, hvs⟩ := List.forall_mem_cons.mp hv
    obtain ⟨hlen, hlens⟩ := List.forall_mem_cons.mp hlen
    have rest (hn : (s.visited v).1.1.IsShutOut e) :
        StaysShut e start finish (s.visited v).1.1 vs :=
      ih hn hr.2 hvs hlens (visited_rate hv hq)
    refine ⟨hs.spent, ?_⟩
    cases hm : v.moment? with
    | none => exact rest (hs.of_body (visited_body hm hv))
    | some m =>
      have hvis := visited_of_moment (s := s) hm
      have hret := hr.1
      rw [hvis] at rest hret ⊢
      dsimp only
      split
      next hf =>
        obtain ⟨f, he⟩ := isFailed_eq_true.mp hf
        rw [ticked_of_failed he] at rest ⊢
        exact ⟨by simp [tickTurns, hf], rest hs⟩
      next hf =>
        have hf := eq_false_of_ne_true hf
        have hshut := hs.shutOut hf
        have ht := tickTurns_of_standsAt hshut.toStandsAt hshut.solvent ha hf hret (hlen m hm) hq
        split
        next hw => rwa [if_pos hw] at ht
        next hw =>
          rw [if_neg hw] at ht
          obtain ⟨t, hl, he⟩ := ht
          obtain ⟨hb, hn⟩ := ticked_shutOut (m := m) (hl ▸ List.mem_singleton_self t) he
          exact ⟨⟨t, hl, he⟩, rest ⟨hb, hn⟩⟩

/-- By induction on the calls. -/
theorem mindsGates (vs : List Visit) (hr : s.Answers vs) (hv : ∀ v ∈ vs, v.stops = false)
    (hlen : ∀ v ∈ vs, ∀ m, v.moment? = some m → ¬m.elapsed < 0)
    (hq : ¬s.body.playbackRate < 0) : s.MindsGates vs := by
  induction vs generalizing s with
  | nil => trivial
  | cons v vs ih =>
    obtain ⟨hv, hvs⟩ := List.forall_mem_cons.mp hv
    obtain ⟨-, hlens⟩ := List.forall_mem_cons.mp hlen
    have hq' := visited_rate hv hq
    refine ⟨fun t ht e start finish ha he => ?_, ih hr.2 hvs hlens hq'⟩
    cases hm : v.moment? with
    | none =>
      rw [visitTurns, hm] at ht
      cases ht
    | some m =>
      rw [visitTurns, hm] at ht
      have hg := ((s.linked_tickTurns m).isStep t ht).drains.gate ha he
      split
      next hw => rwa [if_pos hw] at hg
      next hw =>
        rw [if_neg hw] at hg
        obtain ⟨hb, hn⟩ := ticked_shutOut ht hg
        rw [visited_of_moment hm] at hq' ⊢
        have hr' := hr.2
        rw [visited_of_moment hm] at hr'
        exact ⟨hg, staysShut vs ⟨hb, hn⟩ ha hr' hvs hlens hq'⟩

end Visits

section Stops

variable {s : Sequence}

/-- Handlers leave nothing noted: a gate that they find closed drops the rest of them. -/
theorem runHandlers_scheduledStart (run : StopHandlers Tick) (n : Nat) (es : List Effect)
    (hs : s.body.scheduledStart = none) :
    (runHandlers run n es s).Always fun x => x.1.body.scheduledStart = none := by
  induction n generalizing es s with
  | zero => exact .pure hs
  | succ n ih =>
    cases es with
    | nil => exact .pure (by simpa using hs)
    | cons e es =>
      unfold runHandlers
      split
      · exact ih es hs
      · refine .bind (execute_scheduledStart run s e hs) fun x hx => ?_
        obtain ⟨s', next⟩ := x
        cases next with
        | hold => exact .pure (by simp)
        | proceed => exact ih es (hx (by simp))
        | splice effects => exact ih (effects ++ es) (hx (by simp))
        | halt why => exact .pure (hx (by simp))

theorem gateKept_of_none (hs : s.body.scheduledStart = none) : s.GateKept :=
  fun _ => SequenceBody.awaitsGate_of_none hs

theorem settle_leaves (halt : Option Halt) (hs : s.body.scheduledStart = none) :
    (s.settle halt).Always fun x => x.1.isFailed = true ∨ x.1.body.scheduledStart = none := by
  refine (s.settle_cases halt).mono fun x hx => ?_
  rcases hx with hx | ⟨hf, -⟩
  · exact .inr (by rw [hx, hs])
  · exact .inl hf

/-- A sequence that is stopped has nothing noted, or was not to be stopped. -/
theorem stop_leaves (s : Sequence) :
    s.stop.Always fun x => x.1 = s ∨ x.1.isFailed = true ∨ x.1.body.scheduledStart = none := by
  cases s with
  | mk body children =>
    refine .after _ fun r => ?_
    unfold stopWith
    split
    · exact .pure (.inl rfl)
    · refine .after _ fun x => ?_
      dsimp only
      split
      · exact .pure (.inr (.inr rfl))
      · cases r.fuel with
        | zero => exact .pure (.inr (.inr rfl))
        | succ depth =>
          refine .after _ fun r' => .bind (runHandlers_scheduledStart _ _ _ rfl) fun y hy => ?_
          exact (settle_leaves y.2 hy).mono fun x hx => .inr hx

theorem stop_gateKept (hs : s.GateKept) : s.stop.Always fun x => x.1.GateKept := by
  refine s.stop_leaves.mono fun x hx => ?_
  rcases hx with hx | hf | hn
  · rwa [hx]
  · exact fun hlive => absurd (hf.symm.trans hlive) (by simp)
  · exact gateKept_of_none hn

theorem visited_gateKept (hs : s.GateKept) (v : Visit) : (s.visited v).1.1.GateKept := by
  obtain ⟨call, r, h⟩ := v
  cases call with
  | advance elapsed => exact ticked_gateKept hs ⟨elapsed, r, h⟩
  | stop => exact stop_gateKept hs r h
  | stopRoutine routine =>
    rw [GateKept, isFailed, visited_body rfl rfl]
    exact hs

/-- By induction on the calls. -/
theorem afterVisits_gateKept (hs : s.GateKept) (vs : List Visit) :
    (s.afterVisits vs).GateKept := by
  induction vs generalizing s with
  | nil => exact hs
  | cons v vs ih => exact ih (visited_gateKept hs v)

/-- Whoever waits for a gate to open says so. -/
theorem state_of_scheduled (hf : s.isFailed = false) (hq : s.body.queue ≠ [])
    (hb : s.body.blockers = []) (hm : s.body.scheduledStart.isSome = true) :
    s.state = .scheduled := by
  cases s with
  | mk body children =>
    have hf : body.isFailed = false := hf
    have hq : body.queue ≠ [] := hq
    have hb : body.blockers = [] := hb
    have hm : body.scheduledStart.isSome = true := hm
    simp [state, isFailed, isComplete, isDoneExecuting, SequenceBody.isDoneExecuting, hf, hq, hb,
      hm]

/-- A sequence that has noted when a gate opens has that gate at the head of its queue, paid for. It
waits for no child, and it says that it is scheduled. -/
def ShowsGate (s : Sequence) : Prop :=
  ∀ start, s.isFailed = false → s.body.scheduledStart = some start →
    (∃ e finish rest, e.action = .timeOfDayGate start finish ∧
      s.body.queue = ⟨e, true⟩ :: rest) ∧ s.body.blockers = [] ∧ s.state = .scheduled

/-- A sequence that keeps its gate shows it. -/
theorem GateKept.shows (h : s.GateKept) : s.ShowsGate := by
  intro start hf hm
  obtain ⟨e, finish, ha, hst⟩ := h hf start hm
  obtain ⟨rest, hq⟩ := hst.queue
  exact ⟨⟨e, finish, rest, ha, hq⟩, hst.free,
    state_of_scheduled hf (by simp [hq]) hst.free (by simp [hm])⟩

end Stops

/-- Whatever is called on a sequence, nothing gets past a gate that is closed, and what the sequence
has noted is shown by its queue and its state. If it is not stopped, and neither its ticks nor its
rate run backwards, a gate once found closed stays shut, with no frames saved, up to the first tick
within its window. -/
theorem gates_are_kept (id : SequenceId) (routine : Routine) (binding : Binding) (rate : Scalar)
    (depth : UInt8) (vs : List Visit) :
    let s := mk (.fresh id routine binding rate depth) []
    (Register.begin s).Guards s vs ∧
      (s.Answers vs → (∀ v ∈ vs, v.stops = false) →
        (∀ v ∈ vs, ∀ m, v.moment? = some m → 0 ≤ m.elapsed) → 0 ≤ rate → s.MindsGates vs) ∧
      (s.afterVisits vs).ShowsGate := by
  intro s
  refine ⟨(Register.begin_keeps id routine binding rate depth).guards vs,
    fun hr hv hlen hq => ?_, ?_⟩
  · exact mindsGates vs hr hv (fun v hm m he => Scalar.not_neg_of_nonneg (hlen v hm m he))
      (Scalar.not_neg_of_nonneg hq)
  · exact (afterVisits_gateKept (gateKept_of_none rfl) vs).shows

def dusk : Routine :=
  ⟨ResourceId.none, ResourcePath.root,
    [⟨0, 0, .timeOfDayGate 1080 1200⟩, ⟨0, 0, .screenFlash Color.white⟩], [], [], false⟩

def duskTick (minutes : Scalar) : Visit :=
  ⟨.advance 1, { Surroundings.bare with clock := { minutesOfDay := minutes } }, .fresh⟩

theorem dusk_is_kept :
    let s := mk (.fresh ⟨0⟩ dusk .weather 1 0) []
    let run := [duskTick 600, duskTick 601, duskTick 1100]
    s.Answers run ∧ (∀ v ∈ run, ∀ m, v.moment? = some m → 0 ≤ m.elapsed) ∧
      (Register.begin s).Guards s run ∧ s.MindsGates run ∧
      (s.afterVisits (run.take 2)).ShowsGate ∧
      (List.range 4).map (fun n => (s.afterVisits (run.take n)).state) =
        [.running, .scheduled, .scheduled, .complete] ∧
      ((Register.begin s).records s run).map (fun p => p.2.event.executed?.isSome) =
        [true, true, true, true, false] := by
  intro s run
  have ha : s.Answers run := ⟨by decide +kernel, by decide +kernel, by decide +kernel, trivial⟩
  have hv : ∀ v ∈ run, v.stops = false := by decide +kernel
  have hlen : ∀ v ∈ run, ∀ m, v.moment? = some m → 0 ≤ m.elapsed := by
    simp only [run, List.forall_mem_cons, List.not_mem_nil, false_implies, implies_true, and_true]
    refine ⟨?_, ?_, ?_⟩ <;> rintro m ⟨⟩ <;> decide +kernel
  have hall := gates_are_kept ⟨0⟩ dusk .weather 1 0 run
  have hshow := gates_are_kept ⟨0⟩ dusk .weather 1 0 (run.take 2)
  exact ⟨ha, hlen, hall.1, hall.2.1 ha hv hlen (by decide +kernel), hshow.2.2, by decide +kernel,
    by decide +kernel⟩

end EffectMachine.Sequence
