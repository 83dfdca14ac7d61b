import EffectMachine.Proofs.Sequence.Containment
import EffectMachine.Proofs.Sequence.Sections
import EffectMachine.Proofs.Sequence.Waiting

namespace EffectMachine

def Scalar.pay (budget : Scalar) (e : Effect) : Scalar := budget - Scalar.ofNat e.delay.toNat

theorem SequenceBody.Does.budget_eq {s s' : SequenceBody} {e : Effect} {flow : Flow}
    (h : s.Does e s' flow) : s'.budget = s.budget := by
  cases h <;> rfl

theorem SequenceBody.requeued_budget (s : SequenceBody) : s.requeued.1.budget = s.budget := by
  unfold requeued
  split
  · rfl
  · dsimp only
    split <;> rfl

namespace Sequence

/-- The entry at the head of the queue, unless a child has to end first or the entry is passed
over. -/
def faces? (s : Sequence) : Option Pending :=
  if s.body.blockers.isEmpty then s.body.queue.head?.filter fun head => !s.skips head.effect
  else none

/-- The effect whose delay has to be paid next. -/
def owes? (s : Sequence) : Option Effect :=
  match s.faces? with
  | some ⟨e, false⟩ => some e
  | _ => none

namespace DrainEvent

def executed? : DrainEvent → Option Effect
  | ran e => some e
  | held e => some e
  | halted e _ => some e
  | _ => none

/-- Was it a child to wait for or a closed gate that ended the loop? -/
def isHeldUp : DrainEvent → Bool
  | blocked => true
  | held _ => true
  | _ => false

theorem isHeldUp_of_goesOn {event : DrainEvent} (h : event.goesOn = true) :
    event.isHeldUp = false := by
  cases event with
  | blocked | held => cases h
  | _ => rfl

end DrainEvent

def paidIn (ts : List Turn) : List Effect := ts.filterMap fun t => t.before.owes?

def Turn.running (t : Turn) : Scalar := (paidIn [t]).foldl Scalar.pay t.before.body.budget

/-- A turn spends what it should: it runs the entry that it faces if the budget allows, waits if
not, and otherwise runs nothing. -/
structure Turn.Pays (t : Turn) : Prop where
  runs : ∀ head, t.before.faces? = some head → ¬t.running < 0 →
    t.event.executed? = some head.effect
  waits : ∀ head, t.before.faces? = some head → t.running < 0 → t.event = .waiting
  idles : t.before.faces? = none → t.event.executed? = none
  leaves : t.after.body.budget = if t.event.isHeldUp then t.running.min 0 else t.running

section Faces

variable {s : Sequence} {head : Pending} {rest : List Pending}

theorem faces?_of_blocked (hb : s.body.blockers ≠ []) : s.faces? = none := by
  simp [faces?, hb]

theorem faces?_of_empty (hq : s.body.queue = []) : s.faces? = none := by
  simp [faces?, hq]

theorem faces?_of_skips (hq : s.body.queue = head :: rest)
    (hs : s.skips head.effect = true) : s.faces? = none := by
  simp [faces?, hq, hs]

theorem faces?_of_head (hb : s.body.blockers = []) (hq : s.body.queue = head :: rest)
    (hs : s.skips head.effect = false) : s.faces? = some head := by
  simp [faces?, hb, hq, hs]

/-- What is faced is at the head. -/
theorem head_of_faces? (h : s.faces? = some head) :
    s.body.blockers = [] ∧ s.skips head.effect = false ∧ ∃ rest, s.body.queue = head :: rest := by
  unfold faces? at h
  split at h
  next hb =>
    obtain ⟨hh, hs⟩ := Option.filter_eq_some_iff.mp h
    obtain ⟨rest, hq⟩ := List.head?_eq_some_iff.mp hh
    exact ⟨by simpa using hb, by simpa using hs, rest, hq⟩
  next => cases h

theorem owes?_of_none (h : s.faces? = none) : s.owes? = none := by
  rw [owes?, h]

/-- To charge the head is to pay what the sequence owes. -/
theorem charge_budget (h : s.faces? = some head) (rest : List Pending) :
    (s.body.charge head rest).budget = s.owes?.toList.foldl Scalar.pay s.body.budget := by
  obtain ⟨e, charged⟩ := head
  cases charged with
  | true => simp [owes?, h, SequenceBody.charge]
  | false => simp [owes?, h, SequenceBody.charge, Scalar.pay]

theorem execute_budget (run : StopHandlers Tick) (s : Sequence) (e : Effect) :
    (s.execute run e).Always fun x => x.1.body.budget = s.body.budget := by
  intro r h
  rw [(execute_body run s e r h).1]
  exact (s.body.perform_does e r h).budget_eq

end Faces

theorem Turn.running_eq (t : Turn) :
    t.running = t.before.owes?.toList.foldl Scalar.pay t.before.body.budget := by
  rw [running, paidIn]
  cases ho : t.before.owes? <;> simp [ho]

/-- A turn that faces no entry spends nothing. -/
theorem Turn.running_of_none {t : Turn} (hf : t.before.faces? = none) :
    t.running = t.before.body.budget := by
  rw [running_eq, owes?_of_none hf]
  rfl

theorem Turn.running_of_faces {t : Turn} {head : Pending} (hf : t.before.faces? = some head)
    (rest : List Pending) : t.running = (t.before.body.charge head rest).budget := by
  rw [running_eq, charge_budget hf]

/-- By cases on what the turn comes upon. -/
theorem Turn.IsStep.pays {t : Turn} (h : t.IsStep) : t.Pays := by
  have hd := h.drains
  obtain ⟨r, host, s, event, s'⟩ := t
  dsimp only at hd
  have unfaced (hf : s.faces? = none) (he : event.executed? = none)
      (hl : s'.body.budget = if event.isHeldUp then s.body.budget.min 0 else s.body.budget) :
      Turn.Pays ⟨r, host, s, event, s'⟩ := by
    refine ⟨fun head hh => ?_, fun head hh => ?_, fun _ => he, ?_⟩
    · cases hf.symm.trans hh
    · cases hf.symm.trans hh
    · rw [Turn.running_of_none hf]
      exact hl
  have faced {head : Pending} {rest : List Pending} (free : s.body.blockers = [])
      (queue : s.body.queue = head :: rest) (skips : s.skips head.effect = false)
      (hn : (s.body.charge head rest).budget < 0 → event = .waiting)
      (hp : ¬(s.body.charge head rest).budget < 0 → event.executed? = some head.effect)
      (hl : s'.body.budget = if event.isHeldUp then (s.body.charge head rest).budget.min 0
        else (s.body.charge head rest).budget) : Turn.Pays ⟨r, host, s, event, s'⟩ := by
    have hf : s.faces? = some head := faces?_of_head free queue skips
    have hr : Turn.running ⟨r, host, s, event, s'⟩ = _ := Turn.running_of_faces hf rest
    refine ⟨fun x hx hy => ?_, fun x hx hy => ?_, fun hx => ?_, ?_⟩
    · obtain rfl : head = x := Option.some.inj (hf.symm.trans hx)
      exact hp (hr ▸ hy)
    · obtain rfl : head = x := Option.some.inj (hf.symm.trans hx)
      exact hn (hr ▸ hy)
    · cases hf.symm.trans hx
    · rw [hr]
      exact hl
  have done {head : Pending} {rest : List Pending} {x : Sequence × Next}
      (hx : ((s.takeHead head rest).execute
        (runStopHandlers r.fuel) head.effect r host).1 = x) :
      x.1.body.budget = (s.body.charge head rest).budget := by
    have he := execute_budget (runStopHandlers r.fuel) (s.takeHead head rest) head.effect r host
    rw [hx] at he
    exact he
  cases hd with
  | blocked held => exact unfaced (faces?_of_blocked held) rfl (by rw [body_mapBody]; rfl)
  | dry free empty => exact unfaced (faces?_of_empty empty) rfl s.body.requeued_budget
  | requeued free empty => exact unfaced (faces?_of_empty empty) rfl s.body.requeued_budget
  | skipped head rest free queue skips =>
    exact unfaced (faces?_of_skips queue skips) rfl (by rw [body_mapBody]; rfl)
  | waiting head rest free queue skips unpaid =>
    exact faced free queue skips (fun _ => rfl) (absurd unpaid) rfl
  | ran head rest s' free queue skips paid hx =>
    exact faced free queue skips (fun hn => absurd hn paid) (fun _ => rfl) (done hx)
  | spliced head rest s' effects free queue skips paid hx =>
    refine faced free queue skips (fun hn => absurd hn paid) (fun _ => rfl) ?_
    rw [body_mapBody]
    exact done hx
  | held head rest s' free queue skips paid hx =>
    exact faced free queue skips (fun hn => absurd hn paid) (fun _ => rfl)
      (by rw [body_mapBody]; exact congrArg (·.min 0) (done hx))
  | halted head rest s' why free queue skips paid hx =>
    exact faced free queue skips (fun hn => absurd hn paid) (fun _ => rfl) (done hx)

theorem paidIn_append (ts us : List Turn) : paidIn (ts ++ us) = paidIn ts ++ paidIn us :=
  List.filterMap_append

theorem paidIn_cons (t : Turn) (ts : List Turn) : paidIn (t :: ts) = paidIn [t] ++ paidIn ts :=
  paidIn_append [t] ts

/-- Turns that follow on one another do so on either side of each of them. -/
theorem Linked.split {s : Sequence} {ts us : List Turn} {t : Turn}
    (h : s.Linked (ts ++ t :: us)) :
    s.Linked ts ∧ t.before = s.lastOf ts ∧ t.IsStep ∧ t.after.Linked us := by
  induction ts generalizing s with
  | nil => exact ⟨trivial, h⟩
  | cons u ts ih =>
    obtain ⟨hb, hs, hl⟩ := h
    obtain ⟨hts, ht⟩ := ih hl
    exact ⟨⟨hb, hs, hts⟩, ht⟩

/-- As long as the loop goes round, the budget loses the delays that were paid and nothing else. By
induction on the turns. -/
theorem Linked.budget {s : Sequence} {ts : List Turn} (h : s.Linked ts)
    (hg : ∀ t ∈ ts, t.event.goesOn = true) :
    (s.lastOf ts).body.budget = (paidIn ts).foldl Scalar.pay s.body.budget := by
  induction ts generalizing s with
  | nil => rfl
  | cons t ts ih =>
    obtain ⟨rfl, hs, hl⟩ := h
    obtain ⟨ht, hts⟩ := List.forall_mem_cons.mp hg
    have hp := hs.pays.leaves
    rw [DrainEvent.isHeldUp_of_goesOn ht, if_neg (by simp)] at hp
    rw [lastOf, ih hl hts, hp, paidIn_cons, List.foldl_append]
    rfl

variable {s : Sequence} {m : Moment}

def earned (s : Sequence) (m : Moment) : Scalar :=
  s.body.budget + m.elapsed * s.body.playbackRate

structure Spends (s : Sequence) (m : Moment) : Prop where
  /-- Each turn finds what the delays paid before it have left of the budget. -/
  folds : ∀ ts t us, s.tickTurns m = ts ++ t :: us →
    t.before.body.budget = (paidIn ts).foldl Scalar.pay (s.earned m)
  /-- Only an entry that is faced is run, and only if the budget allows. -/
  affords : ∀ t ∈ s.tickTurns m, ∀ e, t.event.executed? = some e →
    (∃ head, t.before.faces? = some head ∧ head.effect = e) ∧ ¬t.running < 0
  /-- The first entry faced without the frames for it is the last thing that the tick comes upon. -/
  stalls : ∀ ts t us, s.tickTurns m = ts ++ t :: us → t.before.faces? ≠ none → t.running < 0 →
    t.event = .waiting ∧ us = []
  /-- What is left in the end, and when it is given up. -/
  closes : ∃ ts t, s.tickTurns m = ts ++ [t] ∧ (s.ticked m).1.1.body.budget =
    if t.event.isHeldUp then ((paidIn (s.tickTurns m)).foldl Scalar.pay (s.earned m)).min 0
    else (paidIn (s.tickTurns m)).foldl Scalar.pay (s.earned m)

/-- A tick that comes to no bad end leaves what its draining left, but for the emitters. -/
theorem ticked_of_success (hs : (s.ticked m).1.2 = none) :
    s.isFailed = false ∧ (s.movedChildren m).1.2 = none ∧ (s.drained m).1.2 = none ∧
      ∃ es, (s.ticked m).1.1 = mk { (s.drained m).1.1.body with emitters := es }
        (s.drained m).1.1.children := by
  have hf : s.isFailed = false := by
    refine eq_false_of_ne_true fun hf => ?_
    obtain ⟨f, hf⟩ := isFailed_eq_true.mp hf
    rw [ticked_of_failed hf] at hs
    cases hs
  have hc := movedChildren_none hf (m := m) (by simp [hs])
  obtain ⟨es, h, ht⟩ := ticked_settles hf hc
  have hn : s.tickHalt m = none := by
    rw [ht, settle_halt _ _ _ _] at hs
    exact hs
  have hd : (s.drained m).1.2 = none := by
    unfold tickHalt at hn
    split at hn
    · cases hn
    next hd => exact hd
  rw [hn, settle_of_ne_fault _ fun f hx => by cases hx] at ht
  exact ⟨hf, hc, hd, es, by rw [ht]; rfl⟩

/-- A loop that has fuel takes a turn. -/
theorem drainTurns_ne_nil {run : StopHandlers Tick} {n : Nat} {r : Surroundings} {h : Host}
    (hd : (s.drain run n r h).1.2 = none) : s.drainTurns run n r h ≠ [] := by
  cases n with
  | zero => cases hd
  | succ n =>
    rw [drainTurns]
    split <;> exact List.cons_ne_nil _ _

/-- Before each turn of a tick the loop went round. -/
theorem tickTurns_goesOn {ts us : List Turn} {t : Turn} (h : s.tickTurns m = ts ++ t :: us) :
    (∀ u ∈ ts, u.event.goesOn = true) ∧ (us ≠ [] → t.event.goesOn = true) := by
  have hp := s.tickTurns_goOn m
  rw [h] at hp
  obtain ⟨-, hr, hl⟩ := List.pairwise_append.mp hp
  refine ⟨fun u hu => hl u hu t List.mem_cons_self, fun hn => ?_⟩
  obtain ⟨u, hu⟩ := List.exists_mem_of_ne_nil us hn
  exact (List.pairwise_cons.mp hr).1 u hu

theorem tickTurns_folds {ts us : List Turn} {t : Turn} (h : s.tickTurns m = ts ++ t :: us) :
    t.IsStep ∧ t.before.body.budget = (paidIn ts).foldl Scalar.pay (s.earned m) := by
  have hl := s.linked_tickTurns m
  rw [h] at hl
  obtain ⟨hts, hb, hs, -⟩ := hl.split
  refine ⟨hs, ?_⟩
  rw [hb, hts.budget (tickTurns_goesOn h).1]
  simp [ready, earn, dropEnded, earned]

/-- Every tick that comes to no bad end spends its frames as it should. -/
theorem spends_of_success (hs : (s.ticked m).1.2 = none) : s.Spends m where
  folds ts t us h := (tickTurns_folds h).2
  affords t ht e he := by
    have hp := ((s.linked_tickTurns m).isStep t ht).pays
    cases hf : t.before.faces? with
    | none => cases (hp.idles hf).symm.trans he
    | some head =>
      by_cases hn : t.running < 0
      · rw [hp.waits head hf hn] at he
        cases he
      · exact ⟨⟨head, rfl, Option.some.inj ((hp.runs head hf hn).symm.trans he)⟩, hn⟩
  stalls ts t us h hf hn := by
    obtain ⟨head, hf⟩ := Option.ne_none_iff_exists'.mp hf
    have he := (tickTurns_folds h).1.pays.waits head hf hn
    refine ⟨he, Classical.byContradiction fun hu => ?_⟩
    have hg := (tickTurns_goesOn h).2 hu
    rw [he] at hg
    cases hg
  closes := by
    obtain ⟨hf, hc, hd, es, ht⟩ := ticked_of_success hs
    have hne : s.tickTurns m ≠ [] := by
      rw [tickTurns_of_children hf hc]
      exact drainTurns_ne_nil hd
    obtain ⟨ts, t, hl⟩ : ∃ ts t, s.tickTurns m = ts ++ [t] :=
      ⟨_, _, (List.dropLast_concat_getLast hne).symm⟩
    obtain ⟨hstep, hb⟩ := tickTurns_folds hl
    have hr : t.running = (paidIn (s.tickTurns m)).foldl Scalar.pay (s.earned m) := by
      rw [Turn.running, hb, hl, paidIn_append, List.foldl_append]
    refine ⟨ts, t, hl, ?_⟩
    rw [ht, body_mk, ← drained_lastOf hf hc, hl, lastOf_append_cons, ← hl, ← hr]
    exact hstep.pays.leaves

end Sequence
end EffectMachine
