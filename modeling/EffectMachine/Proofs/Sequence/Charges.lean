import EffectMachine.Proofs.Sequence.Budgets

namespace EffectMachine.Sequence

/-- An effect that waits, under a number of its own. -/
structure Entry where
  number : Nat
  effect : Effect

/-- The entries that wait, the numbers of all that were charged so far, in order, and the next
number to be given. An entry keeps its number as long as it waits. -/
structure Register where
  waiting : List Entry
  charged : List Nat
  next : Nat

def entries : Nat → List Effect → List Entry
  | _, [] => []
  | n, e :: es => ⟨n, e⟩ :: entries (n + 1) es

namespace Register

def begin (s : Sequence) : Register where
  waiting := entries 0 s.body.work
  charged := []
  next := s.body.work.length

/-- A turn takes the head out of the queue or leaves it there, and what comes in addition is put
before the others. A delay that is taken from the budget is recorded for the head. -/
def turn (x : Register) (t : Turn) : Register :=
  let kept := if t.event.taken?.isSome then x.waiting.tail else x.waiting
  let entered := t.after.body.work.take (t.after.body.work.length - kept.length)
  { waiting := entries x.next entered ++ kept
    charged :=
      if t.before.owes?.isSome then x.charged ++ (x.waiting.take 1).map Entry.number else x.charged
    next := x.next + entered.length }

def pending (x : Register) (e : Entry) : Pending := ⟨e.effect, decide (e.number ∈ x.charged)⟩

/-- The register is that of a queue: it has the same entries in the same order, and records the
charges of those that are marked. -/
structure Mirrors (x : Register) (queue : List Pending) : Prop where
  queue : queue = x.waiting.map x.pending
  given : ∀ e ∈ x.waiting, e.number < x.next
  spent : ∀ n ∈ x.charged, n < x.next
  apart : (x.waiting.map Entry.number).Nodup
  once : x.charged.Nodup

structure Gone (x : Register) (n : Nat) : Prop where
  given : n < x.next
  left : ∀ e ∈ x.waiting, e.number ≠ n

structure Spared (x : Register) (n : Nat) : Prop extends x.Gone n where
  uncharged : n ∉ x.charged

end Register

section Entries

variable {n : Nat} {es : List Effect}

@[simp] theorem entries_effects (n : Nat) (es : List Effect) :
    (entries n es).map Entry.effect = es := by
  induction es generalizing n with
  | nil => rfl
  | cons e es ih => simp [entries, ih]

theorem entries_bounds {e : Entry} (h : e ∈ entries n es) :
    n ≤ e.number ∧ e.number < n + es.length := by
  induction es generalizing n with
  | nil => cases h
  | cons f es ih =>
    rw [List.length_cons]
    rcases List.mem_cons.mp h with rfl | h
    · exact ⟨Nat.le_refl _, by simp⟩
    · have := ih h
      omega

theorem entries_nodup (n : Nat) (es : List Effect) :
    ((entries n es).map Entry.number).Nodup := by
  induction es generalizing n with
  | nil => exact .nil
  | cons f es ih =>
    refine List.nodup_cons.mpr ⟨fun hm => ?_, ih (n + 1)⟩
    obtain ⟨e, he, hn⟩ := List.mem_map.mp hm
    have := entries_bounds he
    simp only at hn
    omega

/-- What has just entered is not charged. -/
theorem entries_pending {x : Register} (hs : ∀ m ∈ x.charged, m < n) :
    (entries n es).map x.pending = SequenceBody.pendingOf es := by
  have hp : ∀ e ∈ entries n es, x.pending e = ⟨e.effect, false⟩ := by
    intro e he
    have hb := entries_bounds he
    refine congrArg (Pending.mk e.effect) (decide_eq_false fun hm => ?_)
    have := hs _ hm
    omega
  rw [List.map_congr_left hp, SequenceBody.pendingOf]
  conv => rhs; rw [← entries_effects n es, List.map_map]
  rfl

end Entries

/-- A head that was charged is not passed over, and behind it nothing was charged yet. -/
def Poised (s : Sequence) : Prop :=
  ∀ head rest, s.body.queue = head :: rest →
    (head.charged = true → s.skips head.effect = false) ∧ ∀ p ∈ rest, p.charged = false

theorem poised_of_empty {s : Sequence} (h : s.body.queue = []) : s.Poised := by
  intro head rest hq
  cases h.symm.trans hq

theorem skips_of_control {s s' : Sequence} (h : s'.body.control = s.body.control) (e : Effect) :
    s'.skips e = s.skips e := by
  rw [skips, h]
  rfl

/-- A sequence stays poised as long as the same effects wait in the same place. -/
theorem Poised.of_sameWork {s s' : Sequence} (h : s.Poised) (hs : s.SameWork s') : s'.Poised := by
  intro head rest hq
  rw [hs.queue] at hq
  rw [skips_of_control hs.control]
  exact h head rest hq

theorem pendingOf_charged {es : List Effect} {p : Pending} (h : p ∈ SequenceBody.pendingOf es) :
    p.charged = false := by
  obtain ⟨e, -, rfl⟩ := List.mem_map.mp h
  rfl

theorem poised_of_uncharged {s : Sequence} (h : ∀ p ∈ s.body.queue, p.charged = false) :
    s.Poised := by
  intro head rest hq
  rw [hq] at h
  obtain ⟨hh, hr⟩ := List.forall_mem_cons.mp h
  exact ⟨fun hc => absurd (hh.symm.trans hc) (by simp), hr⟩

namespace Turn

inductive Moves (t : Turn) : Prop where
  | rests (unfaced : t.before.faces? = none) (taken : t.event.taken? = none)
      (same : t.before.SameWork t.after)
  | enters (effects : List Effect) (taken : t.event.taken? = none)
      (before : t.before.body.queue = [])
      (after : t.after.body.queue = SequenceBody.pendingOf effects)
  /-- The head was charged by now. -/
  | stays (head : Pending) (rest : List Pending) (faced : t.before.faces? = some head)
      (taken : t.event.taken? = none) (before : t.before.body.queue = head :: rest)
      (after : t.after.body.queue = { head with charged := true } :: rest)
      (skips : t.after.skips head.effect = false)
  | leaves (head : Pending) (rest : List Pending) (effects : List Effect)
      (taken : t.event.taken? = some head.effect) (before : t.before.body.queue = head :: rest)
      (after : t.after.body.queue = SequenceBody.pendingOf effects ++ rest)

end Turn

theorem requeues_queue {s s' : SequenceBody} (h : s.Requeues s') :
    ∃ es, s'.queue = s.queue ++ SequenceBody.pendingOf es := by
  cases h with
  | completion => exact ⟨_, rfl⟩
  | refill => exact ⟨_, rfl⟩
  | dry => exact ⟨[], by simp [SequenceBody.pendingOf]⟩

theorem charge_queue {s : SequenceBody} {head : Pending} {rest : List Pending}
    (hq : s.queue = head :: rest) :
    (s.charge head rest).queue = { head with charged := true } :: rest := by
  obtain ⟨e, charged⟩ := head
  cases charged with
  | true => exact hq
  | false => rfl

/-- Every turn leaves the queue as it is, takes its head, or puts others before the rest. -/
theorem Turn.IsStep.moves {t : Turn} (h : t.IsStep) : t.Moves := by
  have hd := h.drains
  obtain ⟨r, host, s, event, s'⟩ := t
  dsimp only at hd
  have waits (hb : s.body.queue = []) :
      ∃ es, s.body.requeued.1.queue = SequenceBody.pendingOf es := by
    obtain ⟨es, he⟩ := requeues_queue s.body.requeued_requeues
    exact ⟨es, by rw [he, hb, List.nil_append]⟩
  cases hd with
  | blocked held =>
    exact .rests (faces?_of_blocked held) rfl ⟨by rw [body_mapBody]; rfl, by rw [body_mapBody]; rfl⟩
  | dry free empty =>
    obtain ⟨es, he⟩ := waits empty
    exact .enters es rfl empty he
  | requeued free empty =>
    obtain ⟨es, he⟩ := waits empty
    exact .enters es rfl empty he
  | skipped head rest free queue skips =>
    exact .leaves head rest [] rfl queue (by rw [body_mapBody]; rfl)
  | waiting head rest free queue skips unpaid =>
    have hs : (Sequence.mk (s.body.charge head rest) s.children).skips head.effect =
        s.skips head.effect := skips_of_control (by simp) _
    exact .stays head rest (faces?_of_head free queue skips) rfl queue (charge_queue queue)
      (hs.trans skips)
  | ran head rest s' free queue skips paid hx =>
    exact .leaves head rest [] rfl queue (execute_queue hx)
  | spliced head rest s' effects free queue skips paid hx =>
    refine .leaves head rest effects rfl queue ?_
    rw [body_mapBody]
    exact congrArg (SequenceBody.pendingOf effects ++ ·) (execute_queue hx)
  | held head rest s' free queue skips paid hx =>
    have hc := execute_control_eq (runStopHandlers r.fuel) (s.takeHead head rest)
      (control_of_execute_hold (congrArg Prod.snd hx)) r host
    rw [hx] at hc
    refine .stays head rest (faces?_of_head free queue skips) rfl queue ?_ ?_
    · rw [body_mapBody]
      exact execute_queue hx
    · refine (skips_of_control ?_ head.effect).trans skips
      rw [body_mapBody]
      exact hc.trans (s.body.charge_control head rest)
  | halted head rest s' why free queue skips paid hx =>
    exact .leaves head rest [] rfl queue (execute_queue hx)

theorem Drains.head_of_skipped {run : StopHandlers Tick} {r : Surroundings} {h : Host}
    {s s' : Sequence} {e : Effect} (hd : s.Drains run r h s' (.skipped e)) :
    ∃ head rest, s.body.queue = head :: rest ∧ head.effect = e ∧ s.skips head.effect = true := by
  cases hd with
  | skipped head rest _ queue skips => exact ⟨head, rest, queue, rfl, skips⟩

/-- Behind the head a turn leaves nothing charged. -/
theorem Turn.Moves.poised {t : Turn} (h : t.Moves) (hp : t.before.Poised) : t.after.Poised := by
  cases h with
  | rests _ _ same => exact hp.of_sameWork same
  | enters effects _ _ after =>
    refine poised_of_uncharged fun p hm => ?_
    rw [after] at hm
    exact pendingOf_charged hm
  | stays head rest _ _ before after skips =>
    intro head' rest' hq
    obtain ⟨rfl, rfl⟩ := List.cons.inj (after.symm.trans hq)
    exact ⟨fun _ => skips, (hp head rest before).2⟩
  | leaves head rest effects _ before after =>
    refine poised_of_uncharged fun p hm => ?_
    rw [after] at hm
    rcases List.mem_append.mp hm with hm | hm
    · exact pendingOf_charged hm
    · exact (hp head rest before).2 p hm

namespace Register

variable {x : Register} {t : Turn} {queue : List Pending}

def due (x : Register) (t : Turn) : List Nat :=
  if t.before.owes?.isSome then (x.waiting.take 1).map Entry.number else []

theorem turn_charged (x : Register) (t : Turn) : (x.turn t).charged = x.charged ++ x.due t := by
  rw [turn, due]
  dsimp only
  split <;> simp

theorem turn_eq {kept : List Entry} {es : List Effect}
    (hk : kept = if t.event.taken?.isSome then x.waiting.tail else x.waiting)
    (hw : t.after.body.work = es ++ kept.map Entry.effect) :
    x.turn t = ⟨entries x.next es ++ kept, x.charged ++ x.due t, x.next + es.length⟩ := by
  have he : t.after.body.work.take (t.after.body.work.length - kept.length) = es := by
    rw [hw]
    simp
  rw [← turn_charged, turn, ← hk, he]

/-- The entries of a queue with a head. -/
theorem Mirrors.cons {head : Pending} {rest : List Pending} (h : x.Mirrors queue)
    (hq : queue = head :: rest) : ∃ e kept, x.waiting = e :: kept ∧ e.effect = head.effect ∧
      (e.number ∈ x.charged ↔ head.charged = true) ∧ rest = kept.map x.pending := by
  have hm := h.queue.symm.trans hq
  cases hw : x.waiting with
  | nil => simp [hw] at hm
  | cons e kept =>
    rw [hw, List.map_cons] at hm
    obtain ⟨rfl, hr⟩ := List.cons.inj hm
    exact ⟨e, kept, rfl, rfl, by simp [pending], hr.symm⟩

/-- A turn records the head if that was not yet charged, and never another entry. -/
theorem Mirrors.due_cases (h : x.Mirrors t.before.body.queue) :
    (t.before.owes? = none ∧ x.due t = []) ∨
      ∃ e kept, x.waiting = e :: kept ∧ x.due t = [e.number] ∧ e.number ∉ x.charged := by
  cases ho : t.before.owes? with
  | none => exact .inl ⟨rfl, by simp [due, ho]⟩
  | some effect =>
    refine .inr ?_
    unfold owes? at ho
    split at ho
    next e hf =>
      obtain ⟨-, -, rest, hq⟩ := head_of_faces? hf
      obtain ⟨entry, kept, hw, -, hc, -⟩ := h.cons hq
      exact ⟨entry, kept, hw, by simp [due, owes?, hf, hw], by simp [hc]⟩
    next => cases ho

/-- What a turn records has a number of its own, which was not recorded before and which no other
entry has. -/
theorem Mirrors.due_fresh (h : x.Mirrors t.before.body.queue) :
    (∀ n ∈ x.due t, n < x.next) ∧ (x.charged ++ x.due t).Nodup ∧
      ∀ e ∈ x.waiting.tail, e.number ∉ x.due t := by
  rcases h.due_cases with ⟨-, hd⟩ | ⟨e, kept, hw, hd, hn⟩
  · rw [hd, List.append_nil]
    exact ⟨by simp, h.once, by simp⟩
  · have ha := h.apart
    rw [hw, List.map_cons, List.nodup_cons] at ha
    rw [hd]
    refine ⟨?_, ?_, fun f hf => ?_⟩
    · simpa using h.given e (by simp [hw])
    · refine List.nodup_append.mpr ⟨h.once, by simp, fun a hm b hb => ?_⟩
      rw [List.mem_singleton.mp hb]
      exact fun he => hn (he ▸ hm)
    · rw [hw] at hf
      rw [List.mem_singleton]
      exact fun he => ha.1 (he ▸ List.mem_map_of_mem hf)

/-- An entry that is faced has been charged after the turn. -/
theorem Mirrors.charged_of_faced {head : Pending} (h : x.Mirrors t.before.body.queue)
    (hf : t.before.faces? = some head) : ∃ e kept, x.waiting = e :: kept ∧
      e.effect = head.effect ∧ e.number ∈ (x.turn t).charged := by
  obtain ⟨-, -, rest, hq⟩ := head_of_faces? hf
  obtain ⟨e, kept, hw, he, hc, -⟩ := h.cons hq
  rw [turn_charged]
  refine ⟨e, kept, hw, he, List.mem_append.mpr ?_⟩
  cases hh : head.charged with
  | true => exact .inl (hc.mpr hh)
  | false =>
    obtain ⟨effect, charged⟩ := head
    cases hh
    exact .inr (by simp [due, owes?, hf, hw])

/-- Whatever leaves a queue and whatever enters it, the register stays true as long as it is
told. -/
theorem Mirrors.next (h : x.Mirrors t.before.body.queue) (kept : List Entry) (es : List Effect)
    (hk : kept = if t.event.taken?.isSome then x.waiting.tail else x.waiting)
    (hq : t.after.body.queue = SequenceBody.pendingOf es ++
      kept.map fun e => ⟨e.effect, decide (e.number ∈ x.charged ++ x.due t)⟩) :
    (x.turn t).Mirrors t.after.body.queue := by
  have hw : t.after.body.work = es ++ kept.map Entry.effect := by
    simp [SequenceBody.work, hq, SequenceBody.pendingOf, Function.comp_def]
  rw [turn_eq hk hw]
  obtain ⟨hd, hn, -⟩ := h.due_fresh
  have hs : kept.Sublist x.waiting := by
    rw [hk]
    split
    · exact List.tail_sublist _
    · exact .refl _
  have hspent : ∀ n ∈ x.charged ++ x.due t, n < x.next := by
    intro n hm
    rcases List.mem_append.mp hm with hm | hm
    · exact h.spent n hm
    · exact hd n hm
  have hgiven : ∀ e ∈ kept, e.number < x.next := fun e he => h.given e (hs.subset he)
  refine ⟨?_, fun e he => ?_, fun n hm => ?_, ?_, hn⟩
  · rw [hq, List.map_append, entries_pending hspent]
    rfl
  · rcases List.mem_append.mp he with he | he
    · exact (entries_bounds he).2
    · exact Nat.lt_of_lt_of_le (hgiven e he) (Nat.le_add_right ..)
  · exact Nat.lt_of_lt_of_le (hspent n hm) (Nat.le_add_right ..)
  · rw [List.map_append]
    refine List.nodup_append.mpr ⟨entries_nodup _ _, h.apart.sublist (hs.map _), ?_⟩
    intro a ha b hb hab
    obtain ⟨e, he, rfl⟩ := List.mem_map.mp ha
    obtain ⟨f, hf, rfl⟩ := List.mem_map.mp hb
    have := (entries_bounds he).1
    have := hgiven f hf
    omega

/-- Entries that are not charged keep their marks. -/
theorem kept_pending {kept : List Entry} (hk : ∀ e ∈ kept, e.number ∉ x.due t) :
    (kept.map fun e => ⟨e.effect, decide (e.number ∈ x.charged ++ x.due t)⟩) =
      kept.map x.pending := by
  refine List.map_congr_left fun e he => ?_
  simp [pending, hk e he]

/-- By cases on what the turn does to the queue. -/
theorem Mirrors.turn (h : x.Mirrors t.before.body.queue) (hm : t.Moves) :
    (x.turn t).Mirrors t.after.body.queue := by
  cases hm with
  | rests unfaced taken same =>
    have hd : x.due t = [] := by simp [due, owes?_of_none unfaced]
    refine h.next x.waiting [] (by rw [taken]; rfl) ?_
    rw [kept_pending (by simp [hd]), ← h.queue]
    exact same.queue
  | enters effects taken before after =>
    have hw : x.waiting = [] := by simpa [before] using h.queue
    refine h.next [] effects (by rw [taken, hw]; rfl) ?_
    rw [after]
    simp
  | stays head rest faced taken before after skips =>
    obtain ⟨e, kept, hw, he, hc⟩ := h.charged_of_faced faced
    obtain ⟨e', kept', hw', -, -, hr⟩ := h.cons before
    obtain ⟨rfl, rfl⟩ := List.cons.inj (hw.symm.trans hw')
    refine h.next (e :: kept) [] (by rw [taken, hw]; rfl) ?_
    rw [turn_charged] at hc
    rw [List.map_cons, kept_pending (by simpa [hw] using h.due_fresh.2.2), ← hr, after, he]
    simp [SequenceBody.pendingOf, hc]
  | leaves head rest effects taken before after =>
    obtain ⟨e, kept, hw, -, -, hr⟩ := h.cons before
    refine h.next kept effects (by rw [taken, hw]; rfl) ?_
    rw [kept_pending (by simpa [hw] using h.due_fresh.2.2), ← hr]
    exact after

/-- What is passed over leaves the queue uncharged. -/
theorem Mirrors.spares {e : Effect} (h : x.Mirrors t.before.body.queue) (hp : t.before.Poised)
    (hs : t.IsStep) (he : t.event = .skipped e) :
    ∃ entry kept, x.waiting = entry :: kept ∧ entry.effect = e ∧
      (x.turn t).Spared entry.number := by
  obtain ⟨head, rest, queue, rfl, skips⟩ := (he ▸ hs.drains).head_of_skipped
  obtain ⟨entry, kept, hw, hee, hc, -⟩ := h.cons queue
  have hu : head.charged = false := by
    refine eq_false_of_ne_true fun hh => ?_
    have := (hp head rest queue).1 hh
    simp [skips] at this
  have ha := h.apart
  rw [hw, List.map_cons, List.nodup_cons] at ha
  have hg := h.given entry (by simp [hw])
  refine ⟨entry, kept, hw, hee,
    ⟨Nat.lt_of_lt_of_le hg (Nat.le_add_right ..), fun f hf => ?_⟩, ?_⟩
  · rw [Register.turn, he, hw] at hf
    rcases List.mem_append.mp hf with hf | hf
    · have := (entries_bounds hf).1
      omega
    · exact fun hn => ha.1 (hn ▸ List.mem_map_of_mem hf)
  · have ho : t.before.owes? = none := owes?_of_none (faces?_of_skips queue skips)
    simp [Register.turn, ho, hc, hu]

/-- No entry comes back. -/
theorem Gone.turn {n : Nat} (h : x.Gone n) (t : Turn) : (x.turn t).Gone n := by
  refine ⟨Nat.lt_of_lt_of_le h.given (Nat.le_add_right ..), fun e he => ?_⟩
  rcases List.mem_append.mp he with he | he
  · have := (entries_bounds he).1
    have := h.given
    omega
  · split at he
    · exact h.left e (List.mem_of_mem_tail he)
    · exact h.left e he

/-- What has left the queue uncharged is never charged later. -/
theorem Spared.turn {n : Nat} (h : x.Spared n) (t : Turn) : (x.turn t).Spared n := by
  refine ⟨h.toGone.turn t, ?_⟩
  unfold Register.turn
  dsimp only
  split
  · refine fun hn => ?_
    rcases List.mem_append.mp hn with hn | hn
    · exact h.uncharged hn
    · obtain ⟨e, he, rfl⟩ := List.mem_map.mp hn
      exact h.left e (List.mem_of_mem_take he) rfl
  · exact h.uncharged

end Register

end EffectMachine.Sequence
