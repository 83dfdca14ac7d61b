import EffectMachine.Proofs.Particle.Owners
import EffectMachine.Proofs.Particle.Stopped
import EffectMachine.Proofs.Sequence.Budgets
import EffectMachine.Proofs.System.Waiting

namespace EffectMachine

namespace Emitter

variable {e e' : Emitter}

/-- What lasts keeps its owner, and stays stopped. -/
theorem Lasts.body (h : e.Lasts e') :
    e'.body = e.body ∨ e'.body = { e.body with stopRequested := true } := by
  obtain ⟨n, hn, hr⟩ := h [] _ rfl
  obtain ⟨y, rfl, hy⟩ := hr.emitter
  obtain rfl : e' = y := by
    cases hn
    rfl
  rcases hy with rfl | rfl
  · exact .inl rfl
  · exact .inr (body_stop e)

theorem Lasts.unstopped (h : e.Lasts e') (hs : e'.body.stopRequested = false) :
    e.body.stopRequested = false := by
  rcases h.body with hb | hb
  · exact hb ▸ hs
  · rw [hb] at hs
    cases hs

end Emitter

theorem Extends.length_le {α : Type} {R : α → α → Prop} {xs ys : List α} (h : Extends R xs ys) :
    xs.length ≤ ys.length := by
  refine Nat.le_of_not_lt fun hl => ?_
  obtain ⟨y, hy, -⟩ := h ys.length xs[ys.length] (List.getElem?_eq_getElem hl)
  exact Nat.lt_irrefl _ (List.getElem?_eq_some_iff.mp hy).1

namespace SequenceBody

def OwnsEmitters (s : SequenceBody) : Prop := ∀ e ∈ s.emitters, e.body.owner = some s.id

/-- The same sequence, which still owns its emitters. -/
structure Hosts (s s' : SequenceBody) : Prop where
  id : s'.id = s.id
  owns : s.OwnsEmitters → s'.OwnsEmitters

variable {s s' : SequenceBody}

theorem Hosts.of_map {f : Emitter → Emitter} (id : s'.id = s.id)
    (emitters : s'.emitters = s.emitters.map f) (hf : ∀ e, (f e).body.owner = e.body.owner) :
    s.Hosts s' where
  id := id
  owns ho e he := by
    rw [emitters] at he
    obtain ⟨d, hd, rfl⟩ := List.mem_map.mp he
    rw [hf, ho d hd, id]

theorem Hosts.of_eq (id : s'.id = s.id) (emitters : s'.emitters = s.emitters) : s.Hosts s' :=
  .of_map (f := fun e => e) id (by rw [emitters, List.map_id']) fun _ => rfl

theorem owner_stop (e : Emitter) : e.stop.body.owner = e.body.owner := by
  rw [Emitter.body_stop]

theorem hosts_stopWhere (s : SequenceBody) (pick : EmitterBody → Bool) :
    s.Hosts (s.stopWhere pick) := by
  refine .of_map rfl rfl fun e => ?_
  split
  · exact owner_stop e
  · rfl

theorem Does.hosts {e : Effect} {flow : Flow} (h : s.Does e s' flow) : s.Hosts s' := by
  cases h with
  | emitter g _ owner =>
    refine ⟨rfl, fun ho d hd => ?_⟩
    rcases List.mem_append.mp hd with hd | hd
    · exact ho d hd
    · rw [List.mem_singleton.mp hd]
      exact owner
  | quieted pick => exact s.hosts_stopWhere pick
  | _ => exact .of_eq rfl rfl

/-- Whatever happens short of a tick, the emitters of a sequence stay its own. -/
theorem lasting_hosts : Lasting Hosts where
  refl _ := .of_eq rfl rfl
  trans _ _ _ h h' := ⟨h'.id.trans h.id, h'.owns ∘ h.owns⟩
  does _ _ _ _ h := h.hosts
  halted s := .of_map rfl (stopEmitters_eq_map s.emitters) owner_stop
  fail s _ := .after _ fun _ => .pure (.of_map rfl (stopEmitters_eq_map s.emitters) owner_stop)
  requeued s := by
    unfold SequenceBody.requeued
    split
    · exact .of_eq rfl rfl
    · dsimp only
      split
      · exact { s.hosts_stopWhere fun g => g.owner = some s.id with }
      · exact .of_eq rfl rfl
  waits _ _ _ _ _ := .of_eq rfl rfl

/-- When the main list is taken up again, all emitters of a sequence are told to stop. -/
theorem requeued_emitters (ho : s.OwnsEmitters) (hr : s.refilled = false)
    (hr' : s.requeued.1.refilled = true) :
    ∀ e ∈ s.requeued.1.emitters, e.body.stopRequested = true := by
  unfold requeued at hr' ⊢
  split at hr'
  next => exact absurd hr' (by simp [enqueue, hr])
  next hc =>
    rw [if_neg hc]
    dsimp only at hr' ⊢
    split at hr'
    next hl =>
      rw [if_pos hl]
      intro e he
      obtain ⟨d, hd, rfl⟩ := List.mem_map.mp he
      rw [if_pos (by simpa using ho d hd), Emitter.body_stop]
    next => exact absurd hr' (by simp [hr])

end SequenceBody

/-- The passes of a sequence through its main list, counted by how often the list was taken up
again, and the pass in which each of its emitters was started. -/
structure Roster where
  pass : Nat
  started : List Nat

namespace Roster

def begin : Roster := ⟨0, []⟩

/-- Whatever has come to some emitters was started in the present pass. -/
def enter (x : Roster) (es : List Emitter) : Roster :=
  { x with started := x.started ++ List.replicate (es.length - x.started.length) x.pass }

/-- The roster after a turn, which may begin another pass. -/
def turn (x : Roster) (t : Sequence.Turn) : Roster :=
  enter { x with pass := x.pass + t.refills.toNat } t.after.body.emitters

def strike (x : Roster) (es : List Emitter) : Roster :=
  { x with started := ((es.zip x.started).filter fun d => !d.1.isExpired).map Prod.snd }

/-- The roster after a tick. The emitters that have expired by its end are let go, unless a fault
stops it before. -/
def tick (x : Roster) (s : Sequence) (m : Sequence.Moment) : Roster :=
  let y := (s.tickTurns m).foldl turn x
  if s.reachesEmitters m && (s.movedEmitters m).1.2.isNone then y.strike (s.movedEmitters m).1.1
  else y

def visit (x : Roster) (s : Sequence) (v : Visit) : Roster :=
  (match v.moment? with
    | some m => x.tick s m
    | none => x).enter (s.visited v).1.1.body.emitters

def after : Roster → Sequence → List Visit → Roster
  | x, _, [] => x
  | x, s, v :: vs => (x.visit s v).after (s.visited v).1.1 vs

/-- The roster tells of each of some emitters, all of one sequence, and of those that were not told
to stop that they were started in the present pass. -/
structure Marks (x : Roster) (id : SequenceId) (es : List Emitter) : Prop where
  length : x.started.length = es.length
  owned : ∀ e ∈ es, e.body.owner = some id
  current : ∀ (i : Nat) (e : Emitter), es[i]? = some e → e.body.stopRequested = false →
    x.started[i]? = some x.pass

variable {x : Roster} {id : SequenceId} {es es' : List Emitter}

theorem length_enter (h : x.started.length ≤ es.length) :
    (x.enter es).started.length = es.length := by
  simp [enter, Nat.add_sub_cancel' h]

theorem enter_started {i : Nat} (hi : i < x.started.length) :
    (x.enter es).started[i]? = x.started[i]? :=
  List.getElem?_append_left hi

theorem enter_new {i : Nat} (hi : x.started.length ≤ i) (hl : i < es.length) :
    (x.enter es).started[i]? = some x.pass := by
  rw [enter, List.getElem?_append_right hi, List.getElem?_replicate, if_pos (by omega)]

/-- As long as all is where it was, those that come are in the present pass. -/
theorem Marks.later (h : x.Marks id es) (hl : Extends Emitter.Lasts es es')
    (ho : ∀ e ∈ es', e.body.owner = some id) : (x.enter es').Marks id es' := by
  have hle : x.started.length ≤ es'.length := h.length ▸ hl.length_le
  refine ⟨length_enter hle, ho, fun i e he hs => ?_⟩
  by_cases hi : i < x.started.length
  · obtain ⟨d, hd⟩ : ∃ d, es[i]? = some d :=
      ⟨_, List.getElem?_eq_getElem (h.length ▸ hi)⟩
    obtain ⟨e', he', hde⟩ := hl i d hd
    obtain rfl : e = e' := Option.some.inj (he.symm.trans he')
    rw [enter_started hi]
    exact h.current i d hd (hde.unstopped hs)
  · exact enter_new (Nat.le_of_not_lt hi) (List.getElem?_eq_some_iff.mp he).1

/-- With the beginning of another pass, none is left that was not told to stop. -/
theorem Marks.again (h : x.Marks id es) (hl : Extends Emitter.Lasts es es')
    (ho : ∀ e ∈ es', e.body.owner = some id) (hs : ∀ e ∈ es', e.body.stopRequested = true)
    (n : Nat) :
    (enter { x with pass := n } es').Marks id es' where
  length := length_enter (h.length ▸ hl.length_le)
  owned := ho
  current i e he hn := by
    rw [hs e (List.mem_of_getElem? he)] at hn
    cases hn

/-- A tick of the emitters themselves starts none of them and stops none. -/
theorem Marks.moved (h : x.Marks id es) (elapsed : Scalar) :
    (advanceEmitters none elapsed es).Always fun y => x.Marks id y.1 := by
  intro r k
  rw [advanceEmitters_eq]
  have hl : (inTurn (Emitter.advance none elapsed) es r k).1.1.length = es.length :=
    length_inTurn es r k
  refine ⟨h.length.trans hl.symm, ?_, fun i e he hs => ?_⟩
  · refine inTurn_all (P := fun e => e.body.owner = some id) (fun e he r k => ?_) es h.owned r k
    exact (e.owner_advance elapsed none r k).trans he
  · have hi : i < es.length := hl ▸ (List.getElem?_eq_some_iff.mp he).1
    have hd := List.getElem?_eq_getElem hi
    refine h.current i _ hd (Bool.eq_false_iff.mpr fun hb => ?_)
    rw [getElem?_inTurn (f := Emitter.advance none elapsed) (r := r) (h := k) hd] at he
    -- What was told to stop before its turn is so after it.
    have hn : e.body.stopRequested = true := by
      rw [← Option.some.inj he]
      split
      next host _ =>
        obtain ⟨b, hk, hx⟩ :=
          Emitter.ticked_of_stopRequested (t := ⟨none, elapsed, r, host⟩) hb
        rw [Emitter.ticked] at hx
        rw [hx, Emitter.body_mk, hk.stopRequested, hb]
      next => exact hb
    rw [hn] at hs
    cases hs

theorem zip_started (hl : x.started.length = es.length) : (es.zip x.started).map Prod.fst = es :=
  List.map_fst_zip (Nat.le_of_eq hl.symm)

/-- The numbers of those that are left are the numbers that they had. -/
theorem strike_started (hl : x.started.length = es.length) {i j : Nat}
    (hj : standing (fun e => !e.isExpired) es i = some j) :
    (x.strike es).started[j]? = x.started[i]? := by
  cases he : es[i]? with
  | none => simp [standing, he] at hj
  | some e =>
    cases hg : e.isExpired with
    | true =>
      rw [standing_of_gone he (by simp [hg])] at hj
      cases hj
    | false =>
      rw [standing_of_kept he (by simp [hg])] at hj
      obtain ⟨n, hn⟩ : ∃ n, x.started[i]? = some n :=
        ⟨_, List.getElem?_eq_getElem (hl ▸ (List.getElem?_eq_some_iff.mp he).1)⟩
      have hz : (es.zip x.started)[i]? = some (e, n) := by
        rw [List.getElem?_zip_eq_some]
        exact ⟨he, hn⟩
      have hc : ((es.zip x.started).take i).countP (fun d => !d.1.isExpired) = j := by
        rw [← Option.some.inj hj]
        conv => rhs; rw [← zip_started hl, ← List.map_take, List.countP_map]
        rfl
      have hf : ((es.zip x.started).filter fun d => !d.1.isExpired)[j]? = some (e, n) := by
        rw [← hc]
        exact getElem?_filter_countP hz (by simp [hg])
      rw [strike, List.getElem?_map, hf, hn]
      rfl

/-- Striking off those that have expired keeps the roster true of the others. -/
theorem Marks.strike (h : x.Marks id es) :
    (x.strike es).Marks id (es.filter fun e => !e.isExpired) := by
  refine ⟨?_, fun e he => h.owned e (List.mem_filter.mp he).1, fun j e he hs => ?_⟩
  · conv => rhs; rw [← zip_started h.length, List.filter_map, List.length_map]
    rw [Roster.strike, List.length_map]
    rfl
  · obtain ⟨i, hi, hj⟩ := exists_standing he
    rw [strike_started h.length hj]
    exact h.current i e hi hs

def Attends (x : Roster) (s : Sequence) : Prop := x.Marks s.body.id s.body.emitters

end Roster

namespace Sequence

open SequenceBody

theorem Turn.IsStep.pathwise {R : SequenceBody → SequenceBody → Prop} (hR : Lasting R) {t : Turn}
    (h : t.IsStep) : t.before.Pathwise R t.after :=
  h.drains.pathwise hR (preserve_runStopHandlers hR _)

/-- A turn that takes the main list up again tells all emitters to stop. -/
theorem Turn.IsStep.emitters_of_refills {t : Turn} (h : t.IsStep) (hr : t.refills = true)
    (ho : t.before.body.OwnsEmitters) :
    ∀ e ∈ t.after.body.emitters, e.body.stopRequested = true := by
  have hd := h.drains
  have hf := h.foundEmpty (.inr hr)
  simp only [refills, Bool.and_eq_true, Bool.not_eq_true'] at hr
  obtain ⟨r, host, s, event, s'⟩ := t
  dsimp only at hd hf hr ho ⊢
  cases hd with
  | dry => exact requeued_emitters ho hr.1 hr.2
  | requeued => exact requeued_emitters ho hr.1 hr.2
  | _ => cases hf

end Sequence

namespace Roster

open Sequence

variable {x : Roster} {s s' : Sequence}

/-- Running effects and stopping leave everything where it is. -/
theorem Attends.later (h : x.Attends s) (hr : s.Pathwise SequenceBody.Remains s')
    (hh : s.Pathwise SequenceBody.Hosts s') : (x.enter s'.body.emitters).Attends s' := by
  have ho := hh.body.owns h.owned
  rw [SequenceBody.OwnsEmitters, hh.body.id] at ho
  rw [Attends, hh.body.id]
  exact Marks.later h hr.body.emitters ho

/-- One turn: what it starts is in the pass that it leaves, and with a new pass all others were told
to stop. -/
theorem Attends.turn {t : Turn} (h : x.Attends t.before) (hs : t.IsStep) :
    (x.turn t).Attends t.after := by
  have hr := hs.pathwise SequenceBody.lasting_remains
  have hh := hs.pathwise SequenceBody.lasting_hosts
  rw [Roster.turn]
  cases hf : t.refills with
  | false => exact h.later hr hh
  | true =>
    have ho := hh.body.owns h.owned
    rw [SequenceBody.OwnsEmitters, hh.body.id] at ho
    rw [Attends, hh.body.id]
    exact Marks.again h hr.body.emitters ho (hs.emitters_of_refills hf h.owned) _

/-- By induction on the turns. -/
theorem Attends.turns {ts : List Turn} (h : x.Attends s) (hl : s.Linked ts) :
    (ts.foldl Roster.turn x).Attends (s.lastOf ts) := by
  induction ts generalizing s x with
  | nil => exact h
  | cons t ts ih =>
    obtain ⟨rfl, hs, hl⟩ := hl
    exact ih (h.turn hs) hl

theorem Attends.ready (h : x.Attends s) (m : Moment) : x.Attends (s.ready m) := by
  rw [Attends, Sequence.ready, earn, body_mapBody]
  exact h

/-- Once the emitters have moved, those that have expired are struck off, unless a fault stops the
tick. -/
theorem Attends.advanceOwned (h : x.Attends s) (elapsed : Scalar) (r : Surroundings) (k : Host) :
    let y := advanceEmitters none elapsed s.body.emitters r k
    (if y.1.2.isNone then x.strike y.1.1 else x).Attends (s.advanceOwned elapsed r k).1.1 := by
  have hm := Marks.moved h elapsed r k
  rw [Sequence.advanceOwned, Tick.run_bind]
  dsimp only
  cases (advanceEmitters none elapsed s.body.emitters r k).1.2 with
  | none => exact hm.strike
  | some why => exact hm

/-- A tick, whether or not it comes to the emitters, and whether or not a fault stops them. -/
theorem Attends.tick (h : x.Attends s) (m : Moment) :
    ((x.tick s m).enter (s.ticked m).1.1.body.emitters).Attends (s.ticked m).1.1 := by
  have settled {y : Roster} {q : Sequence} (hq : y.Attends q) (halt : Option Halt) (k : Host) :
      (y.enter (q.settle halt m.surroundings k).1.1.body.emitters).Attends
        (q.settle halt m.surroundings k).1.1 :=
    hq.later (settle_pathwise SequenceBody.lasting_remains q halt _ _)
      (settle_pathwise SequenceBody.lasting_hosts q halt _ _)
  cases hf : s.isFailed with
  | true =>
    obtain ⟨f, hs⟩ := isFailed_eq_true.mp hf
    have hx : x.tick s m = x := by simp [Roster.tick, tickTurns, reachesEmitters, hf]
    rw [hx, ticked_of_failed hs]
    exact h.later (.refl SequenceBody.lasting_remains.refl s)
      (.refl SequenceBody.lasting_hosts.refl s)
  | false =>
    cases hc : (s.movedChildren m).1.2 with
    | some why =>
      have hx : x.tick s m = x := by simp [Roster.tick, tickTurns, reachesEmitters, hc]
      rw [hx, ticked_of_children_halt hf hc]
      exact Marks.later h (SequenceBody.emitters_refl _) h.owned
    | none =>
      have hd := (h.ready m).turns (s.linked_tickTurns m)
      rw [drained_lastOf hf hc] at hd
      rw [Roster.tick, ticked_eq_settle hf hc]
      generalize (s.tickTurns m).foldl Roster.turn x = y at hd ⊢
      cases hh : (s.drained m).1.2 with
      | some why =>
        have hr : s.reachesEmitters m = false := by simp [reachesEmitters, hh]
        rw [hr]
        exact settled hd _ _
      | none =>
        have hr : s.reachesEmitters m = true := by simp [reachesEmitters, hf, hc, hh]
        rw [hr]
        exact settled (hd.advanceOwned m.elapsed m.surroundings (s.drained m).2) _ _

/-- Every call, and within a tick every turn. -/
theorem Attends.visit (h : x.Attends s) (v : Visit) : (x.visit s v).Attends (s.visited v).1.1 := by
  obtain ⟨call, r, k⟩ := v
  cases call with
  | advance elapsed => exact h.tick ⟨elapsed, r, k⟩
  | stop =>
    exact h.later (stop_pathwise SequenceBody.lasting_remains s r k)
      (stop_pathwise SequenceBody.lasting_hosts s r k)
  | stopRoutine routine =>
    rw [Attends, Roster.visit, visited_body rfl rfl]
    exact Marks.later h (SequenceBody.emitters_refl _) h.owned

/-- By induction on the calls. -/
theorem Attends.after (h : x.Attends s) (vs : List Visit) :
    (x.after s vs).Attends (s.afterVisits vs) := by
  induction vs generalizing s x with
  | nil => exact h
  | cons v vs ih => exact ih (h.visit v)

theorem length_le_enter (x : Roster) (es : List Emitter) :
    x.started.length ≤ (x.enter es).started.length := by
  simp [enter]

/-- Turns count their passes, and change no number. -/
theorem foldl_turn (x : Roster) (ts : List Turn) :
    (ts.foldl Roster.turn x).pass = x.pass + refillsOf ts ∧
      x.started.length ≤ (ts.foldl Roster.turn x).started.length ∧
      ∀ i < x.started.length, (ts.foldl Roster.turn x).started[i]? = x.started[i]? := by
  induction ts generalizing x with
  | nil => exact ⟨rfl, Nat.le_refl _, fun _ _ => rfl⟩
  | cons t ts ih =>
    obtain ⟨hp, hl, hs⟩ := ih (x.turn t)
    have hle := length_le_enter { x with pass := x.pass + t.refills.toNat } t.after.body.emitters
    refine ⟨?_, Nat.le_trans hle hl, fun i hi => ?_⟩
    · have ht : (x.turn t).pass = x.pass + t.refills.toNat := rfl
      rw [List.foldl_cons, hp, ht, refillsOf, refillsOf, List.countP_cons, Nat.add_assoc,
        Nat.add_comm t.refills.toNat]
      cases t.refills <;> rfl
    · rw [List.foldl_cons, hs i (Nat.lt_of_lt_of_le hi hle)]
      exact enter_started hi

def stands? (s : Sequence) (v : Visit) (i : Nat) : Option Nat :=
  match v.moment? with
  | some m => s.emitterStands? m i
  | none => some i

/-- One call, as the roster follows it. -/
structure HandsOver (x : Roster) (s : Sequence) (v : Visit) : Prop where
  /-- A new pass begins each time that the main list is taken up again. -/
  passes : (x.visit s v).pass = x.pass + refillsOf (s.visitTurns v)
  /-- The roster is right within a tick too, after every turn. -/
  turns : ∀ ts t us, s.visitTurns v = ts ++ t :: us →
    ((ts ++ [t]).foldl Roster.turn x).Attends t.after ∧
      (t.refills = true → ∀ e ∈ t.after.body.emitters, e.body.stopRequested = true)
  /-- Whatever is not let go keeps its number. -/
  numbers : ∀ i j, i < s.body.emitters.length → stands? s v i = some j →
    (x.visit s v).started[j]? = x.started[i]?

/-- By the end of a tick whatever is left has the number that it had before. -/
theorem Attends.numbers (h : x.Attends s) {m : Moment} {i j : Nat}
    (hi : i < s.body.emitters.length) (hj : s.emitterStands? m i = some j) :
    (x.tick s m).started[j]? = x.started[i]? := by
  have hi : i < x.started.length := h.length ▸ hi
  have hd := (h.ready m).turns (s.linked_tickTurns m)
  have hs := (foldl_turn x (s.tickTurns m)).2.2 i hi
  rw [Roster.tick]
  rw [emitterStands?] at hj
  split at hj
  next hr =>
    have hn := hr
    simp only [reachesEmitters, Bool.and_eq_true, Bool.not_eq_true',
      Option.isNone_iff_eq_none] at hn
    rw [drained_lastOf hn.1.1.1 hn.1.1.2] at hd
    have hl : (s.movedEmitters m).1.1.length = (s.drained m).1.1.body.emitters.length :=
      length_advanceEmitters _ _ _ _ _
    rw [if_pos hr, strike_started (hd.length.trans hl.symm) hj, hs]
  next hr =>
    obtain rfl := Option.some.inj hj
    rw [if_neg hr, hs]

theorem enter_pass (x : Roster) (es : List Emitter) : (x.enter es).pass = x.pass := rfl

theorem tick_pass (x : Roster) (s : Sequence) (m : Moment) :
    (x.tick s m).pass = x.pass + refillsOf (s.tickTurns m) := by
  rw [← (foldl_turn x (s.tickTurns m)).1, Roster.tick]
  split <;> rfl

/-- Each call hands over as the roster says. -/
theorem Attends.handsOver (h : x.Attends s) (v : Visit) : x.HandsOver s v where
  passes := by
    rw [Roster.visit, enter_pass, visitTurns]
    cases v.moment? with
    | none => rfl
    | some m => exact tick_pass x s m
  turns ts t us ht := by
    rw [visitTurns] at ht
    cases hm : v.moment? with
    | none => simp [hm] at ht
    | some m =>
      have ht : s.tickTurns m = ts ++ t :: us := by rwa [hm] at ht
      obtain ⟨hl, hb, hs, -⟩ := (ht ▸ s.linked_tickTurns m).split
      have hx := (h.ready m).turns hl
      rw [← hb] at hx
      rw [List.foldl_append]
      exact ⟨hx.turn hs, fun hr => hs.emitters_of_refills hr hx.owned⟩
  numbers i j hi hj := by
    have hn : i < x.started.length := h.length ▸ hi
    rw [Roster.visit]
    rw [stands?] at hj
    cases hm : v.moment? with
    | none =>
      rw [hm] at hj
      obtain rfl := Option.some.inj hj
      exact enter_started hn
    | some m =>
      rw [hm] at hj
      have hx := h.numbers hi hj
      have hl : j < (x.tick s m).started.length := by
        rw [List.getElem?_eq_getElem hn] at hx
        exact (List.getElem?_eq_some_iff.mp hx).1
      exact (enter_started hl).trans hx

theorem begin_attends (id : SequenceId) (routine : Routine) (binding : Binding) (rate : Scalar)
    (depth : UInt8) : begin.Attends (.mk (.fresh id routine binding rate depth) []) :=
  ⟨rfl, by simp [SequenceBody.fresh], by simp [SequenceBody.fresh]⟩

end Roster

/-- Whatever is called on a sequence, each emitter of it that still emits, or was at least not told
to stop, was started in the present pass through its main list: after each call and, within a tick,
after every turn. A pass begins where the list is taken up again, and that tells all emitters to
stop which are there. -/
theorem Sequence.passes_hand_over (routine : Routine) (id : SequenceId) (binding : Binding)
    (rate : Scalar) (depth : UInt8) (vs : List Visit) :
    let s := mk (.fresh id routine binding rate depth) []
    let x := Roster.begin.after s vs
    let q := s.afterVisits vs
    x.Attends q ∧
      (∀ (i : Nat) (e : Emitter), q.body.emitters[i]? = some e → e.doneEmitting = false →
        x.started[i]? = some x.pass) ∧
      ∀ v, x.HandsOver q v := by
  intro s x q
  have h : x.Attends q := (Roster.begin_attends id routine binding rate depth).after vs
  refine ⟨h, fun i e he hd => h.current i e he ?_, h.handsOver⟩
  rw [Emitter.doneEmitting, EmitterBody.doneEmitting, Bool.or_eq_false_iff] at hd
  exact hd.1

end EffectMachine
