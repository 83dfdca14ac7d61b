import EffectMachine.Proofs.Particle.SlotFaults
import EffectMachine.Proofs.Sequence.Twins
import EffectMachine.Proofs.System.Views

namespace EffectMachine

open EffectMachine.System

structure ActivationFailure.Alike (ρ : Pairing) (x x' : ActivationFailure) : Prop where
  sequence : ρ.rel x.sequence x'.sequence
  routine : x'.routine = x.routine
  fault : x'.fault = x.fault

theorem ActivationFailure.Alike.mono {ρ σ : Pairing} (hρ : ρ ≤ σ) {x x' : ActivationFailure}
    (h : x.Alike ρ x') : x.Alike σ x' :=
  ⟨hρ _ _ h.sequence, h.routine, h.fault⟩

namespace View

/-- The sequences are related, and the same failures were recorded for them. -/
structure Related (R : Sequence → Sequence → Prop) (ρ : Pairing) (v v' : View) : Prop where
  sequence? : Option.Rel R v.sequence? v'.sequence?
  failures : List.Forall₂ (ActivationFailure.Alike ρ) v.failures v'.failures

abbrev Alike (ρ : Pairing) : View → View → Prop := Related (Sequence.Alike ρ) ρ

abbrev Twin (ρ : Pairing) : View → View → Prop := Related (Sequence.Twin ρ) ρ

variable {ρ : Pairing} {v v' : View} {r : Surroundings}

/-- Twins are alike. -/
theorem Twin.alike (h : v.Twin ρ v') : v.Alike ρ v' := by
  obtain ⟨hq, hf⟩ := h
  refine ⟨?_, hf⟩
  generalize v.sequence? = q at hq ⊢
  generalize v'.sequence? = q' at hq ⊢
  cases hq with
  | none => exact .none
  | some h => exact .some h.alike

theorem alike_failureOf {q q' : Sequence} (h : q.Twin ρ q') (halt : Option Halt) :
    List.Forall₂ (ActivationFailure.Alike ρ) (failureOf q halt) (failureOf q' halt) := by
  unfold failureOf
  split
  · exact .cons ⟨h.body.id, congrArg Routine.id h.body.routine, rfl⟩ .nil
  · exact .nil

/-- A step of both activations leaves them twins, if it does so with their sequences. -/
theorem Twin.step {f f' : Sequence → Tick (Sequence × Option Halt)} (h : v.Twin ρ v')
    (hf : ∀ q q', q.Twin ρ q' → (f q).Twins (f' q') r ρ (Tick.Beside Sequence.Twin)) :
    (v.step f).Twins (v'.step f') r ρ (Tick.Beside Twin) := by
  obtain ⟨q, fs⟩ := v
  obtain ⟨q', fs'⟩ := v'
  obtain ⟨hq, hfs⟩ := h
  dsimp only at hq hfs
  cases hq with
  | none => exact .pure ⟨⟨.none, hfs⟩, rfl⟩
  | some hq =>
    refine .bind_beside (hf _ _ hq) fun σ hσ x x' halt hx => ?_
    have hfs := hfs.imp fun _ _ hy => hy.mono hσ
    exact .pure ⟨⟨.some hx, List.rel_append hfs (alike_failureOf hx _)⟩, rfl⟩

theorem Twin.stopIf {pick pick' : Sequence → Bool} (h : v.Twin ρ v')
    (hp : ∀ q q', q.Twin ρ q' → pick' q' = pick q) (hd : r.directory.IsStill) :
    (v.stopIf pick).Twins (v'.stopIf pick') r ρ Twin := by
  refine .bind_beside (h.step fun q q' hq => ?_) fun σ _ x x' halt hx => .pure hx
  rw [hp q q' hq]
  exact .ite (fun _ => hq.stop hd) fun _ => .pure ⟨hq, rfl⟩

/-- Twins are swept alike. -/
theorem Twin.swept (h : v.Twin ρ v') : v.swept.Twin ρ v'.swept := by
  obtain ⟨q, fs⟩ := v
  obtain ⟨q', fs'⟩ := v'
  obtain ⟨hq, hfs⟩ := h
  refine ⟨?_, hfs⟩
  dsimp only [View.swept] at hq ⊢
  cases hq with
  | none => exact .none
  | @some q q' hq =>
    rw [Option.filter_some, Option.filter_some, hq.isFailed, hq.isComplete]
    split
    · exact .some hq
    · exact .none

end View

/-- What is asked of one activation, as it is asked of another. -/
def Request.toward? (a b : SequenceId) : Request → Option Request
  | stop id => if id = a then some (stop b) else none
  | stopRoutine routine => some (stopRoutine routine)
  | advance elapsed => some (advance elapsed)
  | _ => none

namespace Request

variable {a b : SequenceId} {q q' : Request}

/-- There are three things to ask of an activation that is there. -/
theorem toward?_cases (hq : q.toward? a b = some q') :
    (q = stop a ∧ q' = stop b) ∨ (∃ routine, q = stopRoutine routine ∧ q' = q) ∨
      ∃ elapsed, q = advance elapsed ∧ q' = q := by
  cases q with
  | stop id =>
    obtain ⟨rfl, rfl⟩ : id = a ∧ stop b = q' := by simpa [toward?] using hq
    exact .inl ⟨rfl, rfl⟩
  | stopRoutine routine => exact .inr (.inl ⟨routine, rfl, (Option.some.inj hq).symm⟩)
  | advance elapsed => exact .inr (.inr ⟨elapsed, rfl, (Option.some.inj hq).symm⟩)
  | trigger | start | takeFailures => cases hq

theorem starts?_of_toward? (hq : q.toward? a b = some q') (d : Directory) :
    q'.starts? d = none := by
  obtain ⟨rfl, rfl⟩ | ⟨_, rfl, rfl⟩ | ⟨_, rfl, rfl⟩ := toward?_cases hq <;> rfl

theorem toward?_back (hq : q.toward? a b = some q') : q'.toward? b a = some q := by
  obtain ⟨rfl, rfl⟩ | ⟨_, rfl, rfl⟩ | ⟨_, rfl, rfl⟩ := toward?_cases hq
  · exact if_pos rfl
  · rfl
  · rfl

end Request

section Serving

variable {ρ : Pairing} {v v' : View} {r : Surroundings} {a b : SequenceId} {q q' : Request}

theorem View.serve_elsewhere (hq : q.toward? a b = none) : v.serve a q = pure (v, none) := by
  cases q with
  | stop id =>
    have hid : id ≠ a := by
      intro he
      rw [Request.toward?, if_pos he] at hq
      cases hq
    rw [View.serve, View.stopIf_of_skip fun _ _ => decide_eq_false hid]
    rfl
  | stopRoutine | advance => cases hq
  | trigger | start | takeFailures => rfl

/-- Twins that are asked for the same are twins afterwards. -/
theorem View.Twin.serve (h : v.Twin ρ v') (hq : q.toward? a b = some q')
    (hd : r.directory.IsStill) :
    (v.serve a q).Twins (v'.serve b q') r ρ (Tick.Beside View.Twin) := by
  obtain ⟨rfl, rfl⟩ | ⟨routine, rfl, rfl⟩ | ⟨elapsed, rfl, rfl⟩ := Request.toward?_cases hq
  · exact .bind (h.stopIf (fun _ _ _ => by simp) hd) fun σ _ x x' hx => .pure ⟨hx, rfl⟩
  · refine .bind (h.stopIf (fun p p' hp => ?_) hd) fun σ _ x x' hx => .pure ⟨hx, rfl⟩
    rw [hp.body.routine, hp.body.stopped]
  · refine .bind_beside (h.step fun p p' hp => ?_) fun σ _ x x' halt hx =>
      .ite (fun _ => .pure ⟨hx, rfl⟩) fun _ => .pure ⟨hx.swept, rfl⟩
    unfold Sequence.move
    rw [hp.isFailed]
    exact .ite (fun _ => .pure ⟨hp, rfl⟩) fun _ => hp.advance hd elapsed

end Serving

namespace Ledger

def hostAfter : Ledger → Host → List Occasion → Host
  | _, h, [] => h
  | l, h, o :: os => (l.served h o).1.1.hostAfter (l.served h o).2 os

theorem returns_append {l : Ledger} {h : Host} {os os' : List Occasion} :
    l.Returns h (os ++ os') ↔
      l.Returns h os ∧ (l.after h os).Returns (l.hostAfter h os) os' := by
  induction os generalizing l h with
  | nil => exact (iff_of_eq (true_and _)).symm
  | cons o os ih => exact (and_congr_right fun _ => ih).trans (and_assoc).symm

theorem after_append {l : Ledger} {h : Host} {os os' : List Occasion} :
    l.after h (os ++ os') = (l.after h os).after (l.hostAfter h os) os' := by
  induction os generalizing l h with
  | nil => rfl
  | cons o os ih => exact ih

theorem Named.after {l : Ledger} {h : Host} {os : List Occasion} (hn : l.Named h)
    (hr : l.Returns h os) : (l.after h os).Named (l.hostAfter h os) := by
  induction os generalizing l h with
  | nil => exact hn
  | cons o os ih => exact ih ((hn.later (o.forward h)).serve _ hr.1) hr.2

end Ledger

/-- Two activations in two runs are asked for the same. Whatever else there is in one of the runs is
not asked of its activation. -/
inductive Alongside (a b : SequenceId) : List Occasion → List Occasion → Prop where
  | nil : Alongside a b [] []
  | first (o : Occasion) {os os' : List Occasion} (elsewhere : o.request.toward? a b = none)
      (rest : Alongside a b os os') : Alongside a b (o :: os) os'
  | second (o' : Occasion) {os os' : List Occasion} (elsewhere : o'.request.toward? b a = none)
      (rest : Alongside a b os os') : Alongside a b os (o' :: os')
  | both (o o' : Occasion) {os os' : List Occasion}
      (request : o.request.toward? a b = some o'.request)
      (surroundings : o'.surroundings = o.surroundings) (rest : Alongside a b os os') :
      Alongside a b (o :: os) (o' :: os')

namespace Ledger

variable {ρ : Pairing} {l l' : Ledger} {h h' : Host} {a b : SequenceId} {o o' : Occasion}

theorem view_elsewhere (hn : l.Named h) (ha : a.number < h.nextSequence)
    (ho : o.request.toward? a b = none) (hr : (l.served h o).1.2 ≠ some .outOfFuel) :
    (l.served h o).1.1.view a = l.view a := by
  obtain ⟨k, -, hk, -⟩ := view_serve (hn.later (o.forward h))
    (Nat.lt_of_lt_of_le ha (o.forward h)) o.request hr
  rw [View.serve_elsewhere ho] at hk
  exact congrArg Prod.fst hk.symm

theorem forward_served (l : Ledger) (h : Host) (o : Occasion) :
    h.nextSequence ≤ (l.served h o).2.nextSequence :=
  Nat.le_trans (o.forward h) (forward_serve l o.request o.surroundings (o.meanwhile h))

/-- With one activation in it, a system spends no more fuel than that does. -/
theorem halt_alone {r : Surroundings} {q : Request}
    (hids : (idsOf l.system.sequences).Sublist [b])
    (hr : ((l.view b).serve b q r h).1.2 ≠ some .outOfFuel) :
    (l.serve q r h).1.2 ≠ some .outOfFuel := by
  cases q with
  | advance elapsed =>
    have hl : (l.serve (.advance elapsed) r h).1.2 =
        (advanceIn elapsed l.system.sequences r h).1.2.2 := by
      rw [serve, Tick.run_bind, System.advance, Tick.run_bind]
      dsimp only
      cases (advanceIn elapsed l.system.sequences r h).1.2.2 <;> rfl
    rw [hl]
    cases hqs : l.system.sequences with
    | nil => exact fun ho => by cases ho
    | cons q qs =>
      rw [hqs, idsOf_cons] at hids
      obtain rfl : q.body.id = b := by simpa using hids.subset List.mem_cons_self
      obtain rfl : qs = [] := by simpa [idsOf] using hids.length_le
      have hget : l.system.get? q.body.id = some q := by
        rw [System.get?, hqs, List.find?_cons_of_pos (by simp)]
      rw [advanceIn_cons]
      dsimp only
      split
      next ho =>
        refine absurd ?_ hr
        rw [View.serve, Tick.run_bind, View.step_some hget]
        dsimp only
        rw [if_pos ho]
        exact ho
      next => exact fun ho => by cases ho
  | trigger | start | stop | stopRoutine | takeFailures => exact fun ho => by cases ho

/-- Two activations in two runs have got equally far. -/
structure Abreast (ρ : Pairing) (a b : SequenceId) (l : Ledger) (h : Host) (l' : Ledger)
    (h' : Host) : Prop where
  first : l.Named h
  second : l'.Named h'
  given : ρ.Given h h'
  paired : ρ.rel a b
  twin : (l.view a).Twin ρ (l'.view b)

namespace Abreast

variable (hs : Abreast ρ a b l h l' h')
include hs

theorem first_elsewhere (ho : o.request.toward? a b = none)
    (hr : (l.served h o).1.2 ≠ some .outOfFuel) :
    Abreast ρ a b (l.served h o).1.1 (l.served h o).2 l' h' where
  first := (hs.first.later (o.forward h)).serve _ hr
  second := hs.second
  given := hs.given.later (forward_served l h o) (Nat.le_refl _)
  paired := hs.paired
  twin := by
    rw [view_elsewhere hs.first (hs.given a b hs.paired).1 ho hr]
    exact hs.twin

theorem second_elsewhere (ho : o'.request.toward? b a = none)
    (hr : (l'.served h' o').1.2 ≠ some .outOfFuel) :
    Abreast ρ a b l h (l'.served h' o').1.1 (l'.served h' o').2 where
  first := hs.first
  second := (hs.second.later (o'.forward h')).serve _ hr
  given := hs.given.later (Nat.le_refl _) (forward_served l' h' o')
  paired := hs.paired
  twin := by
    rw [view_elsewhere hs.second (hs.given a b hs.paired).2 ho hr]
    exact hs.twin

variable (hd : o.surroundings.directory.IsStill)
  (hq : o.request.toward? a b = some o'.request) (hsame : o'.surroundings = o.surroundings)
  (hr : (l.served h o).1.2 ≠ some .outOfFuel)
include hd hq hsame hr

/-- What is asked of both activations leaves them abreast. -/
theorem both (hr' : (l'.served h' o').1.2 ≠ some .outOfFuel) :
    ∃ σ, ρ ≤ σ ∧ Abreast σ a b (l.served h o).1.1 (l.served h o).2 (l'.served h' o').1.1
      (l'.served h' o').2 := by
  obtain ⟨request, surroundings, meanwhile, forward⟩ := o'
  obtain rfl : surroundings = o.surroundings := hsame
  obtain ⟨ha, hb⟩ := hs.given a b hs.paired
  have hn := hs.first.later (o.forward h)
  have hn' := hs.second.later (forward h')
  obtain ⟨k, hk, hx, hkl⟩ := view_serve hn (Nat.lt_of_lt_of_le ha (o.forward h)) o.request hr
  obtain ⟨k', hk', hx', hkl'⟩ := view_serve hn' (Nat.lt_of_lt_of_le hb (forward h')) request hr'
  have hg : ρ.Given k k' := hs.given.later (Nat.le_trans (o.forward h) hk)
    (Nat.le_trans (forward h') hk')
  obtain ⟨σ, hσ, hgσ, htwin, -⟩ := hs.twin.serve hq hd k k' hg
  rw [hx, hx'] at htwin
  exact ⟨σ, hσ, hn.serve _ hr, hn'.serve _ hr', hgσ.later hkl hkl', hσ _ _ hs.paired, htwin⟩

/-- Where there is no other activation, a request comes back if it does among others. -/
theorem returns (hids : (idsOf l'.system.sequences).Sublist [b]) :
    (l'.served h' o').1.2 ≠ some .outOfFuel := by
  obtain ⟨ha, hb⟩ := hs.given a b hs.paired
  obtain ⟨k, hk, hx, -⟩ := view_serve (hs.first.later (o.forward h))
    (Nat.lt_of_lt_of_le ha (o.forward h)) o.request hr
  have hg : ρ.Given k (o'.meanwhile h') := hs.given.later (Nat.le_trans (o.forward h) hk)
    (o'.forward h')
  obtain ⟨σ, -, -, -, hhalt⟩ := hs.twin.serve hq hd k _ hg
  refine halt_alone hids ?_
  rw [hsame, hhalt, hx]
  simp

end Abreast

/-- By induction on what is asked of both. -/
theorem Abreast.after {os os' : List Occasion} (ht : Alongside a b os os')
    (hd : ∀ o ∈ os, o.surroundings.directory.IsStill) (hs : Abreast ρ a b l h l' h')
    (hr : l.Returns h os) (hr' : l'.Returns h' os') :
    ∃ σ : Pairing, σ.rel a b ∧ ((l.after h os).view a).Twin σ ((l'.after h' os').view b) := by
  induction ht generalizing ρ l h l' h' with
  | nil => exact ⟨ρ, hs.paired, hs.twin⟩
  | first o elsewhere _ ih =>
    exact ih (List.forall_mem_cons.mp hd).2 (hs.first_elsewhere elsewhere hr.1) hr.2 hr'
  | second o' elsewhere _ ih => exact ih hd (hs.second_elsewhere elsewhere hr'.1) hr hr'.2
  | both o o' request surroundings _ ih =>
    obtain ⟨hdo, hd⟩ := List.forall_mem_cons.mp hd
    obtain ⟨σ, -, hs⟩ := hs.both hdo request surroundings hr.1 hr'.1
    exact ih hd hs hr.2 hr'.2

/-- With nothing else in its run, an activation spends no more fuel than it does among others. -/
theorem Abreast.returns_alone {os os' : List Occasion} (ht : Alongside a b os os')
    (hd : ∀ o ∈ os, o.surroundings.directory.IsStill) (hs : Abreast ρ a b l h l' h')
    (hids : (idsOf l'.system.sequences).Sublist [b])
    (halone : ∀ o' ∈ os', (o'.request.toward? b a).isSome = true) (hr : l.Returns h os) :
    l'.Returns h' os' := by
  induction ht generalizing ρ l h l' h' with
  | nil => trivial
  | first o elsewhere _ ih =>
    exact ih (List.forall_mem_cons.mp hd).2 (hs.first_elsewhere elsewhere hr.1) hids halone hr.2
  | second o' elsewhere _ ih =>
    have hsome := (List.forall_mem_cons.mp halone).1
    rw [elsewhere] at hsome
    cases hsome
  | both o o' request surroundings _ ih =>
    obtain ⟨hdo, hd⟩ := List.forall_mem_cons.mp hd
    have hr' := hs.returns hdo request surroundings hr.1 hids
    obtain ⟨σ, -, hs⟩ := hs.both hdo request surroundings hr.1 hr'
    have hw := Within.serve (Request.starts?_of_toward? request _) hr'
    exact ⟨hr', ih hd hs (hw.ids.trans hids)
      (List.forall_mem_cons.mp halone).2 hr.2⟩

/-- An activation at its start, with nothing recorded. -/
theorem view_born {r : Surroundings} {q : Request} {x : Routine × Binding} (hn : l.Named h)
    (hx : q.starts? r.directory = some x) :
    (l.serve q r h).1.1.view ⟨h.nextSequence⟩ =
      ⟨some (.mk (.fresh ⟨h.nextSequence⟩ x.1 x.2 r.config.playbackRate 0) []), []⟩ := by
  let s : Sequence := .mk (.fresh ⟨h.nextSequence⟩ x.1 x.2 r.config.playbackRate 0) []
  have hlater : h.nextSequence < (l.serve q r h).2.nextSequence := by
    rw [serve_of_starts hx]
    exact Nat.lt_succ_self _
  have hstarted := hn.started (q := s) rfl hlater
  have hget : (l.system.sequences ++ [s]).find? (fun p => p.body.id = ⟨h.nextSequence⟩) = some s :=
    find?_named hstarted.once
  have hrecorded : l.recorded.filter (fun y => y.sequence = ⟨h.nextSequence⟩) = [] := by
    refine List.filter_eq_nil_iff.mpr fun y hy => ?_
    have hlt := hn.known _ (List.mem_map_of_mem hy)
    simpa using fun he : y.sequence = ⟨h.nextSequence⟩ => Nat.lt_irrefl _ (he ▸ hlt)
  rw [serve_of_starts hx]
  exact congrArg₂ View.mk hget hrecorded

theorem halt_of_starts {r : Surroundings} {q : Request} {x : Routine × Binding}
    (hx : q.starts? r.directory = some x) : (l.serve q r h).1.2 ≠ some .outOfFuel := by
  rw [serve_of_starts hx]
  exact fun ho => by cases ho

/-- Two activations that start the same routine set out alike. -/
theorem abreast_born {r : Surroundings} {q : Request} {x : Routine × Binding} (hn : l.Named h)
    (hn' : l'.Named h') (hx : q.starts? r.directory = some x) (hstill : x.1.IsStill) :
    Abreast (.single ⟨h.nextSequence⟩ ⟨h'.nextSequence⟩) ⟨h.nextSequence⟩ ⟨h'.nextSequence⟩
      (l.serve q r h).1.1 (l.serve q r h).2 (l'.serve q r h').1.1 (l'.serve q r h').2 where
  first := hn.serve q (halt_of_starts hx)
  second := hn'.serve q (halt_of_starts hx)
  given a b hr := by
    obtain ⟨rfl, rfl⟩ := hr
    rw [serve_of_starts hx, serve_of_starts hx]
    exact ⟨Nat.lt_succ_self _, Nat.lt_succ_self _⟩
  paired := ⟨rfl, rfl⟩
  twin := by
    rw [view_born hn hx, view_born hn' hx]
    have hpaired : (Pairing.single ⟨h.nextSequence⟩ ⟨h'.nextSequence⟩).rel
        ⟨h.nextSequence⟩ ⟨h'.nextSequence⟩ := ⟨rfl, rfl⟩
    exact ⟨.some (Sequence.twin_mk.mpr ⟨.fresh hpaired hstill x.2 _ 0, .nil⟩), .nil⟩

end Ledger

structure Career where
  host : Host
  before : List Occasion
  birth : Occasion
  after : List Occasion

namespace Career

def run (c : Career) : List Occasion := c.before ++ c.birth :: c.after

def Returns (c : Career) : Prop := Ledger.Returns {} c.host c.run

def name (c : Career) : SequenceId :=
  ⟨(c.birth.meanwhile (Ledger.hostAfter {} c.host c.before)).nextSequence⟩

def view (c : Career) : View := (Ledger.after {} c.host c.run).view c.name

/-- The activation starts a still routine, and whatever it finds later is still. -/
structure IsStill (c : Career) : Prop where
  birth : ∃ x, c.birth.request.starts? c.birth.surroundings.directory = some x ∧ x.1.IsStill
  after : ∀ o ∈ c.after, o.surroundings.directory.IsStill

/-- Two activations start the same and are asked for the same. -/
structure Alongside (c c' : Career) : Prop where
  request : c'.birth.request = c.birth.request
  surroundings : c'.birth.surroundings = c.birth.surroundings
  after : EffectMachine.Alongside c.name c'.name c.after c'.after

/-- The activation without the others: it starts in a new system, and is asked for the same. -/
def alone (c : Career) (h : Host) : Career where
  host := h
  before := []
  birth := .alone c.birth.surroundings c.birth.request
  after := c.after.filterMap fun o =>
    (o.request.toward? c.name ⟨h.nextSequence⟩).map (.alone o.surroundings)

variable {c c' : Career}

/-- An activation among others goes alongside itself without them. -/
theorem alongside_alone (c : Career) (h : Host) : c.Alongside (c.alone h) := by
  refine ⟨rfl, rfl, ?_⟩
  change EffectMachine.Alongside c.name ⟨h.nextSequence⟩ c.after (c.alone h).after
  unfold alone
  dsimp only
  induction c.after with
  | nil => exact .nil
  | cons o os ih =>
    cases hq : o.request.toward? c.name ⟨h.nextSequence⟩ with
    | none =>
      rw [List.filterMap_cons_none (by rw [hq]; rfl)]
      exact .first o hq ih
    | some q =>
      rw [List.filterMap_cons_some (by rw [hq]; rfl)]
      exact .both o _ hq rfl ih

/-- The system as the activation has just started, with its host. -/
def born (c : Career) : Ledger × Host :=
  let x := (Ledger.after {} c.host c.before).served (Ledger.hostAfter {} c.host c.before) c.birth
  (x.1.1, x.2)

theorem view_eq (c : Career) : c.view = (c.born.1.after c.born.2 c.after).view c.name :=
  congrArg (Ledger.view · c.name) Ledger.after_append

theorem returns_iff : c.Returns ↔ Ledger.Returns {} c.host c.before ∧
    ((Ledger.after {} c.host c.before).served (Ledger.hostAfter {} c.host c.before)
      c.birth).1.2 ≠ some .outOfFuel ∧ c.born.1.Returns c.born.2 c.after :=
  Ledger.returns_append

theorem abreast_born (hs : c.IsStill) (ht : c.Alongside c')
    (hr : Ledger.Returns {} c.host c.before) (hr' : Ledger.Returns {} c'.host c'.before) :
    ∃ ρ, Ledger.Abreast ρ c.name c'.name c.born.1 c.born.2 c'.born.1 c'.born.2 := by
  obtain ⟨x, hx, hstill⟩ := hs.birth
  have hn := ((Ledger.named_empty c.host).after hr).later (c.birth.forward _)
  have hn' := ((Ledger.named_empty c'.host).after hr').later (c'.birth.forward _)
  refine ⟨.single c.name c'.name, ?_⟩
  unfold born Ledger.served
  rw [ht.request, ht.surroundings]
  exact Ledger.abreast_born hn hn' hx hstill

/-- The activation returns alone if it does so among others. -/
theorem returns_alone (hs : c.IsStill) (hr : c.Returns) (h : Host) : (c.alone h).Returns := by
  obtain ⟨x, hx, hstill⟩ := hs.birth
  obtain ⟨hbefore, -, hafter⟩ := returns_iff.mp hr
  have ht := c.alongside_alone h
  obtain ⟨ρ, hborn⟩ := abreast_born hs ht hbefore trivial
  have hids : idsOf (c.alone h).born.1.system.sequences = [⟨h.nextSequence⟩] := by
    change idsOf (Ledger.serve {} c.birth.request c.birth.surroundings h).1.1.system.sequences = _
    rw [Ledger.serve_of_starts hx]
    rfl
  refine returns_iff.mpr ⟨trivial, Ledger.halt_of_starts hx, ?_⟩
  refine hborn.returns_alone ht.after hs.after ?_ (fun o' ho' => ?_) hafter
  · rw [hids]
    exact List.Sublist.refl _
  · obtain ⟨o, -, ho⟩ := List.mem_filterMap.mp ho'
    obtain ⟨q, hq, rfl⟩ := Option.map_eq_some_iff.mp ho
    exact Option.isSome_of_eq_some (Request.toward?_back hq)

theorem alike_of_alongside (hs : c.IsStill) (hr : c.Returns) (ht : c.Alongside c')
    (hr' : c'.Returns) : ∃ ρ : Pairing, ρ.rel c.name c'.name ∧ c.view.Alike ρ c'.view := by
  obtain ⟨hbefore, -, hafter⟩ := returns_iff.mp hr
  obtain ⟨hbefore', -, hafter'⟩ := returns_iff.mp hr'
  obtain ⟨ρ, hborn⟩ := abreast_born hs ht hbefore hbefore'
  obtain ⟨σ, hpaired, htwin⟩ := hborn.after ht.after hs.after hafter hafter'
  rw [view_eq, view_eq]
  exact ⟨σ, hpaired, htwin.alike⟩

end Career

/-- An activation that draws nothing is not disturbed by others. What becomes of it is, but for
names, what would become of it alone; and it is the same in any two runs where it is asked for the
same. -/
theorem activations_apart (c : Career) (hs : c.IsStill) (hr : c.Returns) :
    (∀ h, (c.alone h).Returns ∧
      ∃ ρ : Pairing, ρ.rel c.name (c.alone h).name ∧ c.view.Alike ρ (c.alone h).view) ∧
    ∀ c', c.Alongside c' → c'.Returns →
      ∃ ρ : Pairing, ρ.rel c.name c'.name ∧ c.view.Alike ρ c'.view := by
  refine ⟨fun h => ?_, fun c' ht hr' => Career.alike_of_alongside hs hr ht hr'⟩
  have halone := Career.returns_alone hs hr h
  exact ⟨halone, Career.alike_of_alongside hs hr (c.alongside_alone h) halone⟩

/-- Emits with a generator, while a child waits. -/
def Routine.lantern : Routine where
  id := ⟨1, 0, 0, 0⟩
  origin := ResourcePath.root
  effects := [⟨0, 0, .spawnGenerator ⟨2, 0, 0, 0⟩⟩, ⟨0, 0, .spawnRoutine ⟨3, 0, 0, 0⟩ true⟩]
  onComplete := []
  onStop := []
  autoRun := false

/-- The routine with its generator and its child. -/
def Surroundings.lantern : Surroundings :=
  let root := ResourcePath.root
  let glow : Generator := { Generator.plain [] [] with id := ⟨2, 0, 0, 0⟩ }
  let wick : Routine := { Routine.lantern with id := ⟨3, 0, 0, 0⟩, effects := [⟨100, 0, .wait⟩] }
  { bare with
    directory := ((({} : Directory).insert root Routine.lantern.id (.routine .lantern)).insert root
      glow.id (.generator glow)).insert root wick.id (.routine wick) }

/-- Fails in its first tick. -/
def Routine.broken : Routine := { Routine.lantern with effects := [⟨0, 0, .endBlock⟩] }

/-- One activation among others: the first fails, a later one is stopped. -/
def Career.crowded : Career where
  host := .fresh
  before := [.alone .lantern (.start .broken .weather)]
  birth := .alone .lantern (.trigger Routine.lantern.id .everywhere .weather)
  after := [.advance 1, .start .lantern .weather, .advance 1, .stop ⟨4⟩, .advance 1].map
    (.alone .lantern)

/-- It is the first, and the others are all there until the end. -/
def Career.early : Career where
  host := { Host.fresh with rng := .ofSeed 7, nextSequence := 5 }
  before := []
  birth := .alone .lantern (.trigger Routine.lantern.id .everywhere .weather)
  after := [.start .lantern .weather, .advance 1, .advance 1, .advance 1].map (.alone .lantern)

def View.counts (v : View) : Option (Nat × List Nat) :=
  v.sequence?.map fun q => (q.children.length, q.body.emitters.map (·.particles.length))

/-- Whether others fail, are stopped or go on, it comes to the same. -/
theorem crowded_apart :
    Career.crowded.IsStill ∧ Career.crowded.Returns ∧ Career.crowded.Alongside .early ∧
      Career.early.Returns ∧ Career.crowded.view.counts = some (1, [3]) ∧
      (∃ ρ : Pairing, ρ.rel ⟨2⟩ ⟨1⟩ ∧
        Career.crowded.view.Alike ρ (Career.crowded.alone .fresh).view) ∧
      ∃ ρ : Pairing, ρ.rel ⟨2⟩ ⟨5⟩ ∧ Career.crowded.view.Alike ρ Career.early.view := by
  have hname : Career.crowded.name = ⟨2⟩ := by decide +kernel
  have hname' : Career.early.name = ⟨5⟩ := by decide +kernel
  have hlantern : Routine.lantern.IsStill := ⟨by decide, by decide, by decide⟩
  have hdirectory : Surroundings.lantern.directory.IsStill := by
    refine .insert (.insert (.insert Directory.isStill_empty _ ?_) _ ?_) _ ?_
    · exact hlantern
    · exact ⟨rfl, rfl, by decide, by decide, by decide⟩
    · exact ⟨by decide, by decide, by decide⟩
  have hs : Career.crowded.IsStill := by
    refine ⟨⟨(.lantern, .weather), by decide +kernel, hlantern⟩, fun o ho => ?_⟩
    obtain ⟨request, -, rfl⟩ := List.mem_map.mp ho
    exact hdirectory
  have hr : Career.crowded.Returns :=
    ⟨by decide +kernel, by decide +kernel, by decide +kernel, by decide +kernel,
      by decide +kernel, by decide +kernel, by decide +kernel, trivial⟩
  have hr' : Career.early.Returns :=
    ⟨by decide +kernel, by decide +kernel, by decide +kernel, by decide +kernel,
      by decide +kernel, trivial⟩
  have ht : Career.crowded.Alongside .early := by
    refine ⟨rfl, rfl, ?_⟩
    rw [hname, hname']
    exact .second _ rfl <| .both _ _ rfl rfl <| .first _ rfl <| .both _ _ rfl rfl <|
      .first _ rfl <| .both _ _ rfl rfl .nil
  have hapart := activations_apart .crowded hs hr
  refine ⟨hs, hr, ht, hr', by decide +kernel, ?_, ?_⟩
  · exact hname ▸ (hapart.1 .fresh).2
  · exact hname ▸ hname' ▸ hapart.2 .early ht hr'

end EffectMachine
