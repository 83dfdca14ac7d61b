import EffectMachine.Proofs.Particle.SlotFaults
import EffectMachine.Proofs.System.Accounting
import EffectMachine.Proofs.Track

namespace EffectMachine

open EffectMachine.System
open Sequence (Moment)

namespace Node

/-- In the node itself: no live particle, no sound and no emission to come. -/
def isIdle : Node → Bool
  | .particle p => !p.isLive && p.body.sounds.isEmpty
  | .emitter e => e.doneEmitting
  | _ => true

/-- The node is idle, and so is all that is below it. -/
def Quiet (n : Node) : Prop := ∀ a c, n.at? a = some c → c.isIdle = true

theorem isIdle_of_isOver {n : Node} (hn : n.isOver = true) : n.isIdle = true := by
  cases n with
  | particle p =>
    have hn : p.isComplete = true := hn
    simp only [Particle.isComplete, Bool.and_eq_true] at hn
    simp [isIdle, Particle.isLive, hn]
  | emitter e => exact (Bool.and_eq_true_iff.mp hn).1
  | sequence | system => rfl

theorem quiet_of_isOver {n : Node} (hn : n.isOver = true) : n.Quiet :=
  fun _ _ hc => isIdle_of_isOver (isOver_of_at? hn hc).1

/-- The turn of a particle finds it with the body that it had. -/
theorem turnAt?_particle {n : Node} {τ : NodeTick} {a : Place} {p : Particle} {x : Node × NodeTick}
    (hn : n.Suits τ) (hp : n.at? a = some (.particle p)) (hx : turnAt? a n τ = some x) :
    ∃ q g u, x = (.particle q, .particle g u) ∧ q.body = p.body := by
  obtain ⟨c, hc, hr⟩ := lasts_of_turnAt? hp hx [] _ rfl
  obtain ⟨q, rfl, hq⟩ := hr.particle
  have hs := suits_of_turnAt? hn hx
  obtain ⟨d, τ'⟩ := x
  obtain rfl : d = .particle q := Option.some.inj hc
  cases τ' with
  | particle g u => exact ⟨q, g, u, rfl, hq⟩
  | _ => cases hs

/-- What is let go has failed or is quiet. -/
theorem quiet_of_stands? {n : Node} {τ : NodeTick} {b : Branch} {x : Node × NodeTick}
    (hx : n.turn? τ b = some x) (hn : n.stands? τ b = none) :
    (x.1.ticked x.2).hasFailed = true ∨ (x.1.ticked x.2).Quiet :=
  (Bool.or_eq_true_iff.mp (isGone_of_turn? hx hn)).imp_right quiet_of_isOver

end Node

namespace Sequence

theorem stop_lasts (s : Sequence) : s.stop.Always fun x => s.Lasts x.1 :=
  (stop_pathwise SequenceBody.lasting_remains s).mono fun _ hx => hx.lasts

end Sequence

namespace System

def Lasts (s s' : System) : Prop := (Node.system s).Lasts (.system s')

variable {s s' : System}

theorem lasts_of_sequences (h : Extends Sequence.Lasts s.sequences s'.sequences) : s.Lasts s' := by
  refine Node.lasts_of_owned ⟨s', rfl⟩ fun k => ?_
  cases k with
  | particle | emitter => exact .nil
  | sequence => exact .map_map h

theorem Lasts.trans {s'' : System} (h : s.Lasts s') (h' : s'.Lasts s'') : s.Lasts s'' :=
  Node.Lasts.trans h h'

theorem stopIn_lasts (id : SequenceId) (qs : List Sequence) :
    (stopIn id qs).Always fun x => Extends Sequence.Lasts qs x.1 := by
  induction qs with
  | nil => exact .pure .nil
  | cons q qs ih =>
    unfold stopIn
    split
    · exact .bind q.stop_lasts fun x hx => .pure (.cons hx (.refl Sequence.Lasts.refl qs))
    · exact .bind ih fun x hx => .pure (.cons (.refl q) hx)

theorem stop_lasts (s : System) (id : SequenceId) : (s.stop id).Always fun x => s.Lasts x.1 :=
  .bind (stopIn_lasts id s.sequences) fun _ hx => .pure (lasts_of_sequences hx)

theorem stopEach_lasts (ids : List SequenceId) (s : System) :
    (s.stopEach ids).Always fun x => s.Lasts x.1 := by
  induction ids generalizing s with
  | nil => exact .pure (Node.Lasts.refl _)
  | cons id ids ih =>
    exact .bind (s.stop_lasts id) fun x hx => .bind (ih x.1) fun y hy => .pure (hx.trans hy)

theorem start_lasts (s : System) (r : Routine) (b : Binding) :
    (s.start r b).Always fun x => s.Lasts x.1 :=
  .after _ fun _ => .after _ fun q => .pure
    (lasts_of_sequences (.append Sequence.Lasts.refl s.sequences [q]))

theorem trigger_lasts (s : System) (id : ResourceId) (scope : SearchScope) (b : Binding) :
    (s.trigger id scope b).Always fun x => s.Lasts x.1 := by
  refine .after _ fun r => ?_
  split
  · exact .after _ fun _ => .pure (Node.Lasts.refl _)
  · exact .bind (s.start_lasts _ b) fun _ hx => .pure hx

/-- What becomes of a live particle in a tick of a system. -/
inductive Fate (s : System) (m : Moment) (a : Place) (p : Particle) : Prop where
  /-- It is there, with the body that its own turn, if it has one, has given to it. -/
  | stays (a' : Place) (q q' : Particle)
      (leads : Node.track a (.system s) (.system m) = some a')
      (turned : Node.outcome a (.system s) (.system m) (.particle p) = .particle q)
      (there : (Node.system (s.ticked m)).at? a' = some (.particle q')) (same : q'.body = q.body)
  /-- Its own turn has found it live and left it expired. -/
  | expires (q : Particle) (g : Generator) (u : ParticleTick)
      (turn : Node.turnAt? a (.system s) (.system m) = some (.particle q, .particle g u))
      (same : q.body = p.body) (live : q.isLive = true)
      (expired : (q.ticked g u).1.1.isExpired = true)
  /-- A sequence above it has failed, by the turn of that sequence. -/
  | fails (b : Place) (q : Sequence) (u : Moment) (above : b <+: a)
      (turn : Node.turnAt? b (.system s) (.system m) = some (.sequence q, .sequence u))
      (failed : (q.ticked u).1.1.isFailed = true)

theorem isLive_of_body {p q : Particle} (hb : q.body = p.body) (hp : p.isLive = true) :
    q.isLive = true := by
  have hc : p.body.carrier = false := by simpa using (Bool.and_eq_true_iff.mp hp).1
  simpa [Particle.isLive, Particle.isExpired, hb, hc] using hp

/-- A live particle has one of these fates in every tick. -/
theorem fate_of_live {a : Place} {p : Particle} (m : Moment)
    (hp : (Node.system s).at? a = some (.particle p)) (hl : p.isLive = true) : s.Fate m a p := by
  have suits : (Node.system s).Suits (.system m) := trivial
  cases ht : Node.track a (.system s) (.system m) with
  | some a' =>
    obtain ⟨c, hc, hr⟩ := Node.track_some hp ht
    have turned : ∃ q, Node.outcome a (.system s) (.system m) (.particle p) = .particle q := by
      rw [Node.outcome]
      cases hx : Node.turnAt? a (.system s) (.system m) with
      | none => exact ⟨p, rfl⟩
      | some x =>
        obtain ⟨q, g, u, rfl, -⟩ := Node.turnAt?_particle suits hp hx
        exact ⟨_, rfl⟩
    obtain ⟨q, hq⟩ := turned
    rw [hq] at hr
    obtain ⟨q', rfl, hb⟩ := hr.particle
    exact .stays a' q q' ht hq hc hb
  | none =>
    rcases Node.track_none hp rfl ht with ⟨x, hx, hd⟩ | ⟨b, x, hb, hx, hf⟩
    · obtain ⟨q, g, u, rfl, hq⟩ := Node.turnAt?_particle suits hp hx
      have hd : (q.ticked g u).1.1.isComplete = true := hd
      simp only [Particle.isComplete, Bool.and_eq_true] at hd
      exact .expires q g u hx hq (isLive_of_body hq hl) hd.1.1.1.1
    · have hs := Node.suits_of_turnAt? suits hx
      obtain ⟨c, τ⟩ := x
      cases c <;> cases τ
      case sequence.sequence q u => exact .fails b q u hb hx hf
      all_goals first
        | exact False.elim hs
        | exact absurd hf Bool.false_ne_true

end System

namespace Ledger

/-- A request other than a tick leaves everything where it is. -/
theorem served_lasts (l : Ledger) (h : Host) (o : Occasion) (ho : o.request.isAdvance = false) :
    l.system.Lasts (l.served h o).1.1.system := by
  rw [served]
  generalize o.meanwhile h = h
  cases hq : o.request with
  | trigger routine scope binding =>
    exact l.system.trigger_lasts routine scope binding o.surroundings h
  | start routine binding => exact l.system.start_lasts routine binding o.surroundings h
  | stop id => exact l.system.stop_lasts id o.surroundings h
  | stopRoutine routine => exact l.system.stopEach_lasts _ o.surroundings h
  | advance elapsed =>
    rw [hq] at ho
    cases ho
  | takeFailures => exact lasts_of_sequences (.refl Sequence.Lasts.refl _)

end Ledger

/-- In any step of any run nothing is dropped that is alive. A live particle that a tick leaves
nowhere has expired by its own turn, or a sequence above it has failed; no two particles come to be
at one place; and other requests leave everything where it is. Wherever in a tick a node lets go of
what it owns, that has failed, or it is quiet with all that is below it; the rest is where it is
said to stand. -/
theorem nothing_alive_is_dropped (l : Ledger) (h : Host) (o : Occasion) :
    (∀ elapsed, o.request = .advance elapsed →
      let m : Moment := ⟨elapsed, o.surroundings, o.meanwhile h⟩
      (l.served h o).1.1.system = l.system.ticked m ∧
        (∀ a p, (Node.system l.system).at? a = some (.particle p) → p.isLive = true →
          l.system.Fate m a p) ∧
        ∀ a b a', Node.track a (.system l.system) (.system m) = some a' →
          Node.track b (.system l.system) (.system m) = some a' → a = b) ∧
    (o.request.isAdvance = false → l.system.Lasts (l.served h o).1.1.system) ∧
    ∀ (n : Node) (τ : NodeTick) (b : Branch),
      (∀ x, n.turn? τ b = some x → n.stands? τ b = none →
        (x.1.ticked x.2).hasFailed = true ∨ (x.1.ticked x.2).Quiet) ∧
      ∀ c, (n.owned b.kind)[b.index]? = some c →
        (n.turn? τ b = none → n.stands? τ b = some b.index) ∧
          ∀ j, n.stands? τ b = some j →
            ∃ c', ((n.ticked τ).owned b.kind)[j]? = some c' ∧ (n.turned τ b c).Lasts c' := by
  refine ⟨fun elapsed hq => ⟨?_, fun a p hp hl => fate_of_live _ hp hl,
    fun a b a' ha hb => Node.track_inj ha hb⟩, l.served_lasts h o, fun n τ b =>
      ⟨fun x hx hn => Node.quiet_of_stands? hx hn, fun c hc =>
        ⟨Node.stands?_of_turn? hc, fun j hj => ?_⟩⟩⟩
  · rw [Ledger.served, hq]
    rfl
  · have hf := Node.owned_fares τ hc
    rw [hj] at hf
    exact hf

def Particle.lasting (frames : Scalar) : Particle :=
  mk (.blank (.plain [] []) frames .identity) [] []

def Emitter.pair : Emitter := mk (.fresh (.plain [] []) .weather) [.lasting 1, .lasting 10]

def Ledger.pair : Ledger where
  system :=
    ⟨[.mk { SequenceBody.fresh ⟨1⟩ ⟨ResourceId.none, ResourcePath.root, [⟨100, 0, .wait⟩], [], [],
      false⟩ .weather 1 0 with emitters := [.pair] } []], []⟩

/-- The first particle goes and is quiet, the second takes its place. -/
theorem pair_parts :
    let a (i : Nat) : Place := [⟨.sequence, 0⟩, ⟨.emitter, 0⟩, ⟨.particle, i⟩]
    let m : Moment := ⟨1, .bare, .fresh⟩
    Ledger.pair.system.Fate m (a 0) (.lasting 1) ∧
      Node.track (a 0) (.system Ledger.pair.system) (.system m) = none ∧
      Ledger.pair.system.Fate m (a 1) (.lasting 10) ∧
      Node.track (a 1) (.system Ledger.pair.system) (.system m) = some (a 0) ∧
      Ledger.pair.system.Lasts (Ledger.pair.served .fresh (.alone .bare (.stop ⟨1⟩))).1.1.system ∧
      ∃ x, (Node.emitter .pair).turn? (.emitter ⟨none, 1, .bare, .fresh⟩) ⟨.particle, 0⟩ = some x ∧
        ((x.1.ticked x.2).hasFailed = true ∨ (x.1.ticked x.2).Quiet) := by
  have moved := (nothing_alive_is_dropped .pair .fresh (.alone .bare (.advance 1))).1 1 rfl
  obtain ⟨-, stopped, left⟩ := nothing_alive_is_dropped .pair .fresh (.alone .bare (.stop ⟨1⟩))
  exact ⟨moved.2.1 _ _ rfl (by decide +kernel), by decide +kernel,
    moved.2.1 _ _ rfl (by decide +kernel), by decide +kernel, stopped rfl,
    _, rfl, (left (.emitter .pair) (.emitter ⟨none, 1, .bare, .fresh⟩) ⟨.particle, 0⟩).1 _ rfl
      (by decide +kernel)⟩

end EffectMachine
