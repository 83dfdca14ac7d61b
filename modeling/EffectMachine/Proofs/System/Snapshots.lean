import EffectMachine.Proofs.Particle.Anchors
import EffectMachine.Proofs.System.Survival

namespace EffectMachine

open Sequence (Moment)
open Emitter (Happening)

/-- No particle is on the way: what stands there belongs to a sequence. -/
def Place.IsOutside (a : Place) : Prop := ∀ b ∈ a, b.kind ≠ .particle

/-- A tick as long as another and in the same surroundings, in which no anchor is given. -/
def NodeTick.Amid (m : Moment) : NodeTick → Prop
  | .particle .. => False
  | .emitter t => t.parent = none ∧ t.elapsed = m.elapsed ∧ t.surroundings = m.surroundings
  | .sequence u | .system u => u.elapsed = m.elapsed ∧ u.surroundings = m.surroundings

namespace Node

variable {n : Node} {τ : NodeTick} {m : Moment} {a a' : Place} {e : Emitter}

/-- Outside of particles, a turn is as long as the tick around it and gives no anchor. -/
theorem amid_of_turn? {b : Branch} {x : Node × NodeTick} (hτ : τ.Amid m) (hb : b.kind ≠ .particle)
    (hx : n.turn? τ b = some x) : x.2.Amid m := by
  unfold turn? at hx
  split at hx
  case h_1 | h_3 => exact absurd rfl hb
  case h_2 => exact hτ.elim
  case h_4 s u i =>
    obtain ⟨y, hy, rfl⟩ := Option.map_eq_some_iff.mp hx
    unfold Sequence.emitterTurn? at hy
    split at hy
    · obtain ⟨host, -, hy⟩ := Option.bind_eq_some_iff.mp hy
      obtain ⟨d, -, rfl⟩ := Option.map_eq_some_iff.mp hy
      exact ⟨rfl, hτ⟩
    · cases hy
  case h_5 s u i =>
    obtain ⟨v, hv, hx⟩ := Option.bind_eq_some_iff.mp hx
    obtain ⟨c, -, rfl⟩ := Option.map_eq_some_iff.mp hx
    unfold Sequence.childMoment? at hv
    split at hv
    · cases hv
    · obtain ⟨host, -, rfl⟩ := Option.map_eq_some_iff.mp hv
      exact hτ
  case h_6 s u i =>
    obtain ⟨v, hv, hx⟩ := Option.bind_eq_some_iff.mp hx
    obtain ⟨c, -, rfl⟩ := Option.map_eq_some_iff.mp hx
    obtain ⟨host, -, rfl⟩ := Option.map_eq_some_iff.mp hv
    exact hτ
  case h_7 => cases hx

/-- By induction on the place. -/
theorem amid_of_turnAt? {x : Node × NodeTick} (hτ : τ.Amid m) (ha : a.IsOutside)
    (hx : turnAt? a n τ = some x) : x.2.Amid m := by
  induction a generalizing n τ with
  | nil =>
    cases hx
    exact hτ
  | cons b a ih =>
    obtain ⟨hb, ha⟩ := List.forall_mem_cons.mp ha
    obtain ⟨y, hy, hx⟩ := Option.bind_eq_some_iff.mp hx
    exact ih (amid_of_turn? hτ hb hy) ha hx

/-- By induction on the place: what is kept goes on among its own kind. -/
theorem track_isOutside (ht : track a n τ = some a') (ha : a.IsOutside) : a'.IsOutside := by
  induction a generalizing n τ a' with
  | nil =>
    cases ht
    exact ha
  | cons b a ih =>
    obtain ⟨hb, ha⟩ := List.forall_mem_cons.mp ha
    obtain ⟨j, -, ht⟩ := Option.bind_eq_some_iff.mp ht
    obtain ⟨a₁, h₁, rfl⟩ := Option.map_eq_some_iff.mp ht
    refine List.forall_mem_cons.mpr ⟨hb, ?_⟩
    split at h₁
    · exact ih h₁ ha
    · cases h₁
      exact ha

/-- The tick of the emitter at a place, in a tick of a node above it, unless it has none. -/
def emitterTick? (a : Place) (n : Node) (τ : NodeTick) : Option EmitterTick :=
  match turnAt? a n τ with
  | some (.emitter _, .emitter t) => some t
  | _ => none

end Node

namespace Emitter

def Happening.tick? : Happening → Option EmitterTick
  | .tick t => some t
  | .stop => none

theorem after_of_remains {e : Emitter} {x : Node} (h : (Node.emitter e).Remains x) :
    ∃ hs : List Happening, hs.filterMap Happening.tick? = [] ∧ x = .emitter (e.after hs) := by
  obtain ⟨y, rfl, rfl | rfl⟩ := h.emitter
  · exact ⟨[], rfl, rfl⟩
  · exact ⟨[.stop], rfl, rfl⟩

end Emitter

namespace Node

variable {n : Node} {τ : NodeTick} {m : Moment} {a a' : Place} {e : Emitter}

/-- A tick does no more to an emitter than to tick it in its turn and to tell it to stop. -/
theorem emitter_of_track (he : n.at? a = some (.emitter e)) (hn : n.Suits τ)
    (ht : track a n τ = some a') :
    ∃ hs : List Happening, hs.filterMap Happening.tick? = (emitterTick? a n τ).toList ∧
      (n.ticked τ).at? a' = some (.emitter (e.after hs)) := by
  obtain ⟨c, hc, hr⟩ := track_some he ht
  rw [hc, emitterTick?]
  rw [outcome] at hr
  cases hx : turnAt? a n τ with
  | none =>
    rw [hx] at hr
    obtain ⟨hs, hn, rfl⟩ := Emitter.after_of_remains hr
    exact ⟨hs, hn, rfl⟩
  | some x =>
    rw [hx] at hr
    have suits := suits_of_turnAt? hn hx
    obtain ⟨y, hy, before⟩ := lasts_of_turnAt? he hx [] _ rfl
    obtain ⟨hs, hn, rfl⟩ := Emitter.after_of_remains before
    obtain ⟨d, u⟩ := x
    obtain rfl : d = .emitter (e.after hs) := Option.some.inj hy
    cases u with
    | emitter t =>
      obtain ⟨hs', hn', rfl⟩ := Emitter.after_of_remains hr
      refine ⟨hs ++ .tick t :: hs', ?_, ?_⟩
      · rw [List.filterMap_append, hn, List.filterMap_cons, hn']
        rfl
      · rw [Emitter.after_append]
        rfl
    | _ => exact suits.elim

end Node

namespace Ledger

variable (l : Ledger) (h : Host) (o : Occasion) (a : Place)

/-- Where a place of the system leads in a request. Only ticks let go of anything. -/
def track : Option Place :=
  match o.request with
  | .advance elapsed =>
    Node.track a (.system l.system) (.system ⟨elapsed, o.surroundings, o.meanwhile h⟩)
  | _ => some a

def emitterTick? : Option EmitterTick :=
  match o.request with
  | .advance elapsed =>
    Node.emitterTick? a (.system l.system) (.system ⟨elapsed, o.surroundings, o.meanwhile h⟩)
  | _ => none

def trackAfter : Ledger → Host → List Occasion → Place → Option Place
  | _, _, [], a => some a
  | l, h, o :: os, a =>
    (l.track h o a).bind fun a' => (l.served h o).1.1.trackAfter (l.served h o).2 os a'

def emitterTicks : Ledger → Host → List Occasion → Place → List EmitterTick
  | _, _, [], _ => []
  | l, h, o :: os, a =>
    (l.emitterTick? h o a).toList ++
      (l.track h o a).elim [] fun a' => (l.served h o).1.1.emitterTicks (l.served h o).2 os a'

variable {l h o a} {a' : Place} {e : Emitter}

/-- What a sequence has started is ticked when the system is, in the same surroundings, and no
anchor is given to it. -/
theorem emitterTick?_free {t : EmitterTick} (ha : a.IsOutside)
    (ht : l.emitterTick? h o a = some t) :
    t.parent = none ∧ o.request = .advance t.elapsed ∧ t.surroundings = o.surroundings := by
  unfold emitterTick? at ht
  split at ht
  next elapsed hq =>
    unfold Node.emitterTick? at ht
    split at ht
    next d u hx =>
      cases ht
      have here : (NodeTick.system ⟨elapsed, o.surroundings, o.meanwhile h⟩).Amid
          ⟨elapsed, o.surroundings, o.meanwhile h⟩ := ⟨rfl, rfl⟩
      have amid := Node.amid_of_turnAt? here ha hx
      exact ⟨amid.1, hq.trans (congrArg Request.advance amid.2.1.symm), amid.2.2⟩
    next => cases ht
  next => cases ht

/-- No request does more to an emitter than to tick it in its turn and to tell it to stop. -/
theorem emitter_of_served (he : (Node.system l.system).at? a = some (.emitter e))
    (ht : l.track h o a = some a') :
    ∃ hs : List Happening, hs.filterMap Happening.tick? = (l.emitterTick? h o a).toList ∧
      (Node.system (l.served h o).1.1.system).at? a' = some (.emitter (e.after hs)) := by
  cases hq : o.request with
  | advance elapsed =>
    have moved : (l.served h o).1.1.system =
        l.system.ticked ⟨elapsed, o.surroundings, o.meanwhile h⟩ := by
      rw [served, hq]
      rfl
    rw [track, hq] at ht
    rw [emitterTick?, hq, moved]
    exact Node.emitter_of_track he trivial ht
  | _ =>
    rw [track, hq] at ht
    obtain rfl : a = a' := Option.some.inj ht
    obtain ⟨c, hc, hr⟩ := l.served_lasts h o (by rw [hq]; rfl) a _ he
    obtain ⟨hs, hn, rfl⟩ := Emitter.after_of_remains hr
    exact ⟨hs, by rw [hn, emitterTick?, hq]; rfl, hc⟩

theorem track_isOutside (ht : l.track h o a = some a') (ha : a.IsOutside) : a'.IsOutside := by
  unfold track at ht
  split at ht
  · exact Node.track_isOutside ht ha
  · exact Option.some.inj ht ▸ ha

/-- By induction on the requests: the life of an emitter is its ticks, and stops in between. -/
theorem emitter_of_trackAfter {os : List Occasion}
    (he : (Node.system l.system).at? a = some (.emitter e)) (ht : l.trackAfter h os a = some a') :
    ∃ hs : List Happening, hs.filterMap Happening.tick? = l.emitterTicks h os a ∧
      (Node.system (l.after h os).system).at? a' = some (.emitter (e.after hs)) := by
  induction os generalizing l h a e with
  | nil =>
    obtain rfl : a = a' := Option.some.inj ht
    exact ⟨[], rfl, he⟩
  | cons o os ih =>
    obtain ⟨b, hb, ht⟩ := Option.bind_eq_some_iff.mp ht
    obtain ⟨hs, hn, he'⟩ := emitter_of_served he hb
    obtain ⟨hs', hn', hlast⟩ := ih he' ht
    refine ⟨hs ++ hs', ?_, ?_⟩
    · rw [List.filterMap_append, hn, hn', emitterTicks, hb]
      rfl
    · rw [Emitter.after_append]
      exact hlast

/-- By induction on the requests. -/
theorem emitterTicks_free {os : List Occasion} (ha : a.IsOutside) :
    ∀ t ∈ l.emitterTicks h os a, t.parent = none ∧
      ∃ o ∈ os, o.request = .advance t.elapsed ∧ o.surroundings = t.surroundings := by
  induction os generalizing l h a with
  | nil => exact fun t ht => nomatch ht
  | cons o os ih =>
    intro t ht
    rcases List.mem_append.mp ht with ht | ht
    · obtain ⟨free, asked, amid⟩ := emitterTick?_free ha (Option.mem_toList.mp ht)
      exact ⟨free, o, List.mem_cons_self, asked, amid.symm⟩
    · cases hb : l.track h o a with
      | none =>
        rw [hb] at ht
        cases ht
      | some b =>
        rw [hb] at ht
        obtain ⟨free, o', ho, asked⟩ := ih (track_isOutside hb ha) t ht
        exact ⟨free, o', List.mem_cons_of_mem o ho, asked⟩

end Ledger

namespace SequenceBody

/-- A snapshot changes the binding of the sequence, and nothing else. -/
theorem perform_snapshot (s : SequenceBody) {f : Effect} {position joints : Bool}
    (hf : f.action = .snapshot position joints) :
    s.perform f = pure ({ s with
      binding := s.binding.mapContext fun c =>
        { c with snapshotPosition := position, snapshotJoints := joints } }, .proceed) := by
  rw [perform_steer s fun _ _ => by rw [SideEffect.of?, hf], steer, hf]

end SequenceBody

namespace Emitter

theorem isFree_of_ticks {hs : List Happening}
    (h : ∀ t ∈ hs.filterMap Happening.tick?, t.parent = none) : ∀ x ∈ hs, Happening.IsFree x := by
  intro x hx
  cases x with
  | tick t => exact h t (List.mem_filterMap.mpr ⟨.tick t, hx, rfl⟩)
  | stop => trivial

/-- An emitter without a parent anchor keeps to its anchor over every run. An emitter that a
sequence has started has just such a run, whatever is asked of the system and whatever the sequences
do: it is ticked in its turn, each time in the surroundings of the request, and at most told to stop.
A snapshot that its sequence takes later leaves it as it is. -/
theorem anchor_kept (e : Emitter) (free : e.body.parentAnchor = none) :
    (∀ hs : List Happening, (∀ x ∈ hs, Happening.IsFree x) → e.KeepsAnchor hs) ∧
    (∀ (l : Ledger) (h : Host) (os : List Occasion) (a a' : Place),
      (Node.system l.system).at? a = some (.emitter e) → a.IsOutside →
      l.trackAfter h os a = some a' →
        (∀ t ∈ l.emitterTicks h os a, t.parent = none ∧
          ∃ o ∈ os, o.request = .advance t.elapsed ∧ o.surroundings = t.surroundings) ∧
        ∃ hs : List Happening, hs.filterMap Happening.tick? = l.emitterTicks h os a ∧
          (Node.system (l.after h os).system).at? a' = some (.emitter (e.after hs)) ∧
          e.KeepsAnchor hs) ∧
    ∀ (s : SequenceBody) (i : Nat) (f : Effect) (position joints : Bool),
      f.action = .snapshot position joints → s.emitters[i]? = some e →
        (s.perform f).Always fun x => x.1.emitters[i]? = some e := by
  refine ⟨fun hs hf => keepsAnchor free hf, ?_, ?_⟩
  · intro l h os a a' he ha ht
    obtain ⟨hs, hn, hlast⟩ := Ledger.emitter_of_trackAfter he ht
    refine ⟨Ledger.emitterTicks_free ha, hs, hn, hlast, keepsAnchor free (isFree_of_ticks ?_)⟩
    intro t ht
    exact (Ledger.emitterTicks_free ha t (hn ▸ ht)).1
  · intro s i f position joints hf he
    rw [s.perform_snapshot hf]
    exact .pure he

def beacon : Emitter :=
  ofBody (.fresh { Generator.plain [] [] with
    attach := .source
    generatorUpdaters := [.snapshotAnchor] } (.actors ⟨1⟩ none {}))

/-- Surroundings in which the actor is so far to the right, if it is there at all. -/
def beaconSeen (right? : Option Scalar) : Surroundings :=
  { Surroundings.bare with
    scene := { actors := right?.toList.map fun x => (⟨1⟩, { position := ⟨x, 0, 0⟩ }) } }

/-- The actor comes late, and walks on. -/
def beaconWalk : List (Option Scalar) := [none, some 2, some 5]

/-- A sequence with the light, which takes snapshots of its own before it waits. -/
def beaconOwner : SequenceBody :=
  { SequenceBody.fresh ⟨1⟩ ⟨ResourceId.none, ResourcePath.root,
      [⟨0, 0, .snapshot true true⟩, ⟨1, 0, .snapshot false false⟩, ⟨100, 0, .wait⟩], [], [], false⟩
      (.actors ⟨1⟩ none {}) 1 0 with
    emitters := [beacon] }

def beaconLedger : Ledger where
  system := ⟨[.mk beaconOwner []], []⟩

theorem beacon_stays :
    let run := beaconWalk.map fun right? => Happening.tick ⟨none, 1, beaconSeen right?, .fresh⟩
    let os := beaconWalk.map fun right? => Occasion.alone (beaconSeen right?) (.advance 1)
    let a : Place := [⟨.sequence, 0⟩, ⟨.emitter, 0⟩]
    beacon.body.parentAnchor = none ∧ beacon.body.isSnapshot = true ∧ beacon.KeepsAnchor run ∧
      (beacon.after run).body.anchor.position = ⟨2, 0, 0⟩ ∧
      ((beacon.notices run).filter Notice.isAnchorMissing).length = 1 ∧
      (∃ hs : List Happening,
        hs.filterMap Happening.tick? = beaconLedger.emitterTicks .fresh os a ∧
        (Node.system (beaconLedger.after .fresh os).system).at? a =
          some (.emitter (beacon.after hs)) ∧
        beacon.KeepsAnchor hs ∧ (beaconLedger.emitterTicks .fresh os a).length = 3) ∧
      (beaconOwner.perform ⟨0, 0, .snapshot true true⟩).Always
        fun x => x.1.emitters[0]? = some beacon := by
  intro run os a
  obtain ⟨alone, owned, snapshot⟩ := anchor_kept beacon rfl
  refine ⟨rfl, by decide +kernel, ?_, by decide +kernel, by decide +kernel, ?_, ?_⟩
  · apply alone
    simp [run, beaconWalk, Happening.IsFree]
  · have outside : a.IsOutside := by simp [a, Place.IsOutside]
    obtain ⟨-, hs, ticks, last, keeps⟩ := owned beaconLedger .fresh os a a rfl outside
      (by decide +kernel)
    exact ⟨hs, ticks, last, keeps, by decide +kernel⟩
  · exact snapshot _ 0 _ true true rfl rfl

end Emitter
end EffectMachine
