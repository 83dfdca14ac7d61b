import EffectMachine.Proofs.System.Owned

namespace EffectMachine

open Sequence (Moment)

inductive NodeTick where
  | particle (g : Generator) (t : ParticleTick)
  | emitter (t : EmitterTick)
  | sequence (m : Moment)
  | system (m : Moment)

namespace Node

def ticked : Node → NodeTick → Node
  | .particle p, .particle g t => .particle (p.ticked g t).1.1
  | .emitter e, .emitter t => .emitter (e.ticked t).1.1
  | .sequence s, .sequence m => .sequence (s.ticked m).1.1
  | .system s, .system m => .system (s.ticked m)
  | n, _ => n

/-- The turn of what a node owns: the owned node as the turn finds it, and the tick that it has. None
if the tick is stopped before. -/
def turn? : Node → NodeTick → Branch → Option (Node × NodeTick)
  | .particle p, .particle g t, ⟨.particle, i⟩ =>
    (p.childTick? g t i).bind fun u => p.children[i]?.map fun c => (.particle c, .particle g u)
  | .particle p, .particle g t, ⟨.emitter, i⟩ =>
    (p.emitterTick? g t i).bind fun u => p.emitters[i]?.map fun e => (.emitter e, .emitter u)
  | .emitter e, .emitter t, ⟨.particle, i⟩ =>
    (e.particleTick? t i).bind fun u =>
      e.particles[i]?.map fun p => (.particle p, .particle e.body.definition u)
  | .sequence s, .sequence m, ⟨.emitter, i⟩ =>
    (s.emitterTurn? m i).map fun x => (.emitter x.1, .emitter x.2)
  | .sequence s, .sequence m, ⟨.sequence, i⟩ =>
    (s.childMoment? m i).bind fun u => s.children[i]?.map fun c => (.sequence c, .sequence u)
  | .system s, .system m, ⟨.sequence, i⟩ =>
    (s.moment? m i).bind fun u => s.sequences[i]?.map fun q => (.sequence q, .sequence u)
  | _, _, _ => none

def Suits : Node → NodeTick → Prop
  | .particle _, .particle _ _ | .emitter _, .emitter _ => True
  | .sequence _, .sequence _ | .system _, .system _ => True
  | _, _ => False

theorem suits_of_turn? {n : Node} {τ : NodeTick} {b : Branch} {x : Node × NodeTick}
    (hx : n.turn? τ b = some x) : x.1.Suits x.2 := by
  unfold turn? at hx
  split at hx
  case h_4 =>
    obtain ⟨y, -, rfl⟩ := Option.map_eq_some_iff.mp hx
    trivial
  case h_7 => cases hx
  all_goals
    obtain ⟨u, -, hx⟩ := Option.bind_eq_some_iff.mp hx
    obtain ⟨y, -, rfl⟩ := Option.map_eq_some_iff.mp hx
    trivial

/-- Which of its kind the owned node is after a tick, if it stays. -/
def stands? : Node → NodeTick → Branch → Option Nat
  | .particle p, .particle g t, ⟨.particle, i⟩ => p.childStands? g t i
  | .particle p, .particle g t, ⟨.emitter, i⟩ => p.emitterStands? g t i
  | .emitter e, .emitter t, ⟨.particle, i⟩ => e.particleStands? t i
  | .sequence s, .sequence m, ⟨.emitter, i⟩ => s.emitterStands? m i
  | .sequence s, .sequence m, ⟨.sequence, i⟩ => s.childStands? m i
  | .system s, .system m, ⟨.sequence, i⟩ => s.stands? m i
  | _, _, b => some b.index

theorem isParticulate_ticked (n : Node) (τ : NodeTick) :
    (n.ticked τ).isParticulate = n.isParticulate := by
  cases n <;> cases τ <;> rfl

def isOver : Node → Bool
  | .particle p => p.isComplete
  | .emitter e => e.isExpired
  | .sequence s => s.isComplete
  | .system _ => false

def hasFailed : Node → Bool
  | .sequence s => s.isFailed
  | _ => false

def isGone (n : Node) : Bool := n.hasFailed || n.isOver

theorem allComplete_eq (cs : List Sequence) : allComplete cs = cs.all Sequence.isComplete := by
  induction cs with
  | nil => rfl
  | cons c cs ih => rw [allComplete, ih, List.all_cons]

/-- What is over owns nothing but sequences that are complete. -/
theorem owned_of_isOver {n c : Node} (hn : n.isOver = true) {k : NodeKind} (hc : c ∈ n.owned k) :
    ∃ s, c = .sequence s ∧ s.isComplete = true := by
  cases n with
  | particle p =>
    have hn : p.isComplete = true := hn
    simp only [Particle.isComplete, Bool.and_eq_true, List.isEmpty_iff] at hn
    cases k <;> simp [owned, hn] at hc
  | emitter e =>
    have hn : e.isExpired = true := hn
    simp only [Emitter.isExpired, Bool.and_eq_true, List.isEmpty_iff] at hn
    cases k <;> simp [owned, hn] at hc
  | sequence s =>
    obtain ⟨body, cs⟩ := s
    have hn : (Sequence.mk body cs).isComplete = true := hn
    simp only [Sequence.isComplete, allComplete_eq, Bool.and_eq_true, List.isEmpty_iff] at hn
    cases k with
    | particle => cases hc
    | emitter =>
      obtain ⟨e, he, -⟩ := List.mem_map.mp hc
      have he : e ∈ body.emitters := he
      simp [hn] at he
    | sequence =>
      obtain ⟨d, hd, rfl⟩ := List.mem_map.mp hc
      exact ⟨d, rfl, List.all_eq_true.mp hn.2 d hd⟩
  | system s => cases hn

/-- By induction on the place: below what is over, everything is, and particles and emitters there
are none. -/
theorem isOver_of_at? {n c : Node} {a : Place} (hn : n.isOver = true) (hc : n.at? a = some c) :
    c.isOver = true ∧ (c.isParticulate = true → a = []) := by
  induction a generalizing n with
  | nil => exact ⟨Option.some.inj hc ▸ hn, fun _ => rfl⟩
  | cons b a ih =>
    obtain ⟨d, hd, hc⟩ := Option.bind_eq_some_iff.mp hc
    obtain ⟨s, rfl, hs⟩ := owned_of_isOver hn (List.mem_of_getElem? hd)
    have hs : (sequence s).isOver = true := hs
    refine ⟨(ih hs hc).1, fun hp => ?_⟩
    obtain rfl := (ih hs hc).2 hp
    cases hc
    cases hp

/-- What its turn has made of an owned node. -/
def turned (n : Node) (τ : NodeTick) (b : Branch) (c : Node) : Node :=
  match n.turn? τ b with
  | some x => x.1.ticked x.2
  | none => c

theorem getElem?_map_some {α β : Type} {f : α → β} {xs : List α} {i : Nat} {y : β}
    (h : (xs.map f)[i]? = some y) : ∃ x, xs[i]? = some x ∧ f x = y :=
  Option.map_eq_some_iff.mp (List.getElem?_map .. ▸ h)

/-- What a node owns after a tick: let go, or still there and at most told to stop. -/
theorem owned_fares {n c : Node} {k : NodeKind} {i : Nat} (τ : NodeTick)
    (hc : (n.owned k)[i]? = some c) :
    Fares Lasts isGone ((n.ticked τ).owned k) (n.turned τ ⟨k, i⟩ c) (n.stands? τ ⟨k, i⟩) := by
  cases n <;> cases τ <;> cases k
  case particle.particle.particle p g t =>
    obtain ⟨q, hq, rfl⟩ := getElem?_map_some hc
    have ht : (particle p).turned (.particle g t) ⟨.particle, i⟩ (.particle q) =
        .particle (p.childAfter g t i q) := by
      rw [turned, turn?, Particle.childAfter, hq]
      cases p.childTick? g t i <;> rfl
    rw [ht]
    exact (Particle.child_fares hq).map (fun _ _ h => h) fun _ => rfl
  case particle.particle.emitter p g t =>
    obtain ⟨e, he, rfl⟩ := getElem?_map_some hc
    have ht : (particle p).turned (.particle g t) ⟨.emitter, i⟩ (.emitter e) =
        .emitter (p.emitterAfter g t i e) := by
      rw [turned, turn?, Particle.emitterAfter, he]
      cases p.emitterTick? g t i <;> rfl
    rw [ht]
    exact (Particle.emitter_fares he).map (fun _ _ h => h) fun _ => rfl
  case emitter.emitter.particle e t =>
    obtain ⟨p, hp, rfl⟩ := getElem?_map_some hc
    have ht : (emitter e).turned (.emitter t) ⟨.particle, i⟩ (.particle p) =
        .particle (e.particleAfter t i p) := by
      rw [turned, turn?, Emitter.particleAfter, hp]
      cases e.particleTick? t i <;> rfl
    rw [ht]
    exact (Emitter.particle_fares hp).map (fun _ _ h => h) fun _ => rfl
  case sequence.sequence.emitter s m =>
    obtain ⟨e, he, rfl⟩ := getElem?_map_some hc
    have ht : (sequence s).turned (.sequence m) ⟨.emitter, i⟩ (.emitter e) =
        .emitter (s.emitterAfter m i e) := by
      rw [turned, turn?, Sequence.emitterAfter]
      cases s.emitterTurn? m i <;> rfl
    rw [ht]
    exact (Sequence.emitter_fares he).map (fun _ _ h => h) fun _ => rfl
  case sequence.sequence.sequence s m =>
    obtain ⟨q, hq, rfl⟩ := getElem?_map_some hc
    have ht : (sequence s).turned (.sequence m) ⟨.sequence, i⟩ (.sequence q) =
        .sequence (s.childAfter m i q) := by
      rw [turned, turn?, Sequence.childAfter, hq]
      cases s.childMoment? m i <;> rfl
    rw [ht]
    exact (Sequence.child_fares hq).map (fun _ _ h => h) fun _ => rfl
  case system.system.sequence s m =>
    obtain ⟨q, hq, rfl⟩ := getElem?_map_some hc
    have ht : (system s).turned (.system m) ⟨.sequence, i⟩ (.sequence q) =
        .sequence (s.sequenceAfter m i q) := by
      rw [turned, turn?, System.sequenceAfter, hq]
      cases s.moment? m i <;> rfl
    rw [ht]
    exact (System.sequence_fares hq).map (fun _ _ h => h) fun _ => rfl
  -- The node owns nothing of that kind, or the tick is not one of its own.
  all_goals first
    | cases hc
    | exact .unmoved hc (.refl Lasts.refl _)

/-- What has a turn is what the node owns. Only an emitter of a sequence is looked up when its turn
comes: effects that run before may have made it in the same tick, or told it to stop. -/
theorem found_of_turn? {n : Node} {τ : NodeTick} {b : Branch} {x : Node × NodeTick}
    (hx : n.turn? τ b = some x) :
    (n.owned b.kind)[b.index]? = some x.1 ∨
      ∃ s m i y, n = .sequence s ∧ τ = .sequence m ∧ b = ⟨.emitter, i⟩ ∧
        s.emitterTurn? m i = some y ∧ x = (.emitter y.1, .emitter y.2) := by
  unfold turn? at hx
  split at hx
  case h_4 s m i =>
    obtain ⟨y, hy, rfl⟩ := Option.map_eq_some_iff.mp hx
    exact .inr ⟨s, m, i, y, rfl, rfl, rfl, hy, rfl⟩
  case h_7 => cases hx
  all_goals
    obtain ⟨u, -, hu⟩ := Option.bind_eq_some_iff.mp hx
    obtain ⟨y, hy, rfl⟩ := Option.map_eq_some_iff.mp hu
    exact .inl (List.getElem?_map .. ▸ congrArg (Option.map _) hy)

theorem none_of_found {α β : Type} {f : α → Node} {xs : List α} {i : Nat} {o : Option β}
    {F : β → NodeTick} {c : Node} (hc : (xs.map f)[i]? = some c)
    (ht : (o.bind fun u => xs[i]?.map fun y => (f y, F u)) = none) : o = none := by
  obtain ⟨x, hx, -⟩ := getElem?_map_some hc
  cases o with
  | none => rfl
  | some u => simp [hx] at ht

/-- What has no turn stays where it is. -/
theorem stands?_of_turn? {n c : Node} {τ : NodeTick} {k : NodeKind} {i : Nat}
    (hc : (n.owned k)[i]? = some c) (ht : n.turn? τ ⟨k, i⟩ = none) :
    n.stands? τ ⟨k, i⟩ = some i := by
  cases n <;> cases τ <;> cases k
  case particle.particle.particle => exact Particle.childStands?_of_none (none_of_found hc ht)
  case particle.particle.emitter => exact Particle.emitterStands?_of_none (none_of_found hc ht)
  case emitter.emitter.particle => exact Emitter.particleStands?_of_none (none_of_found hc ht)
  case sequence.sequence.emitter =>
    obtain ⟨e, he, -⟩ := getElem?_map_some hc
    exact Sequence.emitterStands?_of_none he (Option.map_eq_none_iff.mp ht)
  case sequence.sequence.sequence => exact Sequence.childStands?_of_none (none_of_found hc ht)
  case system.system.sequence => exact System.stands?_of_none (none_of_found hc ht)
  all_goals rfl

/-- What an owner lets go of has failed or is over by its own turn. -/
theorem isGone_of_turn? {n : Node} {τ : NodeTick} {b : Branch} {x : Node × NodeTick}
    (hx : n.turn? τ b = some x) (hn : n.stands? τ b = none) : (x.1.ticked x.2).isGone = true := by
  rcases found_of_turn? hx with hc | ⟨s, m, i, y, rfl, rfl, rfl, hy, rfl⟩
  · have hf := owned_fares τ hc
    rwa [hn, turned, hx] at hf
  · exact Sequence.isExpired_of_emitterTurn? hy hn

/-- Until its turn comes an owned node at most is told to stop. -/
theorem lasts_of_turn? {n c : Node} {τ : NodeTick} {b : Branch} {x : Node × NodeTick}
    (hc : (n.owned b.kind)[b.index]? = some c) (hx : n.turn? τ b = some x) : c.Lasts x.1 := by
  rcases found_of_turn? hx with hd | ⟨s, m, i, y, rfl, rfl, rfl, hy, rfl⟩
  · cases hc.symm.trans hd
    exact .refl _
  · obtain ⟨e, he, rfl⟩ := getElem?_map_some hc
    exact Sequence.lasts_of_emitterTurn? he hy

/-- Where a place leads in a tick, unless the node there, or one above it, is let go. What has no
turn stays where it is. -/
def track : Place → Node → NodeTick → Option Place
  | [], _, _ => some []
  | b :: a, n, τ =>
    (n.stands? τ b).bind fun j =>
      (match n.turn? τ b with
        | some (c, u) => track a c u
        | none => some a).map fun a' => ⟨b.kind, j⟩ :: a'

/-- The turn of the node at a place, in a tick of a node above it. -/
def turnAt? : Place → Node → NodeTick → Option (Node × NodeTick)
  | [], n, τ => some (n, τ)
  | b :: a, n, τ => (n.turn? τ b).bind fun x => turnAt? a x.1 x.2

theorem suits_of_turnAt? {n : Node} {τ : NodeTick} {a : Place} {x : Node × NodeTick}
    (hn : n.Suits τ) (hx : turnAt? a n τ = some x) : x.1.Suits x.2 := by
  induction a generalizing n τ with
  | nil =>
    cases hx
    exact hn
  | cons b a ih =>
    obtain ⟨y, hy, hx⟩ := Option.bind_eq_some_iff.mp hx
    exact ih (suits_of_turn? hy) hx

/-- What a tick has made of the node at a place, by that node's own turn. -/
def outcome (a : Place) (n : Node) (τ : NodeTick) (c : Node) : Node :=
  match turnAt? a n τ with
  | some x => x.1.ticked x.2
  | none => c

variable {n c : Node} {τ : NodeTick} {a a' : Place}

/-- The first step of a place: whether or not the owned node has a turn, it is where its owner has
it stand. -/
theorem exists_of_track_cons {b : Branch} {e : Node} (he : (n.owned b.kind)[b.index]? = some e)
    (ha : track (b :: a) n τ = some a') :
    ∃ j a₁ e', a' = ⟨b.kind, j⟩ :: a₁ ∧ n.stands? τ b = some j ∧
      ((n.ticked τ).owned b.kind)[j]? = some e' ∧
      (n.turn? τ b = none ∧ a₁ = a ∧ e.Lasts e' ∨ ∃ x, n.turn? τ b = some x ∧ e.Lasts x.1 ∧
        track a x.1 x.2 = some a₁ ∧ (x.1.ticked x.2).Lasts e') := by
  obtain ⟨j, hj, ha⟩ := Option.bind_eq_some_iff.mp ha
  obtain ⟨a₁, hb, rfl⟩ := Option.map_eq_some_iff.mp ha
  have hf := owned_fares τ he
  rw [hj, turned] at hf
  obtain ⟨e', he', hl⟩ := hf
  refine ⟨j, a₁, e', rfl, hj, he', ?_⟩
  cases ht : n.turn? τ b with
  | none =>
    rw [ht] at hb hl
    exact .inl ⟨rfl, (Option.some.inj hb).symm, hl⟩
  | some x =>
    rw [ht] at hb hl
    exact .inr ⟨x, rfl, lasts_of_turn? he ht, hb, hl⟩

/-- What a place leads to holds what the tick has made of the node there, which at most is told to
stop in what remains of the tick. -/
theorem track_some (hc : n.at? a = some c) (ha : track a n τ = some a') :
    ∃ c', (n.ticked τ).at? a' = some c' ∧ (outcome a n τ c).Remains c' := by
  induction a generalizing n c τ a' with
  | nil =>
    cases ha
    exact ⟨_, rfl, .refl _⟩
  | cons b a ih =>
    obtain ⟨e, he, hc⟩ := Option.bind_eq_some_iff.mp hc
    obtain ⟨j, a₁, e', rfl, -, he', hstep⟩ := exists_of_track_cons he ha
    rw [at?_cons, he', Option.bind_some, outcome, turnAt?]
    rcases hstep with ⟨ht, rfl, hl⟩ | ⟨x, ht, hx, ha, hl⟩
    · rw [ht]
      exact hl a₁ c hc
    · obtain ⟨d, hd, hrd⟩ := hx a c hc
      obtain ⟨c', hc', hr⟩ := ih hd ha
      obtain ⟨c'', hc'', hr'⟩ := hl a₁ c' hc'
      refine ⟨c'', hc'', .trans ?_ hr'⟩
      rw [ht, Option.bind_some]
      rw [outcome] at hr
      cases hy : turnAt? a x.1 x.2 with
      | none =>
        rw [hy] at hr
        exact hrd.trans hr
      | some y =>
        rw [hy] at hr
        exact hr

theorem stands?_inj {k : NodeKind} {i i' j : Nat} (hi : n.stands? τ ⟨k, i⟩ = some j)
    (hi' : n.stands? τ ⟨k, i'⟩ = some j) : i = i' := by
  cases n <;> cases τ <;> cases k
  case particle.particle.particle => exact ite_standing_inj hi hi'
  case particle.particle.emitter => exact ite_standing_inj hi hi'
  case emitter.emitter.particle => exact ite_standing_inj hi hi'
  case sequence.sequence.emitter s m =>
    rw [stands?, Sequence.emitterStands?, ← ite_not] at hi hi'
    exact ite_standing_inj hi hi'
  case sequence.sequence.sequence => exact ite_standing_inj hi hi'
  case system.system.sequence => exact ite_standing_inj hi hi'
  all_goals exact Option.some.inj (hi.trans hi'.symm)

theorem eq_nil_of_track (ha : track a n τ = some []) : a = [] := by
  cases a with
  | nil => rfl
  | cons b a =>
    obtain ⟨j, -, ha⟩ := Option.bind_eq_some_iff.mp ha
    obtain ⟨a', -, ha⟩ := Option.map_eq_some_iff.mp ha
    cases ha

/-- No two places lead to one. -/
theorem track_inj {b : Place} (ha : track a n τ = some a') (hb : track b n τ = some a') :
    a = b := by
  induction a generalizing n τ b a' with
  | nil =>
    cases ha
    exact (eq_nil_of_track hb).symm
  | cons s a ih =>
    obtain ⟨j, hj, ha⟩ := Option.bind_eq_some_iff.mp ha
    obtain ⟨a₁, ha₁, rfl⟩ := Option.map_eq_some_iff.mp ha
    cases b with
    | nil => cases hb
    | cons s' b =>
      obtain ⟨j', hj', hb⟩ := Option.bind_eq_some_iff.mp hb
      obtain ⟨b₁, hb₁, he⟩ := Option.map_eq_some_iff.mp hb
      obtain ⟨k, i⟩ := s
      obtain ⟨k', i'⟩ := s'
      cases he
      obtain rfl := stands?_inj hj hj'
      cases ht : n.turn? τ ⟨k, i⟩ with
      | none =>
        rw [ht] at ha₁ hb₁
        cases ha₁
        cases hb₁
        rfl
      | some x =>
        rw [ht] at ha₁ hb₁
        rw [ih ha₁ hb₁]

/-- Until its turn comes all that is below a node at most is told to stop. -/
theorem lasts_of_turnAt? {x : Node × NodeTick} (hc : n.at? a = some c)
    (hx : turnAt? a n τ = some x) : c.Lasts x.1 := by
  induction a generalizing n c τ with
  | nil =>
    cases hc
    cases hx
    exact .refl _
  | cons b a ih =>
    obtain ⟨e, he, hc⟩ := Option.bind_eq_some_iff.mp hc
    obtain ⟨y, hy, hx⟩ := Option.bind_eq_some_iff.mp hx
    obtain ⟨d, hd, hl⟩ := (lasts_of_turn? he hy).below hc
    exact hl.trans (ih hd hx)

theorem isParticulate_outcome (hc : n.at? a = some c) :
    (outcome a n τ c).isParticulate = c.isParticulate := by
  rw [outcome]
  cases hx : turnAt? a n τ with
  | none => rfl
  | some x =>
    obtain ⟨y, hy, hr⟩ := lasts_of_turnAt? hc hx [] c rfl
    cases hy
    exact (isParticulate_ticked ..).trans hr.isParticulate_eq

/-- A particle or an emitter whose place leads nowhere is over by its own turn, unless a sequence
above it has failed by its own. -/
theorem track_none (hc : n.at? a = some c) (hp : c.isParticulate = true)
    (ha : track a n τ = none) :
    (∃ x, turnAt? a n τ = some x ∧ (x.1.ticked x.2).isOver = true) ∨
      ∃ b x, b <+: a ∧ turnAt? b n τ = some x ∧ (x.1.ticked x.2).hasFailed = true := by
  induction a generalizing n c τ with
  | nil => cases ha
  | cons b a ih =>
    obtain ⟨e, he, hc⟩ := Option.bind_eq_some_iff.mp hc
    have hf := owned_fares τ he
    cases ht : n.turn? τ b with
    | none =>
      rw [track, stands?_of_turn? he ht, ht] at ha
      cases ha
    | some x =>
      obtain ⟨d, hd, hr⟩ := lasts_of_turn? he ht a c hc
      have hdp : d.isParticulate = true := hr.isParticulate_eq.trans hp
      simp only [turnAt?, ht, Option.bind_some]
      cases hx : track a x.1 x.2 with
      | none =>
        rcases ih hd hdp hx with h | ⟨b', y, hb, hy, hg⟩
        · exact .inl h
        · refine .inr ⟨b :: b', y, List.cons_prefix_cons.mpr ⟨rfl, hb⟩, ?_, hg⟩
          rw [turnAt?, ht]
          exact hy
      | some a' =>
        -- The node let go is the one at the first step of the place.
        have hj : n.stands? τ b = none := by
          cases hj : n.stands? τ b with
          | none => rfl
          | some j => simp [track, hj, ht, hx] at ha
        rw [hj, turned, ht] at hf
        rcases Bool.or_eq_true_iff.mp hf with hg | hg
        · refine .inr ⟨[b], x, ⟨a, rfl⟩, ?_, hg⟩
          rw [turnAt?, ht]
          rfl
        · obtain ⟨c', hc', hr'⟩ := track_some hd hx
          have hcp := hr'.isParticulate_eq.trans ((isParticulate_outcome hd).trans hdp)
          obtain rfl := (isOver_of_at? hg hc').2 hcp
          obtain rfl := eq_nil_of_track hx
          refine .inl ⟨x, ?_, hg⟩
          rfl

theorem hasFailed_of_isParticulate {n : Node} (hn : n.isParticulate = true) :
    n.hasFailed = false := by
  cases n with
  | sequence => cases hn
  | _ => rfl

/-- What particles and emitters own is as it was when its turn comes. -/
theorem at?_of_turnAt? {n : Node} {τ : NodeTick} {a : Place} {x : Node × NodeTick}
    (hn : n.isParticulate = true) (hx : turnAt? a n τ = some x) : n.at? a = some x.1 := by
  induction a generalizing n τ with
  | nil =>
    cases hx
    rfl
  | cons b a ih =>
    obtain ⟨y, hy, hx⟩ := Option.bind_eq_some_iff.mp hx
    rcases found_of_turn? hy with ho | ⟨s, m, i, z, rfl, -⟩
    · rw [at?_cons, ho]
      exact ih (isParticulate_of_owned hn (List.mem_of_getElem? ho)) hx
    · cases hn

/-- In the tree of a particle or an emitter a place leads nowhere only if what is there is over. -/
theorem turnAt?_of_track_none {n c : Node} {τ : NodeTick} {a : Place} (hn : n.isParticulate = true)
    (hc : n.at? a = some c) (ha : track a n τ = none) :
    ∃ u, turnAt? a n τ = some (c, u) ∧ (c.ticked u).isOver = true := by
  rcases track_none hc (isParticulate_of_at? hn hc) ha with ⟨⟨d, u⟩, hx, ho⟩ | ⟨b, x, -, hx, hf⟩
  · cases hc.symm.trans (at?_of_turnAt? hn hx)
    exact ⟨u, hx, ho⟩
  · have hp := isParticulate_of_at? hn (at?_of_turnAt? hn hx)
    rw [hasFailed_of_isParticulate ((isParticulate_ticked ..).trans hp)] at hf
    cases hf

end Node
end EffectMachine
