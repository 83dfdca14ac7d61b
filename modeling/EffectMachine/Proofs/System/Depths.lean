import EffectMachine.Proofs.Particle.Levels
import EffectMachine.Proofs.Particle.SlotFaults
import EffectMachine.Proofs.Sequence.Names
import EffectMachine.Proofs.System.Conduct

namespace EffectMachine

section Emitters

/-- Depths from some depth on: one more on each level, and none beyond the limit that something was
started on. -/
def depthsFrom (limit d : Nat) : Grade :=
  fun n scope => scope.depth.toNat = d + n ∧ (n = 0 ∨ d + n ≤ limit)

theorem deeper_le {depth limit : UInt8} {bound : Nat} (h : depth < limit)
    (hb : limit.toNat ≤ bound) : depth.toNat + 1 ≤ bound := by
  have hlt : depth.toNat < limit.toNat := UInt8.lt_iff_toNat_lt.mp h
  omega

theorem depthsFrom_keptIn {r : Surroundings} {limit : Nat}
    (hr : r.config.maxNestingDepth.toNat ≤ limit) (d : Nat) :
    (depthsFrom limit d).KeptIn r .forward where
  admits := HostOrder.forward_admits []
  started {n scope _ _} h hd _ := by
    have hnext : (scope.depth + 1).toNat = d + (n + 1) := by
      rw [toNat_deeper hd, h.1]
      omega
    refine ⟨hnext, .inr ?_⟩
    rw [← hnext, toNat_deeper hd]
    exact deeper_le hd hr

/-- What a particle starts is one level deeper, whatever depths there are already. -/
theorem ParticleBody.emitter?_deeper (p : ParticleBody) (scope : SpawnScope) (id : ResourceId)
    (windowed : Bool) (r : Surroundings) :
    (p.emitter? scope id windowed).At r fun x => ∀ e ∈ x,
      e.body.depth.toNat = scope.depth.toNat + 1 ∧ e.body.depth ≤ r.config.maxNestingDepth := by
  intro h e he
  have hk := depthsFrom_keptIn (Nat.le_refl r.config.maxNestingDepth.toNat) scope.depth.toNat
  have hx := (emitter?_keeps (hk.starts ⟨rfl, .inl rfl⟩) p id windowed h).1 e
    (Option.mem_toList.mpr he)
  obtain ⟨hd, hl⟩ := hx [] e rfl
  exact ⟨hd, UInt8.le_iff_toNat_le.mpr (hd ▸ hl.resolve_left (Nat.succ_ne_zero 0))⟩

end Emitters

/-- The depth of a sequence is its level, and its emitters begin on a first level of their own. -/
def nested (limit : Nat) : Conduct where
  holds n s _ := s.depth.toNat = n ∧ (n = 0 ∨ n ≤ limit) ∧
    ∀ e ∈ s.emitters, e.Graded (depthsFrom limit 0) 0
  allows _ := True

section Sequences

variable {limit n : Nat} {r : Surroundings} {s s' : SequenceBody} {e : Effect} {flow : Flow}

/-- What a sequence starts is one level deeper. -/
theorem Flow.ComesFrom.deeper {c : Sequence} (hc : (Flow.spawned c).ComesFrom r s e) :
    c.body.depth.toNat = s.depth.toNat + 1 ∧ c.body.depth ≤ r.config.maxNestingDepth := by
  obtain ⟨_, _, _, _, _, _, hd, rfl⟩ := hc
  have hnext := toNat_deeper hd
  refine ⟨hnext, UInt8.le_iff_toNat_le.mpr ?_⟩
  change (s.depth + 1).toNat ≤ _
  exact hnext ▸ deeper_le hd (Nat.le_refl _)

/-- What emitters keep when they are told to stop, all of a sequence keep when some are. -/
theorem forall_quieted {P : Emitter → Prop} (stops : ∀ g, P g → P g.stop) {es : List Emitter}
    (hs : ∀ g ∈ es, P g) (pick : EmitterBody → Bool) :
    ∀ g ∈ es.map fun e => if pick e.body then e.stop else e, P g := by
  intro g hg
  obtain ⟨g, hm, rfl⟩ := List.mem_map.mp hg
  split
  · exact stops g (hs g hm)
  · exact hs g hm

/-- An effect leaves the emitters on the levels where they are, and starts new ones on the first. -/
theorem SequenceBody.Does.depths (h : s.Does e s' flow)
    (hs : ∀ g ∈ s.emitters, g.Graded (depthsFrom limit 0) 0) :
    s'.depth = s.depth ∧ ∀ g ∈ s'.emitters, g.Graded (depthsFrom limit 0) 0 := by
  cases h with
  | emitter g _ _ depth =>
    refine ⟨rfl, List.forall_mem_append.mpr ⟨hs, ?_⟩⟩
    simpa [Emitter.graded_ofBody, depthsFrom, EmitterBody.scope] using congrArg UInt8.toNat depth
  | quieted pick =>
    exact ⟨rfl, forall_quieted (fun g hg => hg.stop) hs pick⟩
  | _ => exact ⟨rfl, hs⟩

/-- A queue that ran dry may tell emitters to stop. -/
theorem SequenceBody.requeued_depths (s : SequenceBody)
    (hs : ∀ g ∈ s.emitters, g.Graded (depthsFrom limit 0) 0) :
    s.requeued.1.depth = s.depth ∧
      ∀ g ∈ s.requeued.1.emitters, g.Graded (depthsFrom limit 0) 0 := by
  unfold requeued
  split
  · exact ⟨rfl, hs⟩
  · dsimp only
    split
    · exact ⟨rfl, forall_quieted (fun g hg => hg.stop) hs fun g => g.owner = some s.id⟩
    · exact ⟨rfl, hs⟩

theorem depths_stopEmitters {P : Grade} {es : List Emitter} (hs : ∀ e ∈ es, e.Graded P n) :
    ∀ e ∈ stopEmitters es, e.Graded P n := by
  rw [stopEmitters_eq_map]
  intro e he
  obtain ⟨e, hm, rfl⟩ := List.mem_map.mp he
  exact (hs e hm).stop

/-- A child starts one level further down, and only above the limit. -/
theorem nested_perform (hr : r.config.maxNestingDepth.toNat ≤ limit) {es : List Effect}
    (h : (nested limit).holds n s (e :: es)) :
    (s.perform e).At r fun x => (nested limit).Follows n x.1 e es x.2 := by
  refine ((s.perform_does e).at.and (s.perform_comesFrom e)).mono fun x hx => ?_
  obtain ⟨body, flow⟩ := x
  obtain ⟨hdoes, hfrom⟩ := hx
  obtain ⟨hd, hl, he⟩ := h
  obtain ⟨hdepth, he⟩ := hdoes.depths he
  have here : ∀ es, (nested limit).holds n body es := fun _ => ⟨hdepth ▸ hd, hl, he⟩
  cases flow with
  | spawned c =>
    obtain ⟨hnext, hle⟩ := hfrom.deeper
    have hn : c.body.depth.toNat = n + 1 := by rw [hnext, hd]
    obtain ⟨_, _, _, _, _, _, _, rfl⟩ := hfrom
    refine ⟨here es, Sequence.graded_mk.mpr ⟨⟨⟨hn, .inr ?_, by simp [SequenceBody.fresh]⟩,
      fun _ _ => trivial⟩, by simp⟩⟩
    rw [← hn]
    exact Nat.le_trans (UInt8.le_iff_toNat_le.mp hle) hr
  | splice new => exact here (new ++ es)
  | hold => exact here (e :: es)
  | fault f => exact ⟨here es, trivial⟩
  | proceed | stopRoutine => exact here es

theorem nested_keptIn (hr : r.config.maxNestingDepth.toNat ≤ limit) :
    (nested limit).KeptIn r .forward where
  noted _ _ := Nat.le_refl _
  frame h _ _ _ _ _ := h
  dropped h := h
  passed h _ _ := h
  performed {n s e es} h _ :=
    (s.leads_perform (HostOrder.forward_admits _) e).keeps (nested_perform hr h)
  stopped h := ⟨h.1, h.2.1, depths_stopEmitters h.2.2⟩
  failed h _ := ⟨h.1, h.2.1, depths_stopEmitters h.2.2⟩
  requeued {n s} h _ := by
    obtain ⟨hd, he⟩ := s.requeued_depths h.2.2
    exact ⟨hd ▸ h.1, h.2.1, he⟩
  moved {n s es} h elapsed := by
    refine (advanceEmitters_keeps (depthsFrom_keptIn hr 0) none elapsed _ h.2.2).mono fun x hx =>
      ⟨fun _ _ => trivial, ⟨h.1, h.2.1, hx⟩, h.1, h.2.1, fun e he => ?_⟩
    exact hx e (List.mem_filter.mp he).1

end Sequences

/-- Below a sequence there are sequences, and what their emitters own. -/
theorem Node.at?_sequence {s : Sequence} {a : Place} {x : Node}
    (hx : (Node.sequence s).at? a = some x) :
    ∃ path q, s.at? path = some q ∧ (x = .sequence q ∨
      ∃ e ∈ q.body.emitters, ∃ b, (Node.emitter e).at? b = some x) := by
  induction a generalizing s with
  | nil => exact ⟨[], s, rfl, .inl (Option.some.inj hx).symm⟩
  | cons c a ih =>
    obtain ⟨k, i⟩ := c
    obtain ⟨d, hd, hx⟩ := Option.bind_eq_some_iff.mp hx
    cases k with
    | particle => cases hd
    | emitter =>
      rw [owned, List.getElem?_map] at hd
      obtain ⟨e, he, rfl⟩ := Option.map_eq_some_iff.mp hd
      exact ⟨[], s, rfl, .inr ⟨e, List.mem_of_getElem? he, a, hx⟩⟩
    | sequence =>
      rw [owned, List.getElem?_map] at hd
      obtain ⟨c, hc, rfl⟩ := Option.map_eq_some_iff.mp hd
      obtain ⟨path, q, hq, hx⟩ := ih hx
      exact ⟨i :: path, q, by rw [Sequence.at?_cons, hc]; exact hq, hx⟩

/-- Whatever there is in a system but itself belongs to an activation. -/
theorem Node.at?_system {s : System} {a : Place} {x : Node} (hx : (Node.system s).at? a = some x)
    (hn : x ≠ .system s) : ∃ q ∈ s.sequences, ∃ b, (Node.sequence q).at? b = some x := by
  cases a with
  | nil => exact absurd (Option.some.inj hx).symm hn
  | cons c a =>
    obtain ⟨k, i⟩ := c
    obtain ⟨d, hd, hx⟩ := Option.bind_eq_some_iff.mp hx
    cases k with
    | particle | emitter => cases hd
    | sequence =>
      rw [owned, List.getElem?_map] at hd
      obtain ⟨q, hq, rfl⟩ := Option.map_eq_some_iff.mp hd
      exact ⟨q, List.mem_of_getElem? hq, a, hx⟩

/-- Depths count levels, and none is beyond the limit. -/
structure System.CountsLevels (limit : UInt8) (s : System) : Prop where
  /-- A child is one level below its parent. -/
  children : ∀ a q, (Node.system s).at? a = some (.sequence q) → ∀ c ∈ q.children,
    c.body.depth.toNat = q.body.depth.toNat + 1 ∧ c.body.depth ≤ limit
  emitters : ∀ a q, (Node.system s).at? a = some (.sequence q) → ∀ e ∈ q.body.emitters,
    e.body.depth = 0
  /-- What a particle starts is one level below the emitter of the particle or of its batch. -/
  particles : ∀ a e, (Node.system s).at? a = some (.emitter e) →
    ∀ b p, (∀ c ∈ b, c.kind = .particle) → (Node.emitter e).at? b = some (.particle p) →
      ∀ e' ∈ p.emitters, e'.body.depth.toNat = e.body.depth.toNat + 1 ∧ e'.body.depth ≤ limit

/-- Where sequences are nested, depths count the levels of everything in the system. -/
theorem System.countsLevels_of_nested {s : System} {limit : UInt8}
    (hs : ∀ q ∈ s.sequences, q.Graded (nested limit.toNat).Sound 0) : s.CountsLevels limit := by
  have owner {a : Place} {x : Node} (hx : (Node.system s).at? a = some x) (hn : x ≠ .system s) :
      ∃ n q, q.Graded (nested limit.toNat).Sound n ∧ (x = .sequence q ∨
        ∃ e ∈ q.body.emitters, ∃ b, (Node.emitter e).at? b = some x) := by
    obtain ⟨top, ht, b, hb⟩ := Node.at?_system hx hn
    obtain ⟨path, q, hq, hx⟩ := Node.at?_sequence hb
    exact ⟨_, q, (hs top ht).at? hq, hx⟩
  have found {a : Place} {q : Sequence} (hq : (Node.system s).at? a = some (.sequence q)) :
      ∃ n, q.Graded (nested limit.toNat).Sound n := by
    obtain ⟨n, q', hg, hx | ⟨e, _, b, hb⟩⟩ := owner hq nofun
    · cases hx
      exact ⟨n, hg⟩
    · cases Node.isParticulate_of_at? rfl hb
  constructor
  case children =>
    intro a q hq c hc
    obtain ⟨n, hg⟩ := found hq
    obtain ⟨body, children⟩ := q
    obtain ⟨hb, hcs⟩ := Sequence.graded_mk.mp hg
    obtain ⟨hd, hl, _⟩ := (hcs c hc [] c rfl).holds
    refine ⟨hd.trans (congrArg Nat.succ hb.holds.1.symm), UInt8.le_iff_toNat_le.mpr ?_⟩
    exact hd ▸ hl.resolve_left (Nat.succ_ne_zero n)
  case emitters =>
    intro a q hq e he
    obtain ⟨n, hg⟩ := found hq
    have hd := ((hg [] q rfl).holds.2.2 e he [] e rfl).1
    exact UInt8.toNat_inj.mp hd
  case particles =>
    intro a e he b p hb hp e' he'
    obtain ⟨n, q, hg, hx | ⟨top, ht, c, hc⟩⟩ := owner he nofun
    · cases hx
    have graded := (hg [] q rfl).holds.2.2 top ht
    obtain ⟨j, hj⟩ := List.getElem?_of_mem he'
    have hplace : (Node.emitter top).at? (c ++ (b ++ [⟨.emitter, j⟩])) = some (.emitter e') := by
      rw [Node.at?_append, hc, Option.bind_some, Node.at?_append, hp, Option.bind_some,
        Node.at?_cons, Node.owned, List.getElem?_map, hj]
      rfl
    have hlevels : Place.levels (c ++ (b ++ [⟨.emitter, j⟩])) = c.levels + 1 := by
      have hnone : b.countP (fun x => x.kind = .emitter) = 0 :=
        List.countP_eq_zero.mpr fun x hx => by simp [hb x hx]
      simp [Place.levels, hnone]
    obtain ⟨hd', hl⟩ := graded _ e' hplace
    obtain ⟨hd, _⟩ := graded c e hc
    rw [hlevels] at hd' hl
    have hnext : e'.body.depth.toNat = e.body.depth.toNat + 1 := by
      change e.body.depth.toNat = _ at hd
      rw [hd]
      exact hd'
    refine ⟨hnext, UInt8.le_iff_toNat_le.mpr ?_⟩
    exact hd' ▸ hl.resolve_left (Nat.succ_ne_zero _)

/-- In every state that a system comes to, by whatever routines and generators there are, depths
count levels and none is beyond the limit. No addition that makes a depth wraps around, in these
states or in any others. -/
theorem nesting_is_bounded :
    (∀ limit h (os : List Occasion), (∀ o ∈ os, o.surroundings.config.maxNestingDepth ≤ limit) →
      (Ledger.after {} h os).system.CountsLevels limit) ∧
    (∀ (s : SequenceBody) id blocking scope r, (s.spawnRoutine id blocking scope).At r fun x =>
      ∀ c, x.2 = .spawned c →
        c.body.depth.toNat = s.depth.toNat + 1 ∧ c.body.depth ≤ r.config.maxNestingDepth) ∧
    ∀ (p : ParticleBody) scope id windowed r, (p.emitter? scope id windowed).At r fun x =>
      ∀ e ∈ x, e.body.depth.toNat = scope.depth.toNat + 1 ∧
        e.body.depth ≤ r.config.maxNestingDepth := by
  refine ⟨fun limit h os hc => ?_, fun s id blocking scope r => ?_, ParticleBody.emitter?_deeper⟩
  · have hs := Ledger.after_stands (C := fun _ : Unit => nested limit.toNat) os
      (HostOrder.forward_admits []).toMild
      (fun o ho _ => nested_keptIn (UInt8.le_iff_toNat_le.mp (hc o ho)))
      (fun o _ x _ => ⟨(), fun _ _ => ⟨rfl, .inl rfl, nofun⟩⟩) (Ledger.new_stands _) h
    exact System.countsLevels_of_nested fun q hq => (hs.system.sequences q hq).elim fun _ h => h
  · refine (SequenceBody.spawnRoutine_comesFrom (e := ⟨0, 0, .wait⟩) id blocking scope).mono
      fun x hx c hc => ?_
    rw [hc] at hx
    exact hx.deeper

/-- Starts itself, and a generator whose particles start it again. -/
def Routine.endless : Routine where
  id := ⟨1, 0, 0, 0⟩
  origin := ResourcePath.root
  effects := [⟨0, 0, .spawnGenerator ⟨2, 0, 0, 0⟩⟩, ⟨0, 0, .spawnRoutine ⟨1, 0, 0, 0⟩ true⟩]
  onComplete := []
  onStop := []
  autoRun := false

def Surroundings.endless : Surroundings :=
  let g : Generator := { Generator.plain [⟨0, .childGenerator ⟨2, 0, 0, 0⟩⟩] [] with
    id := ⟨2, 0, 0, 0⟩ }
  { bare with
    directory := (({} : Directory).insert ResourcePath.root Routine.endless.id
      (.routine .endless)).insert ResourcePath.root g.id (.generator g)
    config := { maxNestingDepth := 2 } }

def endlessRun : List Occasion :=
  [.start .endless .weather, .advance 1, .advance 1, .advance 1, .advance 1].map
    (.alone .endless)

/-- The depth of what comes first at each step from a system, and how much it has started. -/
def depthAt? (s : System) (kinds : List NodeKind) : Option (UInt8 × Nat) :=
  match (Node.system s).at? (kinds.map (⟨·, 0⟩)) with
  | some (.emitter e) => some (e.body.depth, (e.particles.flatMap Particle.emitters).length)
  | some (.sequence q) => some (q.body.depth, q.children.length)
  | _ => none

/-- What starts itself again comes to the limit, and no further. -/
theorem endless_is_bounded :
    (∀ o ∈ endlessRun, o.surroundings.config.maxNestingDepth ≤ 2) ∧
    (Ledger.after {} .fresh endlessRun).system.CountsLevels 2 ∧
    depthAt? (Ledger.after {} .fresh endlessRun).system [.sequence, .sequence, .sequence] =
      some (2, 0) ∧
    depthAt? (Ledger.after {} .fresh endlessRun).system
      [.sequence, .emitter, .particle, .emitter, .particle, .emitter] = some (2, 0) := by
  have hc : ∀ o ∈ endlessRun, o.surroundings.config.maxNestingDepth ≤ 2 := by
    intro o ho
    obtain ⟨request, _, rfl⟩ := List.mem_map.mp ho
    exact UInt8.le_refl 2
  exact ⟨hc, nesting_is_bounded.1 2 .fresh endlessRun hc, by decide +kernel, by decide +kernel⟩

end EffectMachine
