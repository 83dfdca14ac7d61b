import EffectMachine.Proofs.Tree
import Mathlib.Algebra.Order.Ring.Nat
import Mathlib.Data.List.Induction

namespace EffectMachine

namespace Node

def liveCount : Node → Nat
  | .particle p => p.liveCount
  | .emitter e => e.liveCount
  | .sequence s => s.liveCount
  | .system s => s.liveCount

def instances : Node → List Instance
  | .particle p => p.instances
  | .emitter e => e.instances
  | .sequence s => s.instances
  | .system s => s.instances

def ownInstance? : Node → Option Instance
  | .particle p => if p.isLive then some p.body.toInstance else none
  | _ => none

/-- A node has an instance of its own exactly if it is a particle that can be seen and has not
expired. -/
theorem ownInstance?_eq_some {n : Node} {x : Instance} :
    n.ownInstance? = some x ↔
      ∃ p, n = .particle p ∧ p.body.carrier = false ∧ p.isExpired = false ∧
        x = p.body.toInstance := by
  cases n with
  | particle p =>
    have live : p.isLive = true ↔ p.body.carrier = false ∧ p.isExpired = false := by
      simp [Particle.isLive]
    constructor
    · intro h
      obtain ⟨hp, hx⟩ := Option.ite_none_right_eq_some.mp h
      obtain ⟨carrier, expired⟩ := live.mp hp
      exact ⟨p, rfl, carrier, expired, (Option.some.inj hx).symm⟩
    · rintro ⟨_, h, carrier, expired, rfl⟩
      cases h
      exact if_pos (live.mpr ⟨carrier, expired⟩)
  | emitter | sequence | system =>
    constructor
    · intro h
      cases h
    · rintro ⟨_, h, _⟩
      cases h

end Node

section Walks

theorem liveInParticles_eq (ps : List Particle) :
    liveInParticles ps = ((ps.map Node.particle).map Node.liveCount).sum := by
  induction ps with
  | nil => rfl
  | cons p ps ih => rw [liveInParticles, ih]; rfl

theorem liveInEmitters_eq (es : List Emitter) :
    liveInEmitters es = ((es.map Node.emitter).map Node.liveCount).sum := by
  induction es with
  | nil => rfl
  | cons e es ih => rw [liveInEmitters, ih]; rfl

theorem liveInSequences_eq (ss : List Sequence) :
    liveInSequences ss = ((ss.map Node.sequence).map Node.liveCount).sum := by
  induction ss with
  | nil => rfl
  | cons s ss ih => rw [liveInSequences, ih]; rfl

theorem instancesOfParticles_eq (ps : List Particle) :
    instancesOfParticles ps = (ps.map Node.particle).flatMap Node.instances := by
  induction ps with
  | nil => rfl
  | cons p ps ih => rw [instancesOfParticles, ih]; rfl

theorem instancesOfEmitters_eq (es : List Emitter) :
    instancesOfEmitters es = (es.map Node.emitter).flatMap Node.instances := by
  induction es with
  | nil => rfl
  | cons e es ih => rw [instancesOfEmitters, ih]; rfl

theorem instancesOfSequences_eq (ss : List Sequence) :
    instancesOfSequences ss = (ss.map Node.sequence).flatMap Node.instances := by
  induction ss with
  | nil => rfl
  | cons s ss ih => rw [instancesOfSequences, ih]; rfl

end Walks

namespace Node

/-- Both walks go through a node in the same order: the node itself, then what it owns by kinds. -/
theorem instances_eq (n : Node) :
    n.instances = n.ownInstance?.toList ++ (n.owned .particle).flatMap instances ++
      (n.owned .emitter).flatMap instances ++ (n.owned .sequence).flatMap instances := by
  cases n with
  | particle p =>
    obtain ⟨body, children, emitters⟩ := p
    simp only [instances, Particle.instances, instancesOfParticles_eq, instancesOfEmitters_eq,
      ownInstance?, owned, List.flatMap_nil, List.append_nil]
    split <;> rfl
  | emitter e =>
    obtain ⟨body, particles⟩ := e
    simp [instances, Emitter.instances, instancesOfParticles_eq, ownInstance?, owned,
      Emitter.particles]
  | sequence s =>
    obtain ⟨body, children⟩ := s
    simp [instances, Sequence.instances, instancesOfEmitters_eq, instancesOfSequences_eq,
      ownInstance?, owned, Sequence.body, Sequence.children]
  | system s => simp [instances, System.instances, instancesOfSequences_eq, ownInstance?, owned]

/-- The count of a node is its own and those of all that it owns, kind by kind. -/
theorem liveCount_eq (n : Node) :
    n.liveCount = n.ownInstance?.toList.length + ((n.owned .particle).map liveCount).sum +
      ((n.owned .emitter).map liveCount).sum + ((n.owned .sequence).map liveCount).sum := by
  cases n with
  | particle p =>
    obtain ⟨body, children, emitters⟩ := p
    simp only [liveCount, Particle.liveCount, liveInParticles_eq, liveInEmitters_eq,
      ownInstance?, owned, List.map_nil, List.sum_nil, Nat.add_zero]
    split <;> rfl
  | emitter e =>
    obtain ⟨body, particles⟩ := e
    simp [liveCount, Emitter.liveCount, liveInParticles_eq, ownInstance?, owned,
      Emitter.particles]
  | sequence s =>
    obtain ⟨body, children⟩ := s
    simp [liveCount, Sequence.liveCount, liveInEmitters_eq, liveInSequences_eq,
      ownInstance?, owned, Sequence.body, Sequence.children]
  | system s => simp [liveCount, System.liveCount, liveInSequences_eq, ownInstance?, owned]

theorem length_instances (n : Node) : n.instances.length = n.liveCount := by
  induction n using Node.induction with
  | h n ih =>
    have below (k : NodeKind) :
        ((n.owned k).flatMap instances).length = ((n.owned k).map liveCount).sum := by
      rw [List.length_flatMap]
      exact congrArg List.sum (List.map_congr_left (ih k))
    rw [instances_eq, liveCount_eq, List.length_append, List.length_append, List.length_append,
      below, below, below]

def instanceAt? (n : Node) (a : Place) : Option Instance := (n.at? a).bind ownInstance?

@[simp] theorem instanceAt?_nil (n : Node) : n.instanceAt? [] = n.ownInstance? := rfl

@[simp] theorem instanceAt?_cons (n : Node) (s : Branch) (a : Place) :
    n.instanceAt? (s :: a) = (n.owned s.kind)[s.index]?.bind fun c => c.instanceAt? a := by
  rw [instanceAt?, at?_cons, Option.bind_assoc]
  rfl

/-- The instances of some nodes of a kind, each with the place of its particle below the owner of
those nodes, in order. -/
structure ListsBelow (k : NodeKind) (cs : List Node) (shown : List (Place × Instance)) : Prop where
  instances : shown.map (·.2) = cs.flatMap instances
  inOrder : shown.Pairwise fun s t => s.1.Before t.1
  mem : ∀ a x, (a, x) ∈ shown ↔
    ∃ i b, a = ⟨k, i⟩ :: b ∧ (cs[i]?.bind fun c => c.instanceAt? b) = some x

/-- The instances of a node, each with the place of its particle, in order. -/
structure Lists (n : Node) (shown : List (Place × Instance)) : Prop where
  instances : shown.map (·.2) = n.instances
  inOrder : shown.Pairwise fun s t => s.1.Before t.1
  mem : ∀ a x, (a, x) ∈ shown ↔ n.instanceAt? a = some x

theorem listsBelow_nil (k : NodeKind) : ListsBelow k [] [] :=
  ⟨rfl, .nil, by simp⟩

/-- What one more node shows comes last. -/
theorem ListsBelow.concat {k : NodeKind} {cs : List Node} {c : Node}
    {shown more : List (Place × Instance)} (h : ListsBelow k cs shown) (hc : c.Lists more) :
    ListsBelow k (cs ++ [c]) (shown ++ more.map fun s => (⟨k, cs.length⟩ :: s.1, s.2)) where
  instances := by
    have he : (more.map fun s => ((⟨k, cs.length⟩ :: s.1 : Place), s.2)).map (·.2) =
        more.map (·.2) := by
      rw [List.map_map]
      rfl
    rw [List.map_append, he, h.instances, hc.instances, List.flatMap_append, List.flatMap_singleton]
  inOrder := by
    rw [List.pairwise_append, List.pairwise_map]
    refine ⟨h.inOrder, hc.inOrder.imp .cons, fun s hs t ht => ?_⟩
    obtain ⟨i, b, hi, hx⟩ := (h.mem s.1 s.2).mp hs
    obtain ⟨t, -, rfl⟩ := List.mem_map.mp ht
    obtain ⟨d, hd, -⟩ := Option.bind_eq_some_iff.mp hx
    rw [hi]
    exact .rel (.inr ⟨rfl, (List.getElem?_eq_some_iff.mp hd).1⟩)
  mem a x := by
    rw [List.mem_append, h.mem, List.mem_map]
    constructor
    · rintro (⟨i, b, rfl, hx⟩ | ⟨⟨b, y⟩, hb, he⟩)
      · obtain ⟨d, hd, hx⟩ := Option.bind_eq_some_iff.mp hx
        refine ⟨i, b, rfl, ?_⟩
        rw [List.getElem?_append_left (List.getElem?_eq_some_iff.mp hd).1, hd]
        exact hx
      · cases he
        refine ⟨cs.length, b, rfl, ?_⟩
        rw [List.getElem?_concat_length]
        exact (hc.mem b y).mp hb
    · rintro ⟨i, b, rfl, hx⟩
      obtain ⟨d, hd, hx⟩ := Option.bind_eq_some_iff.mp hx
      rcases Nat.lt_trichotomy i cs.length with hi | rfl | hi
      · rw [List.getElem?_append_left hi] at hd
        exact .inl ⟨i, b, rfl, by rw [hd]; exact hx⟩
      · rw [List.getElem?_concat_length] at hd
        cases hd
        exact .inr ⟨(b, x), (hc.mem b x).mpr hx, rfl⟩
      · rw [List.getElem?_eq_none (by simpa using Nat.succ_le_of_lt hi)] at hd
        cases hd

theorem exists_listsBelow (k : NodeKind) (cs : List Node)
    (h : ∀ c ∈ cs, ∃ shown, c.Lists shown) : ∃ shown, ListsBelow k cs shown := by
  induction cs using List.reverseRecOn with
  | nil => exact ⟨[], listsBelow_nil k⟩
  | append_singleton cs c ih =>
    obtain ⟨shown, hs⟩ := ih fun d hd => h d (List.mem_append_left _ hd)
    obtain ⟨more, hm⟩ := h c (List.mem_append_right _ List.mem_cons_self)
    exact ⟨_, hs.concat hm⟩

/-- Of two kinds that a node owns, one is walked before the other. -/
theorem ListsBelow.before {k l : NodeKind} {cs ds : List Node}
    {shown more : List (Place × Instance)} (h : ListsBelow k cs shown) (h' : ListsBelow l ds more)
    (hkl : k.rank < l.rank) : ∀ s ∈ shown, ∀ t ∈ more, s.1.Before t.1 := by
  intro s hs t ht
  obtain ⟨_, _, hs, -⟩ := (h.mem s.1 s.2).mp hs
  obtain ⟨_, _, ht, -⟩ := (h'.mem t.1 t.2).mp ht
  rw [hs, ht]
  exact .rel (.inl hkl)

def ownShown (n : Node) : List (Place × Instance) := n.ownInstance?.toList.map fun x => ([], x)

theorem mem_ownShown {n : Node} {a : Place} {x : Instance} :
    (a, x) ∈ n.ownShown ↔ a = [] ∧ n.ownInstance? = some x := by
  simp only [ownShown, List.mem_map, Option.mem_toList, Prod.mk.injEq]
  constructor
  · rintro ⟨_, hx, rfl, rfl⟩
    exact ⟨rfl, hx⟩
  · rintro ⟨rfl, hx⟩
    exact ⟨x, hx, rfl, rfl⟩

/-- What is above is walked first. -/
theorem ListsBelow.behind_own {k : NodeKind} {cs : List Node} {shown : List (Place × Instance)}
    (h : ListsBelow k cs shown) (n : Node) : ∀ s ∈ n.ownShown, ∀ t ∈ shown, s.1.Before t.1 := by
  intro s hs t ht
  obtain ⟨_, _, ht, -⟩ := (h.mem t.1 t.2).mp ht
  rw [(mem_ownShown.mp hs).1, ht]
  exact .nil

/-- Every node has a list of its instances with their places: by induction on the tree. -/
theorem exists_lists (n : Node) : ∃ shown, n.Lists shown := by
  induction n using Node.induction with
  | h n ih =>
    obtain ⟨ps, hp⟩ := exists_listsBelow .particle _ (ih .particle)
    obtain ⟨es, he⟩ := exists_listsBelow .emitter _ (ih .emitter)
    obtain ⟨ss, hs⟩ := exists_listsBelow .sequence _ (ih .sequence)
    refine ⟨n.ownShown ++ ps ++ es ++ ss, ?_, ?_, fun a x => ?_⟩
    · have own : n.ownShown.map (·.2) = n.ownInstance?.toList := by
        rw [ownShown, List.map_map]
        exact List.map_id _
      rw [instances_eq, List.map_append, List.map_append, List.map_append, own, hp.instances,
        he.instances, hs.instances]
    · have alone : n.ownShown.Pairwise fun s t => s.1.Before t.1 := by
        unfold ownShown
        cases n.ownInstance? <;> simp
      simp only [List.pairwise_append, List.mem_append]
      refine ⟨⟨⟨alone, hp.inOrder, hp.behind_own n⟩, he.inOrder, ?_⟩, hs.inOrder, ?_⟩
      · rintro s (h | h)
        · exact he.behind_own n s h
        · exact hp.before he (by decide) s h
      · rintro s ((h | h) | h)
        · exact hs.behind_own n s h
        · exact hp.before hs (by decide) s h
        · exact he.before hs (by decide) s h
    · simp only [List.mem_append, mem_ownShown, hp.mem, he.mem, hs.mem]
      cases a with
      | nil => simp
      | cons s a =>
        obtain ⟨k, i⟩ := s
        rw [instanceAt?_cons]
        cases k <;> simp [and_comm]

end Node

/-- What is shown and what is counted agree, for a particle, an emitter, a sequence and a system:
each live particle below has one instance, at its turn in the walk through the tree, and nothing
else has any. -/
theorem instances_are_live_particles (n : Node) : n.instances.length = n.liveCount ∧
    ∃ shown : List (Place × Instance), shown.map (·.2) = n.instances ∧
      (shown.Pairwise fun s t => s.1.Before t.1) ∧
      ∀ a x, (a, x) ∈ shown ↔
        ∃ p, n.at? a = some (.particle p) ∧ p.body.carrier = false ∧ p.isExpired = false ∧
          x = p.body.toInstance := by
  obtain ⟨shown, h⟩ := n.exists_lists
  refine ⟨n.length_instances, shown, h.instances, h.inOrder, fun a x => ?_⟩
  rw [h.mem, Node.instanceAt?, Option.bind_eq_some_iff]
  simp only [Node.ownInstance?_eq_some]
  constructor
  · rintro ⟨_, ha, p, rfl, hp⟩
    exact ⟨p, ha, hp⟩
  · rintro ⟨p, ha, hp⟩
    exact ⟨_, ha, p, rfl, hp⟩

end EffectMachine
