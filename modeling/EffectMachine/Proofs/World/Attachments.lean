import EffectMachine.World.Attach

namespace EffectMachine

/-- Something in a scene that an anchor can be taken from. -/
inductive Landmark where
  | actor (id : ActorId)
  | object (link : ResourceId)

/-- What an attachment names under a binding, with the link of its generator; nothing where the
binding has no such part. -/
def Binding.landmarks? (link : ResourceId) : Attachment → Binding → Option (List Landmark)
  | .none, .actors source _ _ => some [.actor source]
  | .none, .weather => some []
  | .none, .zone own => some [.object own]
  | .source, .actors source _ _ => some [.actor source]
  | .target, .actors source target _ => some [.actor (target.getD source)]
  | .sourceJoint, .actors source _ _ => some [.actor source]
  | .targetJoint, .actors source target _ => some [.actor (target.getD source)]
  | .sourceToTarget, .actors source target _ => some [.actor source, .actor (target.getD source)]
  | .sun, _ => some []
  | .moon, _ => some []
  | .zoneObject, b =>
    if link = .none then b.zoneLink?.map fun own => [.object own] else some [.object link]
  | _, _ => none

namespace Joint

def IsRing (joint : UInt8) : Prop := 0xE0 ≤ joint ∧ joint ≤ 0xE7

theorem mem_ring {joint : UInt8} : joint ∈ ring ↔ IsRing joint := by
  simp only [ring, List.mem_cons, List.not_mem_nil, or_false, IsRing, UInt8.le_iff_toNat_le,
    ← UInt8.toNat_inj, UInt8.reduceToNat]
  omega

theorem pairwise_ring : ring.Pairwise (· < ·) := by decide

end Joint

namespace Scene

variable {s : Scene} {actor other : ActorId} {opposing : Option ActorId} {joint : UInt8}
  {point p : Vec3}

def Shows (s : Scene) : Landmark → Prop
  | .actor id => (s.actor? id).isSome
  | .object link => (s.object? link).isSome

def rank (point p : Vec3) : Int := (p.distanceSquared point).orderKey

/-- The place of the lowest-numbered ring joint that is nearest to a point. -/
def IsRingChoice (s : Scene) (actor : ActorId) (point p : Vec3) : Prop :=
  ∃ j, Joint.IsRing j ∧ s.joint? actor j = some p ∧
    ∀ k q, Joint.IsRing k → s.joint? actor k = some q →
      rank point p ≤ rank point q ∧ (k < j → rank point p < rank point q)

/-- The first point with the least rank parts the list: everything before it has a larger one. -/
structure IsFirstNearest (point : Vec3) (ps : List Vec3) (p : Vec3) (before after : List Vec3) :
    Prop where
  parts : ps = before ++ p :: after
  before : ∀ q ∈ before, rank point p < rank point q
  after : ∀ q ∈ after, rank point p ≤ rank point q

/-- Nothing in the list is nearer than the first nearest. -/
theorem IsFirstNearest.le {ps before after : List Vec3}
    (h : IsFirstNearest point ps p before after) {q : Vec3} (hq : q ∈ ps) :
    rank point p ≤ rank point q := by
  rw [h.parts, List.mem_append, List.mem_cons] at hq
  rcases hq with hq | rfl | hq
  · exact Int.le_of_lt (h.before q hq)
  · exact Int.le_refl _
  · exact h.after q hq

/-- By induction on the points that are still to be compared. -/
theorem exists_isFirstNearest (point best : Vec3) (ps : List Vec3) :
    ∃ before after, IsFirstNearest point (best :: ps)
      (ps.foldl (fun best q => if rank point q < rank point best then q else best) best)
      before after := by
  induction ps generalizing best with
  | nil => exact ⟨[], [], rfl, by simp, by simp⟩
  | cons p ps ih =>
    rw [List.foldl_cons]
    split
    next hp =>
      -- The new point is nearer: what was best so far comes before the choice.
      obtain ⟨before, after, h⟩ := ih p
      have hbest := Int.lt_of_le_of_lt (h.le List.mem_cons_self) hp
      refine ⟨best :: before, after, ?_, List.forall_mem_cons.mpr ⟨hbest, h.before⟩, h.after⟩
      rw [List.cons_append, ← h.parts]
    next hp =>
      obtain ⟨before, after, parts, hbefore, hafter⟩ := ih best
      generalize ps.foldl _ best = r at *
      have hp := Int.not_lt.mp hp
      cases before with
      | nil =>
        obtain ⟨rfl, rfl⟩ := List.cons.inj parts
        exact ⟨[], p :: ps, rfl, by simp, List.forall_mem_cons.mpr ⟨hp, hafter⟩⟩
      | cons b before =>
        obtain ⟨rfl, rfl⟩ := List.cons.inj parts
        obtain ⟨hb, hbefore⟩ := List.forall_mem_cons.mp hbefore
        refine ⟨best :: p :: before, after, rfl, ?_, hafter⟩
        exact List.forall_mem_cons.mpr
          ⟨hb, List.forall_mem_cons.mpr ⟨Int.lt_of_lt_of_le hb hp, hbefore⟩⟩

theorem nearest_cons (point best : Vec3) (ps : List Vec3) :
    ∃ p before after, nearest point (best :: ps) = some p ∧
      IsFirstNearest point (best :: ps) p before after := by
  obtain ⟨before, after, h⟩ := exists_isFirstNearest point best ps
  exact ⟨_, before, after, rfl, h⟩

/-- An actor with a ring joint has a nearest one. -/
theorem exists_ringChoice {j : UInt8} (hj : Joint.IsRing j) (h : (s.joint? actor j).isSome)
    (point : Vec3) :
    ∃ p, nearest point (Joint.ring.filterMap (s.joint? actor)) = some p ∧
      s.IsRingChoice actor point p := by
  obtain ⟨q, hq⟩ := Option.isSome_iff_exists.mp h
  have mem {k : UInt8} {q : Vec3} (hk : Joint.IsRing k) (hq : s.joint? actor k = some q) :
      q ∈ Joint.ring.filterMap (s.joint? actor) :=
    List.mem_filterMap.mpr ⟨k, Joint.mem_ring.mpr hk, hq⟩
  obtain ⟨best, ps, hps⟩ := List.exists_cons_of_ne_nil (List.ne_nil_of_mem (mem hj hq))
  obtain ⟨p, before, after, hp, first⟩ := nearest_cons point best ps
  rw [hps]
  rw [← hps] at first
  refine ⟨p, hp, ?_⟩
  -- The joints are parted as their places are.
  obtain ⟨low, rest, hring, hlow, hrest⟩ := List.filterMap_eq_append_iff.mp first.parts
  obtain ⟨missing, i, high, hcons, hmissing, hi, -⟩ := List.filterMap_eq_cons_iff.mp hrest
  have sorted := Joint.pairwise_ring
  rw [hring, hcons, ← List.append_assoc] at sorted
  refine ⟨i, ?_, hi, fun k q hk hq => ⟨first.le (mem hk hq), fun hki => ?_⟩⟩
  · exact Joint.mem_ring.mp (by rw [hring, hcons]; simp)
  · -- A joint with a lower number stands before the chosen one.
    have hk := Joint.mem_ring.mpr hk
    rw [hring, hcons, ← List.append_assoc, List.mem_append] at hk
    rcases hk with hk | hk
    · rcases List.mem_append.mp hk with hk | hk
      · exact first.before q (hlow ▸ List.mem_filterMap.mpr ⟨k, hk, hq⟩)
      · rw [hmissing k hk] at hq
        cases hq
    · have above := List.pairwise_cons.mp (List.pairwise_append.mp sorted).2.1
      rcases List.mem_cons.mp hk with rfl | hk
      · exact absurd hki (UInt8.lt_irrefl _)
      · exact absurd (UInt8.lt_trans hki (above.1 k hk)) (UInt8.lt_irrefl _)

theorem joint?_of_missing (h : s.actor? actor = none) (joint : UInt8) :
    s.joint? actor joint = none := by
  rw [joint?, h]
  rfl

theorem ringJoint?_of_missing (h : s.actor? actor = none) (opposing : Option ActorId)
    (joint : UInt8) : s.ringJoint? actor opposing joint = none := by
  have hring : Joint.ring.filterMap (s.joint? actor) = [] :=
    List.filterMap_eq_nil_iff.mpr fun j _ => joint?_of_missing h j
  unfold ringJoint?
  split
  · rw [hring, nearest]
  · exact joint?_of_missing h _

/-- Whatever joint is asked for, it has a place just when the actor is there. -/
theorem isSome_jointPosition? (s : Scene) (actor : ActorId) (opposing : Option ActorId)
    (joint : UInt8) :
    (s.jointPosition? actor opposing joint).isSome = (s.actor? actor).isSome := by
  have place : (s.position? actor).isSome = (s.actor? actor).isSome := Option.isSome_map
  rw [jointPosition?]
  dsimp only
  split
  · exact place
  · rw [Option.isSome_or, place]
    cases h : s.actor? actor with
    | some a => exact Bool.or_true _
    | none =>
      rw [joint?_of_missing h, ringJoint?_of_missing h, ite_self]
      rfl

/-- A request for the ring takes the choice where there is one to make. -/
theorem jointPosition?_of_ringChoice (low : 0xF0 ≤ joint) (high : joint ≤ 0xF7)
    (hother : other ≠ actor) (hpoint : s.position? other = some point)
    (hp : nearest point (Joint.ring.filterMap (s.joint? actor)) = some p) :
    s.jointPosition? actor (some other) joint = some p := by
  have hsheathed : joint ≠ Joint.sheathed := by
    rintro rfl
    exact absurd low (by decide)
  have hroot : joint ≠ Joint.root := by
    rintro rfl
    exact absurd low (by decide)
  have asks : Joint.asksForRing joint = true := by
    rw [Joint.asksForRing, decide_eq_true low, decide_eq_true high, Bool.and_self]
  have hopposing : ((some other).filter (· ≠ actor)).bind s.position? = some point := by
    rw [Option.filter_some, if_pos (decide_eq_true hother), Option.bind_some, hpoint]
  have same : s.remapJoint actor joint = joint := by
    rw [remapJoint, decide_eq_false hsheathed, Bool.false_and, if_neg Bool.false_ne_true]
  rw [jointPosition?, same]
  dsimp only
  rw [if_neg hroot, if_pos asks, ringJoint?, hopposing]
  dsimp only
  rw [hp, Option.some_or]

theorem isSome_actorAnchor? (s : Scene) (id : ActorId) :
    (s.actorAnchor? id).isSome = (s.actor? id).isSome :=
  Option.isSome_map

theorem isSome_objectAnchor? (s : Scene) (link : ResourceId) :
    (s.objectAnchor? link).isSome = (s.object? link).isSome :=
  Option.isSome_map

theorem isSome_jointAnchor? (s : Scene) (id : ActorId) (opposing : Option ActorId)
    (joint : UInt8) : (s.jointAnchor? id opposing joint).isSome = (s.actor? id).isSome := by
  have hjoint := s.isSome_jointPosition? id opposing joint
  rw [jointAnchor?, actorAnchor?]
  cases h : s.actor? id with
  | none => rfl
  | some a =>
    rw [h, Option.isSome_some] at hjoint
    obtain ⟨p, hp⟩ := Option.isSome_iff_exists.mp hjoint
    rw [hp]
    rfl

theorem isSome_beamAnchor? (s : Scene) (source target : ActorId) (j k : UInt8) :
    (s.beamAnchor? source target j k).isSome =
      ((s.actor? source).isSome && (s.actor? target).isSome) := by
  rw [← s.isSome_jointPosition? source (some target) j,
    ← s.isSome_jointPosition? target (some source) k, beamAnchor?]
  cases s.jointPosition? source (some target) j with
  | none => rfl
  | some start => cases s.jointPosition? target (some source) k <;> rfl

/-- Does the scene show all that an attachment names? -/
def Serves (s : Scene) (spec : AttachSpec) (b : Binding) : Prop :=
  ∃ names, Binding.landmarks? spec.zoneLink spec.attach b = some names ∧ ∀ l ∈ names, s.Shows l

theorem isSome_resolveAnchor? (s : Scene) (spec : AttachSpec) (b : Binding) (sky : Sky) :
    (s.resolveAnchor? spec b sky).isSome ↔ s.Serves spec b := by
  obtain ⟨attach, j, k, link⟩ := spec
  cases attach with
  | zoneObject =>
    by_cases hl : link = .none <;> cases b <;>
      simp [resolveAnchor?, Serves, Binding.landmarks?, Shows, Binding.zoneLink?,
        ResourceId.isNone, hl, isSome_objectAnchor?]
  | _ =>
    cases b <;>
      simp [resolveAnchor?, Serves, Binding.landmarks?, Shows, bindingAnchor?, Binding.source?,
        Binding.target?, isSome_actorAnchor?, isSome_objectAnchor?, isSome_jointAnchor?,
        isSome_beamAnchor?, position?]

/-- Is the anchor placed by the joints that the attachment asks for? -/
def UsesJoints (s : Scene) (spec : AttachSpec) (b : Binding) (anchor : Anchor) : Prop :=
  match spec.attach, b with
  | .sourceJoint, .actors source target _ =>
    s.jointPosition? source (some (target.getD source)) spec.sourceJoint = some anchor.position
  | .targetJoint, .actors source target _ =>
    s.jointPosition? (target.getD source) (some source) spec.sourceJoint = some anchor.position
  | .sourceToTarget, .actors source target _ =>
    ∃ finish, s.jointPosition? source (some (target.getD source)) spec.sourceJoint =
        some anchor.position ∧
      s.jointPosition? (target.getD source) (some source) spec.targetJoint = some finish ∧
      anchor = Anchor.beam anchor.position finish
  | _, _ => True

theorem position_of_jointAnchor? {anchor : Anchor}
    (h : s.jointAnchor? actor opposing joint = some anchor) :
    s.jointPosition? actor opposing joint = some anchor.position := by
  rw [jointAnchor?] at h
  obtain ⟨base, -, h⟩ := Option.bind_eq_some_iff.mp h
  obtain ⟨p, hp, h⟩ := Option.bind_eq_some_iff.mp h
  obtain rfl := Option.some.inj h
  exact hp

/-- An anchor that is found is placed by the joints asked for. -/
theorem usesJoints_of_resolveAnchor? {spec : AttachSpec} {b : Binding} {sky : Sky} {anchor : Anchor}
    (h : s.resolveAnchor? spec b sky = some anchor) : s.UsesJoints spec b anchor := by
  obtain ⟨attach, j, k, link⟩ := spec
  cases b with
  | weather | zone => cases attach <;> trivial
  | actors source target context =>
    cases attach with
    | sourceJoint => exact position_of_jointAnchor? h
    | targetJoint => exact position_of_jointAnchor? h
    | sourceToTarget =>
      change s.beamAnchor? source (target.getD source) j k = some anchor at h
      rw [beamAnchor?] at h
      obtain ⟨start, hstart, h⟩ := Option.bind_eq_some_iff.mp h
      obtain ⟨finish, hfinish, h⟩ := Option.bind_eq_some_iff.mp h
      obtain rfl := Option.some.inj h
      exact ⟨finish, hstart, hfinish, rfl⟩
    | _ => trivial

/-- An attachment has an anchor just when the scene shows what it names, whatever its joints are;
joints place the anchor; and a request for the ring takes the first of the ring joints nearest to
the other actor. -/
theorem attachments_fall_back (s : Scene) :
    (∀ spec b sky, ((s.resolveAnchor? spec b sky).isSome ↔ s.Serves spec b) ∧
      ∀ anchor, s.resolveAnchor? spec b sky = some anchor → s.UsesJoints spec b anchor) ∧
    ∀ actor other point joint, 0xF0 ≤ joint → joint ≤ 0xF7 → other ≠ actor →
      s.position? other = some point →
      (∃ j, Joint.IsRing j ∧ (s.joint? actor j).isSome) →
        ∃ p, s.jointPosition? actor (some other) joint = some p ∧ s.IsRingChoice actor point p := by
  refine ⟨fun spec b sky => ⟨s.isSome_resolveAnchor? spec b sky, fun anchor h =>
    usesJoints_of_resolveAnchor? h⟩, fun actor other point joint low high hother hpoint hring => ?_⟩
  obtain ⟨j, hj, hsome⟩ := hring
  obtain ⟨p, hp, choice⟩ := exists_ringChoice hj hsome point
  exact ⟨p, jointPosition?_of_ringChoice low high hother hpoint hp, choice⟩

/-- An actor with two ring joints as near as each other to a second actor, and one behind it. -/
def ringed : Scene where
  actors :=
    [(⟨1⟩, { position := Vec3.zero
             joints := [(0xE5, ⟨1, 1, 0⟩), (0xE2, ⟨1, -1, 0⟩), (0xE0, ⟨-1, 0, 0⟩)] }),
      (⟨2⟩, { position := ⟨10, 0, 0⟩ })]

/-- A beam of the first actor to the second, from the ring to a joint that is not there. -/
theorem ringed_falls_back :
    (ringed.resolveAnchor? ⟨.sourceToTarget, 0xF3, 0x33, .none⟩ (.actors ⟨1⟩ (some ⟨2⟩) {})
      ⟨720, 500⟩).isSome ∧
    ∃ p, ringed.jointPosition? ⟨1⟩ (some ⟨2⟩) 0xF3 = some p ∧
      ringed.IsRingChoice ⟨1⟩ ⟨10, 0, 0⟩ p := by
  obtain ⟨resolves, rings⟩ := ringed.attachments_fall_back
  constructor
  · exact (resolves _ _ _).1.mpr ⟨[.actor ⟨1⟩, .actor ⟨2⟩], rfl, by simp [Shows, ringed, actor?]⟩
  · exact rings ⟨1⟩ ⟨2⟩ ⟨10, 0, 0⟩ 0xF3 (by decide) (by decide) (by decide) rfl
      ⟨0xE2, ⟨by decide, by decide⟩, rfl⟩

example : ringed.jointPosition? ⟨1⟩ (some ⟨2⟩) 0xF3 = some ⟨1, -1, 0⟩ := by decide +kernel

end Scene
end EffectMachine
