import EffectMachine.Proofs.Resource.Choices

namespace EffectMachine

def ConditionSource.isStill : ConditionSource → Bool
  | random _ => false
  | _ => true

def Action.isStill : Action → Bool
  | randomRoutine _ => false
  | condition _ source => source.isStill
  | _ => true

def Effect.isStill (e : Effect) : Bool := e.action.isStill

def Initializer.isStill : Initializer → Bool
  | positionJitter _ => false
  | velocityJitter _ => false
  | colorJitter _ => false
  | orbit .. => false
  | sound .. => false
  | _ => true

def ExpirationHandler.isStill : ExpirationHandler → Bool
  | playSound .. => false
  | _ => true

def GeneratorUpdater.isStill : GeneratorUpdater → Bool
  | baseJitter _ => false
  | _ => true

structure Routine.IsStill (r : Routine) : Prop where
  effects : ∀ e ∈ r.effects, e.isStill = true
  onComplete : ∀ e ∈ r.onComplete, e.isStill = true
  onStop : ∀ e ∈ r.onStop, e.isStill = true

structure Generator.IsStill (g : Generator) : Prop where
  maxAgeVariance : g.maxAgeVariance = 0
  intervalVariance : g.intervalVariance = 0
  generatorUpdaters : ∀ u ∈ g.generatorUpdaters, u.isStill = true
  initializers : ∀ i ∈ g.initializers, i.op.isStill = true
  expiration : ∀ h ∈ g.expiration, h.op.isStill = true

def Resource.IsStill : Resource → Prop
  | routine r => r.IsStill
  | generator g => g.IsStill
  | keyFrames _ => True

namespace Directory

def IsStill (d : Directory) : Prop := ∀ entry ∈ d.entries, entry.2.IsStill

variable {d : Directory} {id : ResourceId} {scope : SearchScope}

theorem isStill_empty : ({} : Directory).IsStill := fun _ hm => by cases hm

theorem IsStill.insert (h : d.IsStill) (path : ResourcePath) {x : Resource} (hx : x.IsStill) :
    (d.insert path id x).IsStill :=
  List.forall_mem_cons.mpr ⟨hx, fun _ hm => h _ (List.mem_filter.mp hm).1⟩

theorem IsStill.routine (h : d.IsStill) {r : Routine} (hr : d.routine? id scope = some r) :
    r.IsStill :=
  have ⟨_, hm⟩ := exists_entry_of_routine? hr
  h _ hm

theorem IsStill.generator (h : d.IsStill) {g : Generator} (hg : d.generator? id scope = some g) :
    g.IsStill :=
  have ⟨_, hm⟩ := exists_entry_of_generator? hg
  h _ hm

end Directory
end EffectMachine
