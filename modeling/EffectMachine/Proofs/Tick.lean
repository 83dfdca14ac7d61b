import EffectMachine.World.Tick

namespace EffectMachine

/-- Which changes of a host are allowed, step by step. -/
structure HostOrder where
  rel : Host → Host → Prop
  refl : ∀ h, rel h h
  trans : ∀ {h h' h''}, rel h h' → rel h' h'' → rel h h''

end EffectMachine

namespace EffectMachine.Tick

variable {α β : Type} {P Q : α → Prop} {R : β → Prop}

@[simp] theorem run_pure (a : α) (r : Surroundings) (h : Host) :
    (pure a : Tick α) r h = (a, h) := rfl

@[simp] theorem run_bind (x : Tick α) (f : α → Tick β) (r : Surroundings) (h : Host) :
    (x >>= f) r h = f (x r h).1 r (x r h).2 := rfl

@[simp] theorem run_map (f : α → β) (x : Tick α) (r : Surroundings) (h : Host) :
    (f <$> x) r h = (f (x r h).1, (x r h).2) := rfl

@[simp] theorem run_read (r : Surroundings) (h : Host) :
    (read : Tick Surroundings) r h = (r, h) := rfl

@[simp] theorem run_read_bind (f : Surroundings → Tick β) (r : Surroundings) (h : Host) :
    (read >>= f) r h = f r r h := rfl

/-- The result has a property, whatever the surroundings and the host are. -/
def Always (x : Tick α) (P : α → Prop) : Prop := ∀ r h, P (x r h).1

theorem Always.pure {a : α} (ha : P a) : (Pure.pure a : Tick α).Always P := fun _ _ => ha

theorem Always.bind {x : Tick α} {f : α → Tick β} (hx : x.Always P)
    (hf : ∀ a, P a → (f a).Always R) : (x >>= f).Always R :=
  fun r h => hf _ (hx r h) r _

/-- Nothing has to be known of what comes first. -/
theorem Always.after (x : Tick α) {f : α → Tick β} (hf : ∀ a, (f a).Always R) :
    (x >>= f).Always R :=
  fun _ _ => hf _ _ _

theorem Always.mono {x : Tick α} (hx : x.Always P) (hpq : ∀ a, P a → Q a) : x.Always Q :=
  fun r h => hpq _ (hx r h)

/-- What each step of a fold keeps holds at its end. -/
theorem Always.foldlM {f : α → β → Tick α} (hf : ∀ a b, P a → (f a b).Always P) (bs : List β)
    {a : α} (ha : P a) : (bs.foldlM f a).Always P := by
  induction bs generalizing a with
  | nil => exact .pure ha
  | cons b bs ih =>
    rw [List.foldlM_cons]
    exact .bind (hf a b ha) fun _ hb => ih hb

def At (x : Tick α) (r : Surroundings) (P : α → Prop) : Prop := ∀ h, P (x r h).1

section At

variable {r : Surroundings}

theorem Always.at {x : Tick α} (hx : x.Always P) : x.At r P := hx r

theorem At.pure {a : α} (ha : P a) : (Pure.pure a : Tick α).At r P := fun _ => ha

theorem At.bind {x : Tick α} {f : α → Tick β} (hx : x.At r P) (hf : ∀ a, P a → (f a).At r R) :
    (x >>= f).At r R :=
  fun h => hf _ (hx h) _

theorem At.after (x : Tick α) {f : α → Tick β} (hf : ∀ a, (f a).At r R) : (x >>= f).At r R :=
  fun _ => hf _ _

theorem At.read {f : Surroundings → Tick α} (hf : (f r).At r P) : (read >>= f).At r P := hf

theorem At.mono {x : Tick α} (hx : x.At r P) (hpq : ∀ a, P a → Q a) : x.At r Q :=
  fun h => hpq _ (hx h)

theorem At.and {x : Tick α} (hp : x.At r P) (hq : x.At r Q) : x.At r fun a => P a ∧ Q a :=
  fun h => ⟨hp h, hq h⟩

end At

/-- The host has changed in no other way than the order allows. -/
def Leads (x : Tick α) (r : Surroundings) (O : HostOrder) : Prop := ∀ h, O.rel h (x r h).2

def Keeps (x : Tick α) (r : Surroundings) (O : HostOrder) (P : α → Prop) : Prop :=
  ∀ h, P (x r h).1 ∧ O.rel h (x r h).2

variable {r : Surroundings} {O : HostOrder}

namespace Leads

theorem pure (a : α) : (Pure.pure a : Tick α).Leads r O := O.refl

theorem bind {x : Tick α} {f : α → Tick β} (hx : x.Leads r O) (hf : ∀ a, (f a).Leads r O) :
    (x >>= f).Leads r O :=
  fun h => O.trans (hx h) (hf _ _)

theorem read {f : Surroundings → Tick α} (hf : (f r).Leads r O) :
    (MonadReader.read >>= f : Tick α).Leads r O := hf

theorem ite {p : Prop} [Decidable p] {x y : Tick α} (hx : x.Leads r O) (hy : y.Leads r O) :
    (if p then x else y).Leads r O := by
  split
  · exact hx
  · exact hy

theorem filterM {f : α → Tick Bool} (hf : ∀ a, (f a).Leads r O) (as : List α) :
    (as.filterM f).Leads r O := by
  suffices hs : ∀ acc, (as.filterAuxM f acc).Leads r O from .bind (hs []) fun _ => .pure _
  induction as with
  | nil => exact fun acc => .pure acc
  | cons a as ih => exact fun acc => .bind (hf a) fun _ => ih _

theorem keeps {x : Tick α} (hx : x.Leads r O) (hp : x.At r P) : x.Keeps r O P :=
  fun h => ⟨hp h, hx h⟩

end Leads

namespace Keeps

theorem pure {a : α} (ha : P a) : (Pure.pure a : Tick α).Keeps r O P := fun h => ⟨ha, O.refl h⟩

theorem bind {x : Tick α} {f : α → Tick β} (hx : x.Keeps r O P)
    (hf : ∀ a, P a → (f a).Keeps r O R) : (x >>= f).Keeps r O R := by
  intro h
  obtain ⟨hp, ho⟩ := hx h
  obtain ⟨hr, ho'⟩ := hf _ hp (x r h).2
  exact ⟨hr, O.trans ho ho'⟩

/-- Nothing has to be known of the result of what comes first. -/
theorem after {x : Tick α} {f : α → Tick β} (hx : x.Leads r O) (hf : ∀ a, (f a).Keeps r O R) :
    (x >>= f).Keeps r O R :=
  fun h => ⟨(hf _ _).1, O.trans (hx h) (hf _ _).2⟩

theorem read {f : Surroundings → Tick α} (hf : (f r).Keeps r O P) :
    (MonadReader.read >>= f : Tick α).Keeps r O P := hf

theorem map {x : Tick α} {f : α → β} (hx : x.Keeps r O P) (hf : ∀ a, P a → R (f a)) :
    (f <$> x).Keeps r O R :=
  fun h => ⟨hf _ (hx h).1, (hx h).2⟩

/-- What each step of a fold keeps holds at its end. -/
theorem foldlM {f : α → β → Tick α} (hf : ∀ a b, P a → (f a b).Keeps r O P) (bs : List β) {a : α}
    (ha : P a) : (bs.foldlM f a).Keeps r O P := by
  induction bs generalizing a with
  | nil => exact .pure ha
  | cons b bs ih =>
    rw [List.foldlM_cons]
    exact .bind (hf a b ha) fun _ hb => ih hb

theorem mono {x : Tick α} (hx : x.Keeps r O P) (hpq : ∀ a, P a → Q a) : x.Keeps r O Q :=
  fun h => ⟨hpq _ (hx h).1, (hx h).2⟩

theorem and {x : Tick α} (hx : x.Keeps r O P) (hq : x.At r Q) :
    x.Keeps r O fun a => P a ∧ Q a :=
  fun h => ⟨⟨(hx h).1, hq h⟩, (hx h).2⟩

theorem leads {x : Tick α} (hx : x.Keeps r O P) : x.Leads r O := fun h => (hx h).2

end Keeps

theorem Keeps.at {x : Tick α} (hx : x.Keeps r O P) : x.At r P := fun h => (hx h).1

end EffectMachine.Tick

namespace EffectMachine

def Surroundings.bare : Surroundings where
  directory := {}
  scene := {}
  clock := {}
  config := {}
  fuel := 100

def Host.fresh : Host where
  rng := Rng.ofSeed 1

end EffectMachine
