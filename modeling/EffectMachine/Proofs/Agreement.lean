import EffectMachine.Proofs.Names

namespace EffectMachine

/-- Which names of one run stand for which names of another. -/
structure Pairing where
  rel : SequenceId → SequenceId → Prop
  /-- Different names stand for different names. -/
  eq_iff : ∀ {a b a' b'}, rel a b → rel a' b' → (a = a' ↔ b = b')

namespace Pairing

variable {ρ σ τ : Pairing} {h h' : Host} {a b : SequenceId}

instance : LE Pairing := ⟨fun ρ σ => ∀ a b, ρ.rel a b → σ.rel a b⟩

theorem le_refl (ρ : Pairing) : ρ ≤ ρ := fun _ _ hr => hr

theorem le_trans (hρ : ρ ≤ σ) (hσ : σ ≤ τ) : ρ ≤ τ := fun a b hr => hσ a b (hρ a b hr)

def single (a b : SequenceId) : Pairing where
  rel a' b' := a' = a ∧ b' = b
  eq_iff := by
    rintro a₁ b₁ a₂ b₂ ⟨rfl, rfl⟩ ⟨rfl, rfl⟩
    exact iff_of_true rfl rfl

/-- All names are given already, each in its own run. -/
def Given (ρ : Pairing) (h h' : Host) : Prop :=
  ∀ a b, ρ.rel a b → a.number < h.nextSequence ∧ b.number < h'.nextSequence

theorem Given.later {k k' : Host} (hg : ρ.Given h h') (hk : h.nextSequence ≤ k.nextSequence)
    (hk' : h'.nextSequence ≤ k'.nextSequence) : ρ.Given k k' := fun a b hr =>
  ⟨Nat.lt_of_lt_of_le (hg a b hr).1 hk, Nat.lt_of_lt_of_le (hg a b hr).2 hk'⟩

/-- One more pair of names, both of which are new. -/
theorem Given.extend (hg : ρ.Given h h') : ∃ σ, ρ ≤ σ ∧ σ.rel ⟨h.nextSequence⟩ ⟨h'.nextSequence⟩ ∧
    ∀ a b, σ.rel a b → a.number ≤ h.nextSequence ∧ b.number ≤ h'.nextSequence := by
  have new {a b} (hr : ρ.rel a b) : a ≠ ⟨h.nextSequence⟩ ∧ b ≠ ⟨h'.nextSequence⟩ := by
    obtain ⟨ha, hb⟩ := hg a b hr
    constructor
    · rintro rfl
      exact Nat.lt_irrefl _ ha
    · rintro rfl
      exact Nat.lt_irrefl _ hb
  refine ⟨⟨fun a b => ρ.rel a b ∨ a = ⟨h.nextSequence⟩ ∧ b = ⟨h'.nextSequence⟩, ?_⟩,
    fun a b hr => .inl hr, .inr ⟨rfl, rfl⟩, fun a b hr => ?_⟩
  · rintro a b a' b' (hr | ⟨rfl, rfl⟩) (hr' | ⟨rfl, rfl⟩)
    · exact ρ.eq_iff hr hr'
    · exact iff_of_false (new hr).1 (new hr).2
    · exact iff_of_false (new hr').1.symm (new hr').2.symm
    · exact iff_of_true rfl rfl
  · rcases hr with hr | ⟨rfl, rfl⟩
    · exact ⟨Nat.le_of_lt (hg a b hr).1, Nat.le_of_lt (hg a b hr).2⟩
    · exact ⟨Nat.le_refl _, Nat.le_refl _⟩

end Pairing

namespace Tick

variable {α β : Type} {r : Surroundings}

/-- The result has a property, and is the same whatever the host is. -/
def Blind (x : Tick α) (r : Surroundings) (P : α → Prop) : Prop :=
  ∃ a, P a ∧ ∀ h, (x r h).1 = a

namespace Blind

variable {P Q : α → Prop} {R : β → Prop}

theorem pure {a : α} (ha : P a) : (Pure.pure a : Tick α).Blind r P := ⟨a, ha, fun _ => rfl⟩

/-- What runs after a blind tick is blind as long as it is so for every result that can come. -/
theorem bind {x : Tick α} {f : α → Tick β} (hx : x.Blind r P)
    (hf : ∀ a, P a → (f a).Blind r R) : (x >>= f).Blind r R := by
  obtain ⟨a, ha, hx⟩ := hx
  obtain ⟨b, hb, hf⟩ := hf a ha
  exact ⟨b, hb, fun h => by rw [run_bind, hx, hf]⟩

/-- Nothing comes back from what comes first. -/
theorem after (x : Tick Unit) {f : Unit → Tick β} (hf : (f ()).Blind r R) :
    (x >>= f).Blind r R := by
  obtain ⟨b, hb, hf⟩ := hf
  exact ⟨b, hb, fun h => hf _⟩

theorem read {f : Surroundings → Tick α} (hf : (f r).Blind r P) :
    (MonadReader.read >>= f : Tick α).Blind r P := hf

theorem mono {x : Tick α} (hx : x.Blind r P) (hpq : ∀ a, P a → Q a) : x.Blind r Q := by
  obtain ⟨a, ha, hx⟩ := hx
  exact ⟨a, hpq a ha, hx⟩

theorem and {x : Tick α} (hx : x.Blind r P) (hq : x.Always Q) :
    x.Blind r fun a => P a ∧ Q a := by
  obtain ⟨a, ha, hx⟩ := hx
  exact ⟨a, ⟨ha, hx .fresh ▸ hq r .fresh⟩, hx⟩

/-- What each step of a fold keeps holds at its end. -/
theorem foldlM {f : α → β → Tick α} (bs : List β)
    (hf : ∀ a, ∀ b ∈ bs, P a → (f a b).Blind r P) {a : α} (ha : P a) :
    (bs.foldlM f a).Blind r P := by
  induction bs generalizing a with
  | nil => exact .pure ha
  | cons b bs ih =>
    rw [List.foldlM_cons]
    exact .bind (hf a b List.mem_cons_self ha) fun _ hb =>
      ih (fun a b hm => hf a b (List.mem_cons_of_mem _ hm)) hb

/-- A draw that draws nothing. -/
theorem draw {d : Draw α} {a : α} (hd : d = Pure.pure a) (ha : P a) : (Tick.draw d).Blind r P := by
  subst hd
  exact ⟨a, ha, fun _ => rfl⟩

end Blind

/-- Two ticks come back with the like whatever hosts they find, up to the names that they give. -/
def Twins (x x' : Tick α) (r : Surroundings) (ρ : Pairing) (R : Pairing → α → α → Prop) : Prop :=
  ∀ h h', ρ.Given h h' →
    ∃ σ, ρ ≤ σ ∧ σ.Given (x r h).2 (x' r h').2 ∧ R σ (x r h).1 (x' r h').1

/-- Results are related, with the same beside them. -/
abbrev Beside (R : Pairing → α → α → Prop) (σ : Pairing) (x x' : α × β) : Prop :=
  R σ x.1 x'.1 ∧ x'.2 = x.2

namespace Twins

variable {ρ : Pairing} {R : Pairing → α → α → Prop} {S : Pairing → β → β → Prop}

theorem pure {a a' : α} (ha : R ρ a a') : (Pure.pure a : Tick α).Twins (Pure.pure a') r ρ R :=
  fun _ _ hg => ⟨ρ, ρ.le_refl, hg, ha⟩

/-- Twins in sequence are twins: what comes second may know every pair of names that came up before.
-/
theorem bind {x x' : Tick α} {f f' : α → Tick β} (hx : x.Twins x' r ρ R)
    (hf : ∀ σ, ρ ≤ σ → ∀ a a', R σ a a' → (f a).Twins (f' a') r σ S) :
    (x >>= f).Twins (x' >>= f') r ρ S := by
  intro h h' hg
  obtain ⟨σ, hσ, hgσ, hR⟩ := hx h h' hg
  obtain ⟨τ, hτ, hgτ, hS⟩ := hf σ hσ _ _ hR _ _ hgσ
  exact ⟨τ, Pairing.le_trans hσ hτ, hgτ, hS⟩

/-- What comes beside the results is one thing from then on. -/
theorem bind_beside {γ : Type} {x x' : Tick (α × γ)} {f f' : α × γ → Tick β}
    (hx : x.Twins x' r ρ (Beside R))
    (hf : ∀ σ, ρ ≤ σ → ∀ a a' c, R σ a a' → (f (a, c)).Twins (f' (a', c)) r σ S) :
    (x >>= f).Twins (x' >>= f') r ρ S := by
  refine hx.bind fun σ hσ x x' hx => ?_
  obtain ⟨a, c⟩ := x
  obtain ⟨a', c'⟩ := x'
  obtain ⟨hx, rfl⟩ : R σ a a' ∧ c' = c := hx
  exact hf σ hσ a a' c' hx

theorem map {x x' : Tick α} {f f' : α → β} (hx : x.Twins x' r ρ R)
    (hf : ∀ σ, ρ ≤ σ → ∀ a a', R σ a a' → S σ (f a) (f' a')) :
    (f <$> x).Twins (f' <$> x') r ρ S := by
  intro h h' hg
  obtain ⟨σ, hσ, hgσ, hR⟩ := hx h h' hg
  exact ⟨σ, hσ, hgσ, hf σ hσ _ _ hR⟩

/-- Results that are alike whatever hosts there are, without a name that is new among them. -/
theorem of_forward {x x' : Tick α} (hx : x.Forward) (hx' : x'.Forward)
    (hR : ∀ h h', R ρ (x r h).1 (x' r h').1) : x.Twins x' r ρ R :=
  fun h h' hg => ⟨ρ, ρ.le_refl, hg.later (hx r h) (hx' r h'), hR h h'⟩

/-- Nothing comes back from what comes first. -/
theorem after {x x' : Tick Unit} {f f' : Unit → Tick β} (hx : x.Forward) (hx' : x'.Forward)
    (hf : (f ()).Twins (f' ()) r ρ S) : (x >>= f).Twins (x' >>= f') r ρ S :=
  fun h h' hg => hf _ _ (hg.later (hx r h) (hx' r h'))

theorem read {f f' : Surroundings → Tick α} (hf : (f r).Twins (f' r) r ρ R) :
    (MonadReader.read >>= f : Tick α).Twins (MonadReader.read >>= f') r ρ R := hf

theorem ite {p : Prop} [Decidable p] {x x' y y' : Tick α} (hx : p → x.Twins x' r ρ R)
    (hy : ¬p → y.Twins y' r ρ R) :
    (if p then x else y).Twins (if p then x' else y') r ρ R := by
  by_cases hp : p
  · rw [if_pos hp, if_pos hp]
    exact hx hp
  · rw [if_neg hp, if_neg hp]
    exact hy hp

theorem note (n n' : Notice) {f f' : Unit → Tick β} (hf : (f ()).Twins (f' ()) r ρ S) :
    (Tick.note n >>= f).Twins (Tick.note n' >>= f') r ρ S :=
  .after (fun _ _ => Nat.le_refl _) (fun _ _ => Nat.le_refl _) hf

/-- New names stand for each other. -/
theorem newSequence : newSequence.Twins newSequence r ρ fun σ a b => σ.rel a b := by
  intro h h' hg
  obtain ⟨σ, hσ, hnew, hle⟩ := hg.extend
  exact ⟨σ, hσ, fun a b hr =>
    ⟨Nat.lt_succ_of_le (hle a b hr).1, Nat.lt_succ_of_le (hle a b hr).2⟩, hnew⟩

end Twins

end Tick
end EffectMachine
