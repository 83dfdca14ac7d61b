import EffectMachine.World.Stage

namespace EffectMachine.Stage

inductive Request where
  | play (sound : ResourceId) (position : Vec3) (volume : Scalar) (follow : Option ActorId)
  | submit (command : Command)
  | advance (frames : Scalar)
  | drain
deriving DecidableEq

def asked (s : Stage) : Request → Stage
  | .play sound position volume follow => (s.playSound sound position volume follow).2
  | .submit c => s.submit c
  | .advance frames => s.advance frames
  | .drain => s.drained

def after : Stage → List Request → Stage
  | s, [] => s
  | s, r :: rs => after (s.asked r) rs

/-- A stage of which nothing was asked. Every sound plays so many frames. -/
def lasting (frames : Scalar) : Stage := { soundFrames := frames }

/-- Playing the sound returned this handle; what was asked later is listed. -/
inductive Returned (sound : ResourceId) (handle : SoundHandle) :
    Stage → List Request → List Request → Prop where
  | now {s : Stage} {later : List Request} (position : Vec3) (volume : Scalar)
      (follow : Option ActorId)
      (returned : (s.playSound sound position volume follow).1 = handle) :
      Returned sound handle s (.play sound position volume follow :: later) later
  | next {s : Stage} {rs later : List Request} (r : Request)
      (rest : Returned sound handle (s.asked r) rs later) : Returned sound handle s (r :: rs) later

/-- A start of the sound under this handle was submitted as a command, and not played. -/
inductive Announced (sound : ResourceId) (handle : SoundHandle) :
    List Request → List Request → Prop where
  | now {later : List Request} (position : Vec3) (volume : Scalar) (follow : Option ActorId) :
      Announced sound handle (.submit (.playSound handle sound position volume follow) :: later)
        later
  | next {rs later : List Request} (r : Request) (rest : Announced sound handle rs later) :
      Announced sound handle (r :: rs) later

/-- Started since the latest drain, by playing or in a command. -/
inductive Recent (sound : ResourceId) (handle : SoundHandle) (s : Stage) (rs : List Request) :
    Prop where
  | returned (later : List Request) (start : Returned sound handle s rs later)
      (kept : .drain ∉ later)
  | announced (later : List Request) (start : Announced sound handle rs later)
      (kept : .drain ∉ later)

variable {s : Stage} {rs later : List Request} {r : Request} {sound other : ResourceId}
  {handle : SoundHandle}

section Record

theorem Recent.next (h : Recent sound handle (s.asked r) rs) : Recent sound handle s (r :: rs) := by
  cases h with
  | returned later start kept => exact .returned later (.next r start) kept
  | announced later start kept => exact .announced later (.next r start) kept

theorem mem_handlesOf_play {position : Vec3} {volume : Scalar} {follow : Option ActorId} :
    handle ∈ (s.playSound other position volume follow).2.handlesOf sound ↔
      (other = sound ∧ (s.playSound other position volume follow).1 = handle) ∨
        handle ∈ s.handlesOf sound := by
  by_cases ho : other = sound
  · simp [playSound, handlesOf, ho, eq_comm]
  · simp [playSound, handlesOf, ho]

theorem mem_handlesOf_submit {c : Command} :
    handle ∈ (s.submit c).handlesOf sound ↔
      (∃ position volume follow, c = .playSound handle sound position volume follow) ∨
        handle ∈ s.handlesOf sound := by
  cases c with
  | playSound h x position volume follow =>
    by_cases hx : x = sound
    · simp [submit, handlesOf, hx, eq_comm]
    · simp [submit, handlesOf, hx]
  | _ => simp [submit, handlesOf]

/-- The record holds the handles of a sound that were started since the latest drain. -/
theorem mem_handlesOf_after :
    handle ∈ (s.after rs).handlesOf sound ↔
      Recent sound handle s rs ∨ (handle ∈ s.handlesOf sound ∧ .drain ∉ rs) := by
  induction rs generalizing s with
  | nil =>
    refine ⟨fun h => .inr ⟨h, List.not_mem_nil⟩, ?_⟩
    rintro (h | h)
    · cases h with
      | returned _ start => cases start
      | announced _ start => cases start
    · exact h.1
  | cons r rs ih =>
    rw [after, ih]
    constructor
    · rintro (h | ⟨h, kept⟩)
      · exact .inl h.next
      · cases r with
        | play x position volume follow =>
          rcases mem_handlesOf_play.mp h with ⟨rfl, hh⟩ | h
          · exact .inl (.returned rs (.now _ _ _ hh) kept)
          · exact .inr ⟨h, by simpa using kept⟩
        | submit c =>
          rcases mem_handlesOf_submit.mp h with ⟨position, volume, follow, rfl⟩ | h
          · exact .inl (.announced rs (.now _ _ _) kept)
          · exact .inr ⟨h, by simpa using kept⟩
        | advance frames => exact .inr ⟨h, by simpa using kept⟩
        | drain => cases h
    · rintro (h | ⟨h, kept⟩)
      · cases h with
        | returned later start kept =>
          cases start with
          | now position volume follow hh =>
            exact .inr ⟨mem_handlesOf_play.mpr (.inl ⟨rfl, hh⟩), kept⟩
          | next r rest => exact .inl (.returned later rest kept)
        | announced later start kept =>
          cases start with
          | now position volume follow =>
            exact .inr ⟨mem_handlesOf_submit.mpr (.inl ⟨_, _, _, rfl⟩), kept⟩
          | next r rest => exact .inl (.announced later rest kept)
      · rw [List.mem_cons, not_or] at kept
        refine .inr ⟨?_, kept.2⟩
        cases r with
        | play => exact mem_handlesOf_play.mpr (.inr h)
        | submit => exact mem_handlesOf_submit.mpr (.inr h)
        | advance => exact h
        | drain => exact absurd rfl kept.1

end Record

section Names

theorem nextHandle_asked (s : Stage) (r : Request) : s.nextHandle ≤ (s.asked r).nextHandle := by
  cases r with
  | play => exact Nat.le_succ _
  | submit c => cases c <;> exact Nat.le_refl _
  | advance | drain => exact Nat.le_refl _

/-- A request gives one handle at most. -/
theorem nextHandle_asked_le (s : Stage) (r : Request) :
    (s.asked r).nextHandle ≤ s.nextHandle + 1 := by
  cases r with
  | play => exact Nat.le_refl _
  | submit c => cases c <;> exact Nat.le_succ _
  | advance | drain => exact Nat.le_succ _

/-- No more handles are given than requests are made: by induction on them. -/
theorem nextHandle_after_le (s : Stage) (rs : List Request) :
    (s.after rs).nextHandle ≤ s.nextHandle + rs.length := by
  induction rs generalizing s with
  | nil => exact Nat.le_refl _
  | cons r rs ih =>
    have first := s.nextHandle_asked_le r
    have rest := ih (s.asked r)
    rw [after, List.length_cons]
    omega

/-- A handle that is returned is new. -/
theorem Returned.nextHandle_le (h : Returned sound handle s rs later) :
    s.nextHandle ≤ handle.number := by
  induction h with
  | now position volume follow returned =>
    subst returned
    exact Nat.le_refl _
  | next r rest ih => exact Nat.le_trans (nextHandle_asked _ r) ih

theorem Returned.later_subset (h : Returned sound handle s rs later) : later ⊆ rs := by
  induction h with
  | now => exact List.subset_cons_self _ _
  | next r rest ih => exact List.subset_cons_of_subset r ih

/-- No handle is returned for two sounds. -/
theorem Returned.sound_eq {later' : List Request} (h : Returned sound handle s rs later)
    (h' : Returned other handle s rs later') : sound = other := by
  induction h generalizing later' with
  | now position volume follow returned =>
    cases h' with
    | now => rfl
    | next r rest =>
      subst returned
      exact absurd rest.nextHandle_le (Nat.not_succ_le_self _)
  | next r rest ih =>
    cases h' with
    | now position volume follow returned =>
      subst returned
      exact absurd rest.nextHandle_le (Nat.not_succ_le_self _)
    | next r rest' => exact ih rest'

end Names

/-- What plays after stopping a sound played before, and was not recorded as that sound. -/
theorem isPlaying_stopSound :
    (s.submit (.stopSound sound)).isPlaying handle = true ↔
      s.isPlaying handle = true ∧ handle ∉ s.handlesOf sound := by
  simp only [isPlaying, submit, List.any_eq_true, List.mem_filter, decide_eq_true_eq,
    Bool.not_eq_true', List.contains_eq_mem, decide_eq_false_iff_not]
  constructor
  · rintro ⟨e, ⟨he, hn⟩, rfl⟩
    exact ⟨⟨e, he, rfl⟩, hn⟩
  · rintro ⟨⟨e, he, rfl⟩, hn⟩
    exact ⟨e, ⟨he, hn⟩, rfl⟩

/-- After these requests, stopping the sound ends all that was started of it and nothing else. -/
structure StopsExactly (s : Stage) (rs : List Request) (sound : ResourceId) : Prop where
  ended : ∀ handle later, Returned sound handle s rs later →
    ((s.after rs).submit (.stopSound sound)).isPlaying handle = false
  kept : ∀ other handle later, other ≠ sound → Returned other handle s rs later →
    ((s.after rs).submit (.stopSound sound)).isPlaying handle = (s.after rs).isPlaying handle

/-- What the record says of the sound is what plays of it. -/
structure RecordAgrees (s : Stage) (rs : List Request) (sound : ResourceId) : Prop where
  /-- All that still plays of it was started since the latest drain. -/
  recent : ∀ handle later, Returned sound handle s rs later →
    (s.after rs).isPlaying handle = true → Recent sound handle s rs
  /-- Nothing that plays of another was announced as it since then. -/
  unmixed : ∀ other handle later, other ≠ sound → Returned other handle s rs later →
    (s.after rs).isPlaying handle = true → ∀ later', Announced sound handle rs later' →
      .drain ∈ later'

section Fresh

variable (fresh : ∀ handle, handle ∉ s.handlesOf sound)
include fresh

theorem StopsExactly.recordAgrees (h : StopsExactly s rs sound) : RecordAgrees s rs sound where
  recent handle later start hp := by
    have hs := h.ended handle later start
    rw [Bool.eq_false_iff, ne_eq, isPlaying_stopSound] at hs
    have hm := Decidable.not_not.mp fun hn => hs ⟨hp, hn⟩
    exact (mem_handlesOf_after.mp hm).resolve_right fun hm => fresh handle hm.1
  unmixed other handle later ho start hp later' start' := by
    have hs := isPlaying_stopSound.mp ((h.kept other handle later ho start).trans hp)
    exact Decidable.not_not.mp fun hd =>
      hs.2 (mem_handlesOf_after.mpr (.inl (.announced later' start' hd)))

theorem RecordAgrees.stopsExactly (h : RecordAgrees s rs sound) : StopsExactly s rs sound where
  ended handle later start := by
    rw [Bool.eq_false_iff, ne_eq, isPlaying_stopSound]
    rintro ⟨hp, hn⟩
    exact hn (mem_handlesOf_after.mpr (.inl (h.recent handle later start hp)))
  kept other handle later ho start := by
    rw [Bool.eq_iff_iff, isPlaying_stopSound]
    refine and_iff_left_of_imp fun hp hm => ?_
    cases (mem_handlesOf_after.mp hm).resolve_right fun hm => fresh handle hm.1 with
    | returned _ start' => exact ho (start.sound_eq start')
    | announced _ start' hd => exact hd (h.unmixed other handle later ho start hp _ start')

end Fresh

theorem recordAgrees_of_undrained (undrained : .drain ∉ rs)
    (played : ∀ handle later, ¬Announced sound handle rs later) : RecordAgrees s rs sound where
  recent _ later start _ := .returned later start fun hd => undrained (start.later_subset hd)
  unmixed _ handle _ _ _ _ later' start' := absurd start' (played handle later')

/-- Stopping a sound is exact just where the record agrees with what plays. So it is exact where
nothing was drained and no start was announced that was not played. -/
theorem stopping_is_exact (frames : Scalar) (rs : List Request) (sound : ResourceId) :
    (StopsExactly (lasting frames) rs sound ↔ RecordAgrees (lasting frames) rs sound) ∧
      (.drain ∉ rs → (∀ handle later, ¬Announced sound handle rs later) →
        StopsExactly (lasting frames) rs sound) := by
  have fresh : ∀ handle, handle ∉ (lasting frames).handlesOf sound := fun _ => List.not_mem_nil
  refine ⟨⟨fun h => h.recordAgrees fresh, fun h => h.stopsExactly fresh⟩, ?_⟩
  intro undrained played
  exact (recordAgrees_of_undrained undrained played).stopsExactly fresh

/-- Two sounds, of which one is stopped. -/
theorem hum_stops_alone :
    let hum : ResourceId := ⟨0x68, 0x75, 0x6d, 0⟩
    let zap : ResourceId := ⟨0x7a, 0x61, 0x70, 0⟩
    StopsExactly (lasting 30) [.play hum Vec3.zero 1 none, .play zap Vec3.zero 1 none, .advance 1]
      hum := by
  refine (stopping_is_exact ..).2 (by decide) fun handle later start => ?_
  -- None of the three requests is an announcement.
  rcases start with - | ⟨_, - | ⟨_, - | ⟨_, ⟨⟩⟩⟩⟩

/-- A sound that was drained plays on when it is stopped. -/
theorem hum_outlasts_its_stop :
    let hum : ResourceId := ⟨0x68, 0x75, 0x6d, 0⟩
    ¬StopsExactly (lasting 30) [.play hum Vec3.zero 1 none, .drain] hum := by
  intro hum h
  have hs := h.ended ⟨1⟩ [.drain] (.now _ _ _ rfl)
  revert hs
  decide +kernel

end EffectMachine.Stage
