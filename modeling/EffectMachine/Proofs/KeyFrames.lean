import EffectMachine.KeyFrames
import EffectMachine.Proofs.Number.Patterns
import EffectMachine.Proofs.Stream.Lengths

namespace EffectMachine

open Decoder

namespace KeyFrame

def bytes (k : KeyFrame) : List UInt8 := Word.bytes k.time.bits ++ Word.bytes k.value.bits

theorem length_bytes (k : KeyFrame) : k.bytes.length = 8 := rfl

theorem length_flatMap_bytes (ks : List KeyFrame) : (ks.flatMap bytes).length = 8 * ks.length := by
  induction ks with
  | nil => rfl
  | cons k ks ih =>
    rw [List.flatMap_cons, List.length_append, length_bytes, ih, List.length_cons]
    omega

/-- Bytes in eights are those of keys. -/
theorem exists_keys {n : Nat} {bs : List UInt8} (h : bs.length = 8 * n) :
    ∃ ks : List KeyFrame, ks.length = n ∧ ks.flatMap bytes = bs := by
  induction n generalizing bs with
  | zero => exact ⟨[], rfl, (List.length_eq_zero_iff.mp h).symm⟩
  | succ n ih =>
    obtain ⟨time, rest, rfl⟩ := Word.exists_bytes (show 4 ≤ bs.length by omega)
    rw [List.length_append, Word.length_bytes] at h
    obtain ⟨value, rest, rfl⟩ := Word.exists_bytes (show 4 ≤ rest.length by omega)
    rw [List.length_append, Word.length_bytes] at h
    obtain ⟨ks, hn, hks⟩ := ih (show rest.length = 8 * n by omega)
    refine ⟨⟨⟨time⟩, ⟨value⟩⟩ :: ks, by rw [List.length_cons, hn], ?_⟩
    rw [List.flatMap_cons, hks, bytes, List.append_assoc]

end KeyFrame

namespace KeyFrameSet

variable {id : ResourceId} {data rest : List UInt8} {count : UInt32} {keys : List KeyFrame}
  {set : KeyFrameSet} {t : Scalar}

theorem readKey_reads (k : KeyFrame) : readKey.Reads k.bytes k :=
  (scalar_reads k.time).bind ((scalar_reads k.value).map (KeyFrame.mk k.time))

/-- What follows the keys is noted at most. -/
theorem decode_held (hn : keys.length = count.toNat) :
    (decode id (Word.bytes count ++ keys.flatMap KeyFrame.bytes ++ rest)).1 =
      .ok (ofKeys id keys) := by
  let r := Reader.of (Word.bytes count ++ keys.flatMap KeyFrame.bytes ++ rest)
  have hr : r.rest = Word.bytes count ++ (keys.flatMap KeyFrame.bytes ++ rest) :=
    List.append_assoc ..
  have hkeys := rest_of_reads hr
  have enough : ¬(keys.flatMap KeyFrame.bytes ++ rest).length < count.toNat * 8 := by
    rw [List.length_append, KeyFrame.length_flatMap_bytes]
    omega
  have reads : (repeated readKey count.toNat).Reads (keys.flatMap KeyFrame.bytes) keys :=
    hn ▸ repeated_reads keys readKey_reads
  rw [decode, Decoder.decode, decoder, run_bind (word_reads count r _ hr)]
  dsimp only
  rw [run_bind (remaining_of_reads hr), if_neg enough]
  rw [run_bind (reads _ rest hkeys), run_bind (show atEnd _ = .ok _ _ from rfl)]
  generalize (r.advance _).advance _ = r'
  cases r'.atEnd <;> rfl

theorem decode_short (h : rest.length < 8 * count.toNat) :
    (decode id (Word.bytes count ++ rest)).1 ≠ .ok set := by
  let r := Reader.of (Word.bytes count ++ rest)
  have hr : r.rest = Word.bytes count ++ rest := rfl
  have missing : rest.length < count.toNat * 8 := by omega
  rw [decode, Decoder.decode, decoder, run_bind (word_reads count r _ hr)]
  dsimp only
  rw [run_bind (remaining_of_reads hr), if_pos missing]
  intro h
  cases h

theorem decode_countless (h : data.length < 4) : (decode id data).1 ≠ .ok set := by
  obtain ⟨fault, r, hr⟩ := word_hasLength.short (Reader.of data) h
  rw [decode, Decoder.decode, decoder, run_bind_error hr]
  intro h
  cases h

/-- A stream with a set: the count word, so many keys, and whatever follows them. -/
def Holds (data : List UInt8) (keys : List KeyFrame) : Prop :=
  ∃ count : UInt32, keys.length = count.toNat ∧
    Word.bytes count ++ keys.flatMap KeyFrame.bytes <+: data

theorem decode_of_holds (id : ResourceId) (h : Holds data keys) :
    (decode id data).1 = .ok (ofKeys id keys) := by
  obtain ⟨count, hn, rest, rfl⟩ := h
  exact decode_held hn

/-- Is there room for the count word and for eight bytes for each key that it declares? -/
def HasRoom (data : List UInt8) : Prop :=
  ∃ count rest, data = Word.bytes count ++ rest ∧ 8 * count.toNat ≤ rest.length

theorem exists_holds (h : HasRoom data) : ∃ keys, Holds data keys := by
  obtain ⟨count, rest, rfl, hroom⟩ := h
  obtain ⟨keys, hn, hkeys⟩ := KeyFrame.exists_keys (List.length_take_of_le hroom)
  refine ⟨keys, count, hn, ?_⟩
  rw [hkeys, List.prefix_append_right_inj]
  exact List.take_prefix ..

theorem hasRoom_of_decode (h : (decode id data).1 = .ok set) : HasRoom data := by
  by_cases hcount : data.length < 4
  · exact absurd h (decode_countless hcount)
  · obtain ⟨count, rest, rfl⟩ := Word.exists_bytes (Nat.not_lt.mp hcount)
    exact ⟨count, rest, rfl, Nat.not_lt.mp fun hshort => decode_short hshort h⟩

/-- A stable sort by the total order of the times. -/
structure IsStableSort (keys sorted : List KeyFrame) : Prop where
  perm : sorted.Perm keys
  ordered : sorted.Pairwise fun a b => a.time.orderKey ≤ b.time.orderKey
  /-- Keys with the same time are in the order in which they came. -/
  stable : ∀ time, sorted.filter (fun k => k.time.orderKey = time) =
    keys.filter fun k => k.time.orderKey = time

/-- Merge sort by the total order of the times is stable. -/
theorem isStableSort_sorted (keys : List KeyFrame) : IsStableSort keys (sorted keys) := by
  have trans : ∀ a b c : KeyFrame, decide (a.time.orderKey ≤ b.time.orderKey) = true →
      decide (b.time.orderKey ≤ c.time.orderKey) = true →
      decide (a.time.orderKey ≤ c.time.orderKey) = true := by
    simp only [decide_eq_true_eq]
    exact fun _ _ _ => Int.le_trans
  have total : ∀ a b : KeyFrame, (decide (a.time.orderKey ≤ b.time.orderKey) ||
      decide (b.time.orderKey ≤ a.time.orderKey)) = true := by
    simp only [Bool.or_eq_true, decide_eq_true_eq]
    exact fun _ _ => Int.le_total ..
  have perm : (sorted keys).Perm keys := List.mergeSort_perm ..
  refine ⟨perm, ?_, fun time => ?_⟩
  · exact (List.pairwise_mergeSort trans total keys).imp of_decide_eq_true
  · -- Keys of one time are in order already, so they stay a part of the sorted list.
    have same : (keys.filter fun k => k.time.orderKey = time).Pairwise fun a b =>
        decide (a.time.orderKey ≤ b.time.orderKey) = true := by
      refine List.pairwise_of_forall_mem_list fun a ha b hb => decide_eq_true ?_
      rw [of_decide_eq_true (List.mem_filter.mp ha).2, of_decide_eq_true (List.mem_filter.mp hb).2]
    have sub := (List.sublist_mergeSort trans total same List.filter_sublist).filter
      fun k => k.time.orderKey = time
    rw [List.filter_filter] at sub
    simp only [Bool.and_self] at sub
    exact (sub.eq_of_length (perm.filter _).length_eq.symm).symm

theorem ordered_times (hk : ∀ k ∈ keys, k.time.isNaN = false) :
    (sorted keys).Pairwise fun a b => a.time ≤ b.time := by
  have sort := isStableSort_sorted keys
  refine sort.ordered.imp_of_mem fun ha hb h => ?_
  exact Scalar.le_of_orderKey_le (Scalar.isNumber_of_isNaN (hk _ (sort.perm.mem_iff.mp ha)))
    (Scalar.isNumber_of_isNaN (hk _ (sort.perm.mem_iff.mp hb))) h

/-- The first two neighbours of which the later one is not before `t`. -/
def crossing? (keys : List KeyFrame) (t : Scalar) : Option (KeyFrame × KeyFrame) :=
  (keys.zip keys.tail).find? fun p => t ≤ p.2.time

structure Encloses (keys : List KeyFrame) (t : Scalar) (i : Nat) (a b : KeyFrame) : Prop where
  first : keys[i]? = some a
  second : keys[i + 1]? = some b
  after : a.time < t
  before : t ≤ b.time

/-- What is inside comes from the first crossing; the last key would be left without one. -/
theorem inside_eq (t : Scalar) (a : KeyFrame) (later : List KeyFrame) :
    inside t a later = match crossing? (a :: later) t with
      | some (x, y) => between x y t
      | none => (later.getLast?.getD a).value := by
  induction later generalizing a with
  | nil => rfl
  | cons b later ih =>
    rw [inside, crossing?, List.tail_cons, List.zip_cons_cons, List.find?_cons]
    by_cases h : t ≤ b.time
    · rw [if_pos h, decide_eq_true h]
    · rw [if_neg h, decide_eq_false h, ih, List.getLast?_cons]
      rfl

/-- By induction on the keys: there is a crossing before the last key, and it encloses `t`. -/
theorem exists_encloses {a : KeyFrame} {later : List KeyFrame} (ha : a.time < t)
    (hn : ∀ k ∈ later, k.time.IsNumber) (hlast : t < (later.getLast?.getD a).time) :
    ∃ i x y, Encloses (a :: later) t i x y ∧ crossing? (a :: later) t = some (x, y) := by
  have ht := (Scalar.isNumber_of_lt ha).2
  induction later generalizing a with
  | nil =>
    have numbers := Scalar.isNumber_of_lt ha
    exact absurd (Scalar.le_of_lt hlast) ((Scalar.not_le_iff ht numbers.1).mpr ha)
  | cons b later ih =>
    obtain ⟨hb, hn⟩ := List.forall_mem_cons.mp hn
    have hcross : crossing? (a :: b :: later) t =
        if t ≤ b.time then some (a, b) else crossing? (b :: later) t := by
      rw [crossing?, List.tail_cons, List.zip_cons_cons, List.find?_cons]
      by_cases h : t ≤ b.time
      · rw [if_pos h, decide_eq_true h]
      · rw [if_neg h, decide_eq_false h]
        rfl
    by_cases h : t ≤ b.time
    · exact ⟨0, a, b, ⟨rfl, rfl, ha, h⟩, by rw [hcross, if_pos h]⟩
    · rw [List.getLast?_cons, Option.getD_some] at hlast
      obtain ⟨i, x, y, hxy, hc⟩ := ih ((Scalar.not_le_iff ht hb).mp h) hn hlast
      exact ⟨i + 1, x, y, ⟨hxy.first, hxy.second, hxy.after, hxy.before⟩,
        by rw [hcross, if_neg h, hc]⟩

/-- In order, no other neighbours enclose it. -/
theorem Encloses.unique {i j : Nat} {a b c d : KeyFrame}
    (hs : keys.Pairwise fun a b => a.time ≤ b.time) (h : Encloses keys t i a b)
    (h' : Encloses keys t j c d) : i = j := by
  have never {i j : Nat} {a b c d : KeyFrame} (h : Encloses keys t i a b)
      (h' : Encloses keys t j c d) (hij : i < j) : False := by
    have hbc : b.time ≤ c.time := by
      rcases Nat.lt_or_eq_of_le hij with hlt | rfl
      · obtain ⟨hi, hb⟩ := List.getElem?_eq_some_iff.mp h.second
        obtain ⟨hj, hc⟩ := List.getElem?_eq_some_iff.mp h'.first
        rw [← hb, ← hc]
        exact List.pairwise_iff_getElem.mp hs _ _ hi hj hlt
      · obtain rfl := Option.some.inj (h.second.symm.trans h'.first)
        exact Scalar.le_refl (Scalar.isNumber_of_le h.before).2
    have htc := Scalar.le_trans h.before hbc
    have numbers := Scalar.isNumber_of_le htc
    exact (Scalar.not_le_iff numbers.1 numbers.2).mpr h'.after htc
  rcases Nat.lt_trichotomy i j with hij | hij | hij
  · exact (never h h' hij).elim
  · exact hij
  · exact (never h' h hij).elim

/-- What a set gives at `t`. Between its ends that is for the one pair of neighbours that encloses
`t`, and the scan for a crossing comes upon this pair. -/
structure Draws (s : KeyFrameSet) (t : Scalar) : Prop where
  empty : s.keys = [] → s.sample t = 1
  start : ∀ first ∈ s.keys.head?, t ≤ first.time → s.sample t = first.value
  finish : ∀ first ∈ s.keys.head?, ∀ last ∈ s.keys.getLast?, ¬t ≤ first.time → last.time ≤ t →
    s.sample t = last.value
  between : ∀ first ∈ s.keys.head?, ∀ last ∈ s.keys.getLast?, ¬t ≤ first.time → ¬last.time ≤ t →
    ∃ i a b, Encloses s.keys t i a b ∧ (∀ j c d, Encloses s.keys t j c d → j = i) ∧
      crossing? s.keys t = some (a, b) ∧
      s.sample t = if b.time - a.time ≤ Scalar.epsilon then b.value
        else a.value + (b.value - a.value) * ((t - a.time) / (b.time - a.time))

/-- A set whose times are in order. -/
theorem draws_of_ordered (hk : ∀ k ∈ set.keys, k.time.IsNumber) (ht : t.IsNumber)
    (hs : set.keys.Pairwise fun a b => a.time ≤ b.time) : set.Draws t := by
  obtain ⟨id, keys⟩ := set
  cases keys with
  | nil => exact ⟨fun _ => rfl, nofun, nofun, nofun⟩
  | cons a later =>
    obtain ⟨ha, hlater⟩ := List.forall_mem_cons.mp hk
    have hlast : (a :: later).getLast? = some (later.getLast?.getD a) := List.getLast?_cons
    refine ⟨nofun, ?_, ?_, ?_⟩
    · rintro _ ⟨⟩ h
      exact if_pos h
    · rintro _ ⟨⟩ last hl h h'
      obtain rfl := Option.some.inj (hlast.symm.trans hl)
      exact (if_neg h).trans (if_pos h')
    · rintro _ ⟨⟩ last hl h h'
      have hnumber := hk last (List.mem_of_getLast? hl)
      obtain rfl := Option.some.inj (hlast.symm.trans hl)
      obtain ⟨i, x, y, hxy, hc⟩ := exists_encloses ((Scalar.not_le_iff ht ha).mp h) hlater
        ((Scalar.not_le_iff hnumber ht).mp h')
      refine ⟨i, x, y, hxy, fun j c d hcd => hcd.unique hs hxy, hc, ?_⟩
      rw [sample]
      dsimp only
      rw [if_neg h, if_neg h', inside_eq, hc]
      rfl

/-- A stream holds a set when there is room for the keys that it declares. The set is a stable sort
of them, and as long as no time is a NaN it draws the curve through them. -/
theorem keyFrames_drawn (id : ResourceId) :
    (∀ data, (∃ set, (decode id data).1 = .ok set) ↔ HasRoom data) ∧
    (∀ data set, (decode id data).1 = .ok set →
      ∃ keys, Holds data keys ∧ set = ofKeys id keys ∧ IsStableSort keys set.keys) ∧
    ∀ keys t, (∀ k ∈ keys, k.time.isNaN = false) → t.isNaN = false → (ofKeys id keys).Draws t := by
  refine ⟨fun data => ⟨fun ⟨set, h⟩ => hasRoom_of_decode h, fun h => ?_⟩, fun data set h => ?_,
    fun keys t hk ht => ?_⟩
  · obtain ⟨keys, hkeys⟩ := exists_holds h
    exact ⟨_, decode_of_holds id hkeys⟩
  · obtain ⟨keys, hkeys⟩ := exists_holds (hasRoom_of_decode h)
    rw [decode_of_holds id hkeys] at h
    obtain rfl := Except.ok.inj h
    exact ⟨keys, hkeys, rfl, isStableSort_sorted keys⟩
  · have perm := (isStableSort_sorted keys).perm
    exact draws_of_ordered (fun k hm => Scalar.isNumber_of_isNaN (hk k (perm.mem_iff.mp hm)))
      (Scalar.isNumber_of_isNaN ht) (ordered_times hk)

/-- Keys out of order, with both zeros among their times. -/
def ramp : List KeyFrame := [⟨1, 4⟩, ⟨0, 2⟩, ⟨-0, 7⟩, ⟨0.5, 3⟩]

def rampData : List UInt8 := Word.bytes 4 ++ (ramp.flatMap KeyFrame.bytes ++ [0xff])

theorem ramp_drawn :
    (∃ keys set, (decode .none rampData).1 = .ok set ∧ Holds rampData keys ∧
      IsStableSort keys set.keys) ∧ (ofKeys .none ramp).Draws 0.25 := by
  obtain ⟨reads, sorts, draws⟩ := keyFrames_drawn .none
  obtain ⟨set, hset⟩ := (reads rampData).mpr ⟨4, _, rfl, by decide⟩
  obtain ⟨keys, holds, -, sort⟩ := sorts rampData set hset
  exact ⟨⟨keys, set, hset, holds, sort⟩,
    draws ramp 0.25 (by decide +kernel) (by decide +kernel)⟩

end KeyFrameSet
end EffectMachine
