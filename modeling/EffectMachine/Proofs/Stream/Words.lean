import EffectMachine.Resource.Id
import EffectMachine.Stream.Word

namespace EffectMachine.Word

/-- What is checked of each of the numbers below 256 holds of all bytes. -/
theorem forall_byte {P : UInt8 → Prop} (h : ∀ n : Fin 256, P (UInt8.ofNat n)) (b : UInt8) : P b := by
  have hb := h ⟨b.toNat, b.toNat_lt⟩
  rwa [UInt8.ofNat_toNat] at hb

def halfBytes (w : UInt16) : List UInt8 := [w.toUInt8, (w >>> 8).toUInt8]

@[simp] theorem ofBytes_bytes (w : UInt32) :
    ofBytes w.toUInt8 (w >>> 8).toUInt8 (w >>> 16).toUInt8 (w >>> 24).toUInt8 = w := by
  apply UInt32.toBitVec_inj.mp
  ext i hi
  simp [ofBytes, -UInt32.toUInt32_toUInt8]
  grind

@[simp] theorem bytes_ofBytes (a b c d : UInt8) : bytes (ofBytes a b c d) = [a, b, c, d] := by
  simp only [bytes, List.cons.injEq, and_true]
  refine ⟨?_, ?_, ?_, ?_⟩
  all_goals
    apply UInt8.toBitVec_inj.mp
    ext i hi
    simp [ofBytes] <;> grind

theorem bytes_inj {w v : UInt32} : bytes w = bytes v ↔ w = v := by
  constructor
  · intro h
    simp only [bytes, List.cons.injEq, and_true] at h
    obtain ⟨h0, h1, h2, h3⟩ := h
    rw [← ofBytes_bytes w, h0, h1, h2, h3, ofBytes_bytes]
  · rintro rfl
    rfl

@[simp] theorem halfOfBytes_bytes (w : UInt16) :
    halfOfBytes w.toUInt8 (w >>> 8).toUInt8 = w := by
  apply UInt16.toBitVec_inj.mp
  ext i hi
  simp [halfOfBytes, -UInt16.toUInt16_toUInt8]
  grind

/-- Two bytes below a half word. -/
theorem parts_eq (a b : UInt8) (w : UInt16) :
    a.toUInt32 ||| b.toUInt32 <<< 8 ||| w.toUInt32 <<< 16 =
      ofBytes a b w.toUInt8 (w >>> 8).toUInt8 := by
  apply UInt32.toBitVec_inj.mp
  ext i hi
  simp [ofBytes, -UInt16.toUInt32_toUInt8]
  grind

theorem bytes_parts (a b : UInt8) (w : UInt16) :
    bytes (a.toUInt32 ||| b.toUInt32 <<< 8 ||| w.toUInt32 <<< 16) = [a, b] ++ halfBytes w := by
  rw [parts_eq, bytes_ofBytes]
  rfl

theorem bytes_pair (a b : UInt8) :
    bytes (a.toUInt32 ||| b.toUInt32 <<< 8) = [a, b] ++ halfBytes 0 := by
  have h := bytes_parts a b 0
  rw [show (0 : UInt16).toUInt32 <<< 16 = 0 from rfl, UInt32.or_zero] at h
  exact h

theorem bytes_ofHalves (lo hi : UInt16) :
    bytes (ofHalves lo hi) = halfBytes lo ++ halfBytes hi := by
  have h : ofHalves lo hi =
      ofBytes lo.toUInt8 (lo >>> 8).toUInt8 hi.toUInt8 (hi >>> 8).toUInt8 := by
    apply UInt32.toBitVec_inj.mp
    ext i hi
    simp [ofHalves, ofBytes, -UInt16.toUInt32_toUInt8]
    grind
  rw [h, bytes_ofBytes]
  rfl

theorem ofHalves_halves (w : UInt32) : ofHalves w.toUInt16 (w >>> 16).toUInt16 = w := by
  apply UInt32.toBitVec_inj.mp
  ext i hi
  simp [ofHalves, -UInt32.toUInt32_toUInt16]
  grind

theorem bytes_toWord (id : ResourceId) : bytes id.toWord = [id.b0, id.b1, id.b2, id.b3] :=
  bytes_ofBytes ..

@[simp] theorem toWord_ofWord (w : UInt32) : (ResourceId.ofWord w).toWord = w := ofBytes_bytes w

@[simp] theorem length_bytes (w : UInt32) : (bytes w).length = 4 := rfl

@[simp] theorem length_allBytes (ws : List UInt32) : (allBytes ws).length = 4 * ws.length := by
  induction ws with
  | nil => rfl
  | cons w ws ih =>
    rw [allBytes, List.flatMap_cons, List.length_append, length_bytes, ← allBytes, ih,
      List.length_cons]
    omega

theorem allBytes_append (ws vs : List UInt32) : allBytes (ws ++ vs) = allBytes ws ++ allBytes vs :=
  List.flatMap_append

/-- Bytes in fours are those of words. -/
theorem exists_allBytes {n : Nat} {bs : List UInt8} (h : bs.length = 4 * n) :
    ∃ ws, ws.length = n ∧ allBytes ws = bs := by
  induction n generalizing bs with
  | zero => exact ⟨[], rfl, (List.length_eq_zero_iff.mp h).symm⟩
  | succ n ih =>
    match bs, h with
    | a :: b :: c :: d :: bs, h =>
      simp only [List.length_cons] at h
      obtain ⟨ws, hn, hws⟩ := ih (show bs.length = 4 * n by omega)
      refine ⟨ofBytes a b c d :: ws, by rw [List.length_cons, hn], ?_⟩
      rw [allBytes, List.flatMap_cons, bytes_ofBytes, ← allBytes, hws]
      rfl

/-- Four bytes at the front are those of a word. -/
theorem exists_bytes {bs : List UInt8} (h : 4 ≤ bs.length) :
    ∃ w rest, bs = bytes w ++ rest := by
  match bs, h with
  | a :: b :: c :: d :: rest, _ => exact ⟨ofBytes a b c d, rest, by rw [bytes_ofBytes]; rfl⟩

end EffectMachine.Word
