import EffectMachine.Proofs.Stream.Headers
import EffectMachine.Stream.Section
import Mathlib.Algebra.BigOperators.Group.List.Basic

namespace EffectMachine

open Decoder

namespace OpcodeTable

variable {α : Type} {table : OpcodeTable α} {format : HeaderFormat} {header : Header}
  {hb cb : List UInt8}

/-- An instruction whose parser reads just what the header declares. -/
theorem step_item {parse : Header → Decoder α} {content : α}
    (hread : (Header.read format).Reads hb header) (hlength : hb.length = 4)
    (hopcode : header.opcode ≠ terminator) (hsize : header.byteLength = 4 + cb.length)
    (hparse : table.parser? header.opcode = some parse) (hcontent : (parse header).Reads cb content)
    (hremarks : table.remarks header content = []) :
    (table.step format).Reads (hb ++ cb) (.item header content) := by
  intro r rest h
  rw [List.append_assoc] at h
  have hafter := rest_of_reads h
  have hnonzero : header.size ≠ 0 := by
    intro hzero
    rw [Header.byteLength, hzero, UInt8.toNat_zero] at hsize
    omega
  have hactual : ((r.advance hb.length).advance cb.length).pos - r.pos = header.byteLength := by
    rw [r.advance_advance, hsize, hlength]
    exact Nat.add_sub_cancel_left ..
  rw [step, run_bind (atEnd_of_rest (List.ne_nil_of_length_eq_add_one hlength) h),
    if_neg Bool.false_ne_true, run_bind (position_eq r), run_bind (hread r _ h),
    run_bind (remaining_of_reads h), List.length_append]
  dsimp only
  rw [if_neg hopcode, if_neg hnonzero, if_neg (by omega), hparse]
  dsimp only
  rw [run_bind (hcontent _ rest hafter), run_bind (position_eq _), hactual, if_neg (by simp),
    hremarks, r.advance_advance, ← List.length_append]
  rfl

/-- The end of a section. -/
theorem step_terminated (hread : (Header.read format).Reads hb header) (hlength : hb.length = 4)
    (hopcode : header.opcode = terminator) (hsize : header.byteLength = 4) :
    (table.step format).Reads hb (.stop .terminated) := by
  intro r rest h
  have hseek : seek (r.pos + 4) (r.advance hb.length) = .ok () (r.advance hb.length) := by
    have hlong : 4 ≤ r.rest.length := by
      rw [h, List.length_append]
      omega
    rw [hlength, ← r.seek_eq (by decide) hlong]
    rfl
  rw [step, run_bind (atEnd_of_rest (List.ne_nil_of_length_eq_add_one hlength) h),
    if_neg Bool.false_ne_true, run_bind (position_eq r), run_bind (hread r _ h),
    run_bind (remaining_of_reads h)]
  dsimp only
  rw [if_pos hopcode, hsize, Nat.max_self, if_neg (by omega), run_bind hseek]
  rfl

variable {items : List (Header × α)} {enc : Header × α → List UInt8}

/-- So many items and a terminator are read whole, and the reader stands behind them. -/
theorem readUpTo_items
    (hitems : ∀ i ∈ items, (table.step format).Reads (enc i) (.item i.1 i.2))
    (hend : (table.step format).Reads hb (.stop .terminated)) (n : Nat) {r : Reader}
    {rest : List UInt8} (h : r.rest = items.flatMap enc ++ hb ++ rest) :
    table.readUpTo format (items.length + n + 1) r =
      ⟨items, .ok .terminated, r.advance (items.flatMap enc ++ hb).length⟩ := by
  induction items generalizing r with
  | nil =>
    rw [List.flatMap_nil, List.nil_append] at h ⊢
    rw [readUpTo, hend r rest h]
  | cons item items ih =>
    rw [List.flatMap_cons, List.append_assoc, List.append_assoc, ← List.append_assoc _ hb] at h
    rw [readUpTo, hitems item List.mem_cons_self r _ h]
    dsimp only
    rw [List.length_cons, Nat.add_right_comm,
      ih (fun i hi => hitems i (List.mem_cons_of_mem _ hi)) (rest_of_reads h), r.advance_advance,
      ← List.length_append, ← List.append_assoc, List.flatMap_cons]

/-- Instructions one after another, then the terminator. Each takes at least a byte, so the bound of
the section is never met. -/
theorem decoder_reads
    (hitems : ∀ i ∈ items, (table.step format).Reads (enc i) (.item i.1 i.2))
    (hbytes : ∀ i ∈ items, enc i ≠ [])
    (hend : (table.step format).Reads hb (.stop .terminated)) :
    (table.decoder format).Reads (items.flatMap enc ++ hb) (items, .terminated) := by
  intro r rest h
  have hshort : items.length ≤ (items.flatMap enc).length := by
    have hone : ∀ n ∈ items.map fun i => (enc i).length, 1 ≤ n := by
      intro n hn
      obtain ⟨i, hi, rfl⟩ := List.mem_map.mp hn
      exact List.length_pos_of_ne_nil (hbytes i hi)
    have h := List.length_le_sum_of_one_le _ hone
    rwa [List.length_map, ← List.length_flatMap] at h
  have hfuel : r.remaining + 1 = items.length + (r.remaining - items.length) + 1 := by
    rw [Reader.remaining_eq, h, List.length_append, List.length_append]
    omega
  rw [decoder, readSection, hfuel, readUpTo_items hitems hend _ h]

end OpcodeTable
end EffectMachine
