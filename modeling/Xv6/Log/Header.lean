import Mathlib.Data.List.Nodup
import Xv6.Log.Machine

/-!
# The header block and the in-memory block list

`write_head` followed by `read_head` gives the list back, whatever entries of
earlier transactions the block still holds, and `log_write` keeps the list free
of duplicates.
-/

namespace Xv6.Log.Header
open Lib

theorem mem_blocks {h : Header} {b : ℕ} : b ∈ h.blocks ↔ ∃ i < h.n, h.block i = b := by
  simp [blocks]

theorem block_mem {h : Header} {i : ℕ} (hi : i < h.n) : h.block i ∈ h.blocks :=
  mem_blocks.mpr ⟨i, hi, rfl⟩

theorem block_injOn {h : Header} (hnd : h.blocks.Nodup) {i j : ℕ} (hi : i < h.n) (hj : j < h.n)
    (heq : h.block i = h.block j) : i = j := by
  have := (List.nodup_map_iff_inj_on List.nodup_range).mp hnd
  exact this i (List.mem_range.mpr hi) j (List.mem_range.mpr hj) heq

theorem blocks_congr {h k : Header} (hn : h.n = k.n) (hb : ∀ i < k.n, h.block i = k.block i) :
    h.blocks = k.blocks := by
  unfold blocks
  rw [hn]
  exact List.map_congr_left fun i hi => hb i (List.mem_range.mp hi)

theorem blocks_nil {h : Header} (hn : h.n = 0) : h.blocks = [] := by
  simp [blocks, hn]

theorem decode_encode_n {h : Header} (b : Bytes) (hn : h.n < 2 ^ 32) :
    (decode (h.encode b)).n = h.n := by
  have hkeep : (h.encode b).read32 0 = (b.write32 0 h.n).read32 0 :=
    Bytes.read32_congr fun _ _ ha => Bytes.writeWords_outside _ _ (.inl ha)
  rw [decode, hkeep, Bytes.read32_write32, Nat.mod_eq_of_lt hn]

theorem decode_encode_block {h : Header} (b : Bytes) {i : ℕ} (hi : i < h.n)
    (hb : h.block i < 2 ^ 32) : (decode (h.encode b)).block i = h.block i :=
  (Bytes.read32_writeWords (b.write32 0 h.n) h.block hi).trans (Nat.mod_eq_of_lt hb)

theorem slot_of_mem {h : Header} {b : ℕ} (hb : b ∈ h.blocks) :
    h.slot b < h.n ∧ h.block (h.slot b) = b := by
  obtain ⟨i, hi, hib⟩ := mem_blocks.mp hb
  have hs : ((List.range h.n).find? fun i => h.block i == b).isSome := by
    rw [List.find?_isSome]
    exact ⟨i, List.mem_range.mpr hi, by simpa using hib⟩
  obtain ⟨j, hj⟩ := Option.isSome_iff_exists.mp hs
  have hjm := List.mem_range.mp (List.mem_of_find?_eq_some hj)
  have hjb := List.find?_some hj
  simp only [slot, hj, Option.getD_some]
  exact ⟨hjm, by simpa using hjb⟩

theorem slot_of_not_mem {h : Header} {b : ℕ} (hb : b ∉ h.blocks) : h.slot b = h.n := by
  have hs : ((List.range h.n).find? fun i => h.block i == b) = none := by
    rw [List.find?_eq_none]
    intro i hi hib
    exact hb (mem_blocks.mpr ⟨i, List.mem_range.mp hi, by simpa using hib⟩)
  simp only [slot, hs, Option.getD_none]

theorem add_of_mem {h : Header} {b : ℕ} (hb : b ∈ h.blocks) : h.add b = h := by
  have hs := slot_of_mem hb
  have hu : Function.update h.block (h.slot b) b = h.block := by
    conv_lhs => rw [← hs.2]
    rw [hs.2]
    simp [Function.update_eq_self_iff, hs.2]
  cases h with
  | mk n block =>
    simp only [add, Header.mk.injEq]
    exact ⟨if_neg (by have := hs.1; simp only at this ⊢; omega), hu⟩

theorem add_n_of_not_mem {h : Header} {b : ℕ} (hb : b ∉ h.blocks) : (h.add b).n = h.n + 1 := by
  simp [add, slot_of_not_mem hb]

theorem add_blocks_of_not_mem {h : Header} {b : ℕ} (hb : b ∉ h.blocks) :
    (h.add b).blocks = h.blocks ++ [b] := by
  unfold blocks
  rw [add_n_of_not_mem hb, List.range_succ, List.map_append]
  simp only [add, slot_of_not_mem hb, List.map_cons, List.map_nil, Function.update_self]
  congr 1
  refine List.map_congr_left fun i hi => ?_
  exact Function.update_of_ne (by have := List.mem_range.mp hi; omega) _ _

theorem mem_add_blocks {h : Header} {b x : ℕ} : x ∈ (h.add b).blocks ↔ x ∈ h.blocks ∨ x = b := by
  by_cases hb : b ∈ h.blocks
  · rw [add_of_mem hb]
    exact ⟨Or.inl, fun hx => hx.elim id fun hx => hx ▸ hb⟩
  · rw [add_blocks_of_not_mem hb]
    simp

theorem add_nodup {h : Header} {b : ℕ} (hnd : h.blocks.Nodup) : (h.add b).blocks.Nodup := by
  by_cases hb : b ∈ h.blocks
  · rwa [add_of_mem hb]
  · rw [add_blocks_of_not_mem hb]
    exact List.nodup_append'.mpr ⟨hnd, List.nodup_singleton b, by simpa using hb⟩

end Xv6.Log.Header
