import Mathlib.Data.List.Infix
import Xv6.Pipes.Machine

/-!
# Pipes are first in, first out

The counters of a pipe are the numbers of bytes stored and handed out, modulo `2 ^ 32`,
and the bytes between them lie in the ring. `PIPESIZE` divides `2 ^ 32`, so the index
of a byte in the ring survives the wrap of the counters.
-/

namespace Xv6.Pipes
open Lib
open Vm (add32 sub32)

namespace Shared

variable {P : Type}

/-- The bytes in the ring, oldest first. -/
def buffered (s : Shared P) : List UInt8 :=
  (List.range (sub32 s.nwrite s.nread)).map fun k => s.data ((s.nread + k) % PIPESIZE)

structure Fifo (s : Shared P) : Prop where
  nread : s.nread = s.handed.length % 2 ^ 32
  nwrite : s.nwrite = s.stored.length % 2 ^ 32
  bytes : s.stored.map Prod.snd = s.handed ++ s.buffered
  room : s.stored.length ≤ s.handed.length + PIPESIZE

namespace Fifo

variable {s : Shared P} (h : s.Fifo)
include h

theorem handed_le : s.handed.length ≤ s.stored.length := by
  have := congrArg List.length h.bytes
  simp only [List.length_map, List.length_append] at this
  omega

theorem count : sub32 s.nwrite s.nread = s.stored.length - s.handed.length := by
  have h1 := h.handed_le
  have h2 := h.room
  rw [h.nread, h.nwrite]
  simp only [sub32, PIPESIZE] at h2 ⊢
  omega

theorem isFull_iff : s.isFull ↔ s.stored.length = s.handed.length + PIPESIZE := by
  have h1 := h.handed_le
  have h2 := h.room
  simp only [isFull, decide_eq_true_eq, h.nread, h.nwrite, add32, PIPESIZE] at h2 ⊢
  omega

theorem isEmpty_iff : s.isEmpty ↔ s.stored.length = s.handed.length := by
  have h1 := h.handed_le
  have h2 := h.room
  simp only [isEmpty, decide_eq_true_eq, h.nread, h.nwrite, PIPESIZE] at h2 ⊢
  omega

theorem index (k : ℕ) : (s.nread + k) % PIPESIZE = (s.handed.length + k) % PIPESIZE := by
  rw [h.nread]
  simp only [PIPESIZE]
  omega

theorem buffered_eq : s.buffered = (List.range (s.stored.length - s.handed.length)).map
    fun k => s.data ((s.handed.length + k) % PIPESIZE) := by
  simp only [buffered, h.count, h.index]

end Fifo

theorem Fifo.of_data {s : Shared P} (hr : s.nread = s.handed.length % 2 ^ 32)
    (hw : s.nwrite = s.stored.length % 2 ^ 32) (hle : s.handed.length ≤ s.stored.length)
    (hroom : s.stored.length ≤ s.handed.length + PIPESIZE)
    (hbytes : s.stored.map Prod.snd = s.handed ++
      (List.range (s.stored.length - s.handed.length)).map
        fun k => s.data ((s.handed.length + k) % PIPESIZE)) : s.Fifo := by
  have hcount : sub32 s.nwrite s.nread = s.stored.length - s.handed.length := by
    rw [hr, hw]
    simp only [sub32, PIPESIZE] at hroom ⊢
    omega
  have hindex (k : ℕ) : (s.nread + k) % PIPESIZE = (s.handed.length + k) % PIPESIZE := by
    rw [hr]
    simp only [PIPESIZE]
    omega
  refine ⟨hr, hw, ?_, hroom⟩
  simp only [buffered, hcount, hindex]
  exact hbytes

theorem Fifo.store {s : Shared P} (h : s.Fifo) (hroom : ¬ s.isFull) (p : P) (b : UInt8) :
    (s.store p b).Fifo := by
  have hle := h.handed_le
  have hlt : s.stored.length < s.handed.length + PIPESIZE := by
    have := h.room
    rw [h.isFull_iff] at hroom
    omega
  have hslot : s.nwrite % PIPESIZE = s.stored.length % PIPESIZE := by
    rw [h.nwrite]
    simp only [PIPESIZE]
    omega
  have hlen : (s.store p b).stored.length = s.stored.length + 1 := by
    simp [Shared.store]
  apply Fifo.of_data
  · exact h.nread
  · change add32 s.nwrite 1 = _
    rw [hlen, h.nwrite, add32]
    omega
  · change s.handed.length ≤ _
    omega
  · change _ ≤ s.handed.length + PIPESIZE
    omega
  · change (s.stored ++ [(p, b)]).map Prod.snd = s.handed ++ (List.range
      ((s.store p b).stored.length - s.handed.length)).map fun k =>
        Function.update s.data (s.nwrite % PIPESIZE) b ((s.handed.length + k) % PIPESIZE)
    obtain ⟨m, hm⟩ := Nat.exists_eq_add_of_le hle
    rw [List.map_append, h.bytes, h.buffered_eq, hlen, hslot, hm, Nat.add_sub_cancel_left,
      Nat.add_assoc, Nat.add_sub_cancel_left, List.range_succ, List.map_append,
      List.append_assoc]
    have hold (k : ℕ) (hk : k ∈ List.range m) :
        Function.update s.data ((s.handed.length + m) % PIPESIZE) b
          ((s.handed.length + k) % PIPESIZE) = s.data ((s.handed.length + k) % PIPESIZE) := by
      rw [List.mem_range] at hk
      refine Function.update_of_ne ?_ ..
      simp only [PIPESIZE] at hlt ⊢
      omega
    rw [List.map_congr_left hold]
    simp

theorem Fifo.hand {s : Shared P} (h : s.Fifo) (hne : ¬ s.isEmpty) : s.hand.Fifo := by
  have hle := h.handed_le
  have hlt : s.handed.length < s.stored.length := by
    rw [h.isEmpty_iff] at hne
    omega
  have hlen : s.hand.handed.length = s.handed.length + 1 := by
    simp [Shared.hand]
  apply Fifo.of_data
  · change add32 s.nread 1 = _
    rw [hlen, h.nread, add32]
    omega
  · exact h.nwrite
  · change _ ≤ s.stored.length
    omega
  · change s.stored.length ≤ _
    have := h.room
    omega
  · change s.stored.map Prod.snd = (s.handed ++ [s.next]) ++ (List.range
      (s.stored.length - s.hand.handed.length)).map fun k =>
        s.data ((s.hand.handed.length + k) % PIPESIZE)
    obtain ⟨m, hm⟩ : ∃ m, s.stored.length = s.handed.length + (m + 1) :=
      ⟨s.stored.length - s.handed.length - 1, by omega⟩
    have hnext : s.next = s.data (s.handed.length % PIPESIZE) := by
      rw [next, ← Nat.add_zero s.nread, h.index, Nat.add_zero]
    rw [h.bytes, h.buffered_eq, hlen, hm, Nat.add_sub_cancel_left, List.range_succ_eq_map,
      show s.handed.length + (m + 1) - (s.handed.length + 1) = m by omega, hnext]
    simp [List.append_assoc, Nat.add_assoc, Nat.add_comm 1, Function.comp_def]

theorem Fifo.close {s : Shared P} (h : s.Fifo) (w : Bool) : (s.close w).Fifo := by
  cases w <;> exact ⟨h.nread, h.nwrite, h.bytes, h.room⟩

end Shared

end Xv6.Pipes
