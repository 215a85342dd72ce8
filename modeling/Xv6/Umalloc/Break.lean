import Xv6.Lib.Simulation
import Xv6.Umalloc.Run

/-!
# The heap and the size of the process

`malloc` over the system call: `sbrk` takes an `int` and moves the end of the process's memory,
down for a negative one. For requests below 2^31 - 15 bytes it is the `sbrk` that answers fresh
memory. Larger ones wrap, or reach `sbrk` as negative numbers.
-/

namespace Xv6.Umalloc
open Lib

structure Process where
  heap : Heap
  sz : ℕ

section Code

variable (base : ℕ) (room : ℕ → Bool)

end Code

section Refine

variable {base sz₀ : ℕ} {room : ℕ → Bool}

def top (sz₀ : ℕ) (got : List Region) : ℕ := got.foldr (fun r m => max (r.1 + r.2) m) sz₀

theorem le_top {got : List Region} {r : Region} (h : r ∈ got) : r.1 + r.2 ≤ top sz₀ got := by
  induction got with
  | nil => cases h
  | cons r' got ih =>
    rcases List.mem_cons.1 h with rfl | h
    · exact Nat.le_max_left _ _
    · exact Nat.le_trans (ih h) (Nat.le_max_right _ _)

end Refine

section Sizes

variable {base n : ℕ} {room : ℕ → Bool} {p : Process} {live : List (ℕ × ℕ)}

structure Process.Good (base : ℕ) (p : Process) (live : List (ℕ × ℕ)) : Prop where
  heap : Umalloc.Good base ⟨p.heap, live⟩
  owned : ∀ r ∈ p.heap.got, r.1 + r.2 ≤ p.sz
  above : base + headerSize ≤ p.sz
  user : p.sz < KERNBASE

theorem Ordered.below {w : World} {l : List ℕ} {top b : ℕ} (h : Ordered base w l)
    (htop : ∀ g ∈ w.heap.got, g.1 + g.2 ≤ top) (hb : (b, n) ∈ w.live) :
    b + headerSize + n ≤ top := by
  have hroom : headerSize + n ≤ headerSize * w.heap.size b := h.room _ hb
  obtain ⟨g, hg, -, hlt⟩ := (h.partition (b + headerSize * w.heap.size b - 1)).1
    ⟨b, List.mem_append_right _ (List.mem_map_of_mem hb), by
      rw [headerSize] at *
      omega⟩
  have := htop g hg
  rw [headerSize] at *
  omega

end Sizes

end Xv6.Umalloc
