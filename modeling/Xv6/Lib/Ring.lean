import Mathlib.Data.List.Basic
import Mathlib.Tactic.NormNum

/-!
# Ring buffers

`InRing size buf a bs`: the cells of a ring of `size` cells hold `bs` from position `a` on.
Positions count all values that ever went through the ring; a cell is a position modulo
`size`.
-/

namespace Xv6.Lib

def InRing {β : Type} (size : ℕ) (buf : ℕ → β) (a : ℕ) (bs : List β) : Prop :=
  ∀ i (h : i < bs.length), buf ((a + i) % size) = bs[i]

namespace InRing

variable {β : Type} {size a : ℕ} {buf : ℕ → β} {b : β} {bs : List β}

theorem cell_ne {i j : ℕ} (hij : i < j) (hj : j < i + size) : i % size ≠ j % size := by
  intro h
  have hdvd : size ∣ j - i :=
    Nat.dvd_of_mod_eq_zero (Nat.sub_mod_eq_zero_of_mod_eq h.symm)
  have := Nat.le_of_dvd (by omega) hdvd
  omega

theorem push (h : InRing size buf a bs) (hroom : bs.length < size) (b : β) :
    InRing size (Function.update buf ((a + bs.length) % size) b) a (bs ++ [b]) := by
  intro i hi
  rw [List.length_append, List.length_singleton] at hi
  by_cases hlast : i = bs.length
  · subst hlast
    rw [Function.update_self, List.getElem_concat_length rfl]
  · have hlt : i < bs.length := by omega
    have hne : (a + i) % size ≠ (a + bs.length) % size := cell_ne (by omega) (by omega)
    rw [Function.update_of_ne hne, List.getElem_append_left hlt]
    exact h i hlt

theorem head (h : InRing size buf a (b :: bs)) : buf (a % size) = b :=
  h 0 (Nat.succ_pos _)

theorem pop (h : InRing size buf a (b :: bs)) : InRing size buf (a + 1) bs := by
  intro i hi
  have := h (i + 1) (Nat.succ_lt_succ hi)
  rwa [← Nat.add_assoc, Nat.add_right_comm] at this

theorem take (h : InRing size buf a bs) (n : ℕ) : InRing size buf a (bs.take n) := by
  intro i hi
  rw [List.getElem_take]
  exact h i _

theorem last (h : InRing size buf a (bs ++ [b])) : buf ((a + bs.length) % size) = b := by
  have := h bs.length (by simp)
  rwa [List.getElem_concat_length rfl] at this

end InRing

end Xv6.Lib
