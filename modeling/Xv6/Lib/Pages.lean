import Xv6.Lib.Bytes

/-!
# Paged memory

A memory is a function from page numbers to byte regions. Aligned words of
different pages, or at different indices of one page, never interfere.
-/

namespace Xv6.Lib

abbrev Pages := ℕ → Bytes

namespace Pages

variable (m : Pages) {p q i j w : ℕ}

def word (p i : ℕ) : ℕ := (m p).read32 (4 * i)

def setWord (p i w : ℕ) : Pages := Function.update m p ((m p).write32 (4 * i) w)

def fill (p : ℕ) (b : UInt8) : Pages := Function.update m p fun _ => b

theorem setWord_of_ne (h : q ≠ p) : m.setWord p i w q = m q := Function.update_of_ne h _ _

theorem fill_of_ne {b : UInt8} (h : q ≠ p) : m.fill p b q = m q := Function.update_of_ne h _ _

theorem word_congr {m m' : Pages} (h : m' p = m p) : m'.word p i = m.word p i := by
  simp [word, h]

theorem word_setWord_self (hw : w < 2 ^ 32) : (m.setWord p i w).word p i = w := by
  simp only [word, setWord, Function.update_self, Bytes.read32_write32]
  exact Nat.mod_eq_of_lt hw

theorem word_setWord_of_ne (h : q ≠ p ∨ j ≠ i) : (m.setWord p i w).word q j = m.word q j := by
  by_cases hq : q = p
  · subst hq
    have hj : j ≠ i := h.resolve_left fun hn => hn rfl
    simp only [word, setWord, Function.update_self]
    exact Bytes.read32_write32_of_disjoint _ _ (by omega)
  · exact word_congr (m.setWord_of_ne hq)

theorem word_fill_zero : (m.fill p 0).word p i = 0 := by
  simp [word, fill, Bytes.read32]

end Pages

end Xv6.Lib
