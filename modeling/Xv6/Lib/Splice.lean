import Mathlib.Data.List.Basic
import Mathlib.Tactic.NormNum

/-!
# Writing into a sequence

`splice l off src` is `l` with the part from `off` on replaced by `src`. It is longer than `l`
when `src` reaches beyond its end.
-/

namespace Xv6.Lib

variable {α : Type} {l src : List α} {off : ℕ}

def splice (l : List α) (off : ℕ) (src : List α) : List α :=
  l.take off ++ src ++ l.drop (off + src.length)

theorem length_splice (h : off ≤ l.length) :
    (splice l off src).length = max l.length (off + src.length) := by
  simp only [splice, List.length_append, List.length_take, List.length_drop]
  omega

theorem getElem?_splice (h : off ≤ l.length) (a : ℕ) :
    (splice l off src)[a]? = if off ≤ a ∧ a < off + src.length then src[a - off]? else l[a]? := by
  have htake : (l.take off).length = off := by
    rw [List.length_take]
    omega
  unfold splice
  by_cases hlo : a < off
  · rw [List.append_assoc, List.getElem?_append_left (by omega), List.getElem?_take, if_pos hlo,
      if_neg (by omega)]
  by_cases hhi : a < off + src.length
  · rw [List.append_assoc, List.getElem?_append_right (by omega), htake,
      List.getElem?_append_left (by omega), if_pos (by omega)]
  · rw [List.getElem?_append_right (by rw [List.length_append]; omega), List.getElem?_drop,
      List.length_append, htake, if_neg (by omega)]
    congr 1
    omega

theorem take_drop_splice (h : off ≤ l.length) (src : List α) :
    ((splice l off src).drop off).take src.length = src := by
  apply List.ext_getElem?
  intro k
  rw [List.getElem?_take, List.getElem?_drop, getElem?_splice h]
  by_cases hk : k < src.length
  · rw [if_pos hk, if_pos (by omega), Nat.add_sub_cancel_left]
  · rw [if_neg hk, List.getElem?_eq_none (by omega)]

theorem take_drop_splice_of_le (h : off ≤ l.length) (src : List α) {m n : ℕ} (hm : m + n ≤ off) :
    ((splice l off src).drop m).take n = (l.drop m).take n := by
  apply List.ext_getElem?
  intro k
  rw [List.getElem?_take, List.getElem?_take, List.getElem?_drop, List.getElem?_drop,
    getElem?_splice h]
  by_cases hk : k < n
  · rw [if_pos hk, if_pos hk, if_neg (by omega)]
  · rw [if_neg hk, if_neg hk]

end Xv6.Lib
