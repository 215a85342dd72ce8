import Mathlib.Data.List.Chain
import Mathlib.Data.List.Nodup
import Xv6.Lib.Outcome

/-!
# Doubly linked lists

`Linked next prev l`: the links `next` go through `l`, and the links `prev` go back. A circular
list with the head `h` is `Linked next prev (h :: l ++ [h])`.
-/

namespace Xv6.Lib
open Function

variable {α : Type}

def Linked (next prev : α → α) : List α → Prop :=
  List.IsChain fun a b => next a = b ∧ prev b = a

/-- Follow the links to the first node with `test` or to the head `none`. After more than `n`
nodes, when there are no more, the search has no end. -/
def seek (link : Option α → Option α) (test : α → Bool) : ℕ → Option α → Outcome (Option α)
  | _, none => .ret none
  | 0, some _ => .hang
  | n + 1, some x => if test x then .ret (some x) else seek link test n (link (some x))

theorem seek_eq {next prev : Option α → Option α} {test : α → Bool} {a : Option α} {l : List α}
    {n : ℕ} (h : Linked next prev (a :: (l.map some ++ [none]))) (hn : l.length ≤ n) :
    seek next test n (next a) = .ret (l.find? test) := by
  induction l generalizing a n with
  | nil =>
    rw [(List.isChain_pair.1 h).1]
    cases n <;> rfl
  | cons x l ih =>
    obtain ⟨hx, h⟩ := List.isChain_cons_cons.1 h
    obtain ⟨n, rfl⟩ : ∃ m, n = m + 1 := ⟨n - 1, by simp at hn; omega⟩
    rw [hx.1, seek, List.find?_cons]
    cases test x with
    | true => rfl
    | false => exact ih h (by simpa using hn)

namespace Linked

variable {next prev next' prev' : α → α} {a b : α} {l l' : List α}

theorem reverse (h : Linked next prev l) : Linked prev next l.reverse :=
  List.isChain_reverse.2 (h.imp fun _ _ => And.symm)

theorem congr (h : Linked next prev l) (hnext : ∀ y ∈ l.dropLast, next' y = next y)
    (hprev : ∀ y ∈ l.tail, prev' y = prev y) : Linked next' prev' l := by
  induction h with
  | nil => exact .nil
  | singleton a => exact .singleton a
  | cons_cons hab h ih =>
    refine .cons_cons ?_ (ih ?_ ?_) <;> grind

variable [DecidableEq α]

theorem join (h : Linked next prev (l ++ [a])) (h' : Linked next prev (b :: l'))
    (ha : a ∉ l ∧ a ∉ (b :: l').dropLast) (hb : b ∉ (l ++ [a]).tail ∧ b ∉ l') :
    Linked (update next a b) (update prev b a) (l ++ a :: b :: l') := by
  refine List.isChain_append_cons_cons.2 ⟨h.congr ?_ ?_, ⟨update_self _ _ _,
    update_self _ _ _⟩, h'.congr ?_ ?_⟩ <;> grind [update_apply]

theorem unlink (h : Linked next prev (a :: (l ++ b :: l' ++ [a])))
    (hl : (a :: (l ++ b :: l')).Nodup) :
    Linked (update next (prev b) (next b)) (update prev (next b) (prev b))
      (a :: (l ++ l' ++ [a])) := by
  obtain ⟨m, x, hm⟩ : ∃ m x, a :: l = m ++ [x] :=
    ⟨_, _, (List.dropLast_concat_getLast (List.cons_ne_nil a l)).symm⟩
  obtain ⟨y, m', hm'⟩ : ∃ y m', l' ++ [a] = y :: m' := List.exists_cons_of_ne_nil (by simp)
  have hold : a :: (l ++ b :: l' ++ [a]) = m ++ x :: b :: y :: m' := by grind
  have hnew : a :: (l ++ l' ++ [a]) = m ++ x :: y :: m' := by grind
  rw [hold] at h
  obtain ⟨h₁, hx, h₂⟩ := List.isChain_append_cons_cons.1 h
  obtain ⟨hy, h₂⟩ := List.isChain_cons_cons.1 h₂
  rw [hnew, hx.2, hy.1]
  have hxl : x ∈ a :: l := by simp [hm]
  have hyl : y ∈ l' ++ [a] := by simp [hm']
  have hback : (l' ++ [a]).Nodup := by grind
  have hfront : (a :: l).Nodup := by grind
  refine join h₁ h₂ ⟨?_, ?_⟩ ⟨?_, ?_⟩
  · rw [hm] at hfront
    grind
  · rw [← hm', List.dropLast_concat]
    grind
  · rw [← hm, List.tail_cons]
    grind
  · rw [hm'] at hback
    exact (List.nodup_cons.1 hback).1

theorem push (h : Linked next prev (a :: (l ++ [a]))) (hl : (a :: l).Nodup) (hb : b ∉ a :: l) :
    Linked (update (update next b (next a)) a b)
      (update (update prev b a) (next a) b) (a :: b :: (l ++ [a])) := by
  obtain ⟨y, m, hm⟩ : ∃ y m, l ++ [a] = y :: m := List.exists_cons_of_ne_nil (by simp)
  have hlast : (y :: m).dropLast = l := by rw [← hm, List.dropLast_concat]
  have hback : b ∉ y :: m ∧ (y :: m).Nodup := by
    rw [← hm]
    grind
  rw [hm] at h ⊢
  obtain ⟨hy, h⟩ := List.isChain_cons_cons.1 h
  have hfront := join (l := []) (a := b) (.singleton b) h (by grind) (by grind)
  rw [hy.1, update_comm (by grind : b ≠ y)]
  exact join (l := []) (.singleton a) hfront (by grind) (by grind)

end Linked

end Xv6.Lib
