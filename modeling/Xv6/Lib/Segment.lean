import Mathlib.Data.List.Nodup
import Mathlib.Tactic.NormNum

/-!
# Segments of a linked list

`Seg next p l q`: the links from `p` on go through the nodes of `l`, in this order, to `q`.
A circular list is a segment from a node back to it.
-/

namespace Xv6.Lib

variable {α : Type}

def Seg (next : α → α) : α → List α → α → Prop
  | p, [], q => p = q
  | p, x :: l, q => p = x ∧ Seg next (next x) l q

namespace Seg

variable {next next' : α → α} {p q r x : α} {l l' : List α}

theorem append : Seg next p (l ++ l') q ↔ ∃ m, Seg next p l m ∧ Seg next m l' q := by
  induction l generalizing p with
  | nil => exact ⟨fun h => ⟨p, rfl, h⟩, fun ⟨_, hm, h⟩ => hm ▸ h⟩
  | cons y l ih =>
    change p = y ∧ Seg next (next y) (l ++ l') q ↔
      ∃ m, (p = y ∧ Seg next (next y) l m) ∧ Seg next m l' q
    simp only [ih, and_assoc, exists_and_left]

theorem append_cons :
    Seg next p (l ++ x :: l') q ↔ Seg next p l x ∧ Seg next (next x) l' q := by
  rw [append]
  exact ⟨fun ⟨_, h, hm, h'⟩ => ⟨hm ▸ h, h'⟩, fun ⟨h, h'⟩ => ⟨x, h, rfl, h'⟩⟩

theorem congr (h : Seg next p l q) (heq : ∀ y ∈ l, next' y = next y) : Seg next' p l q := by
  induction l generalizing p with
  | nil => exact h
  | cons y l ih =>
    refine ⟨h.1, ?_⟩
    rw [heq y List.mem_cons_self]
    exact ih h.2 fun z hz => heq z (List.mem_cons_of_mem _ hz)

theorem rotate (h : Seg next p (l ++ x :: l') p) : Seg next x (x :: l' ++ l) x := by
  obtain ⟨h, h'⟩ := append_cons.1 h
  exact ⟨rfl, append.2 ⟨p, h', h⟩⟩

end Seg

end Xv6.Lib
