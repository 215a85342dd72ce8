import Mathlib.Data.List.Basic
import Mathlib.Tactic.NormNum

/-!
# Exclusive ownership

`own r p`: the role `r` holds the resource `p`. Ownership is exclusive when no
resource has two roles. An operation that works on some active roles only, and
hands each resource from an active role to an active role, keeps it exclusive.

`Chain addr next r l`: following `next` from the pointer `r` visits the nodes `l`
and ends in the null pointer.
-/

namespace Xv6.Lib

section Exclusive

variable {R P : Type}

def Exclusive (own : R → P → Prop) : Prop := ∀ ⦃a b p⦄, own a p → own b p → a = b

theorem Exclusive.transfer {own own' : R → P → Prop} (h : Exclusive own) (A : R → Prop)
    (hA : ∀ r r' p, A r → A r' → own' r p → own' r' p → r = r')
    (hsame : ∀ r p, ¬A r → own' r p → own r p)
    (hmoved : ∀ r p, A r → own' r p → ∃ r₀, A r₀ ∧ own r₀ p) : Exclusive own' := by
  intro r r' p hr hr'
  by_cases ha : A r <;> by_cases ha' : A r'
  · exact hA r r' p ha ha' hr hr'
  · obtain ⟨r₀, ha₀, h₀⟩ := hmoved r p ha hr
    exact absurd (h h₀ (hsame r' p ha' hr') ▸ ha₀) ha'
  · obtain ⟨r₀, ha₀, h₀⟩ := hmoved r' p ha' hr'
    exact absurd (h h₀ (hsame r p ha hr) ▸ ha₀) ha
  · exact h (hsame r p ha hr) (hsame r' p ha' hr')

end Exclusive

section Chain

variable {α : Type} {addr : α → ℕ} {next next' : α → ℕ}

def Chain (addr next : α → ℕ) : ℕ → List α → Prop
  | r, [] => r = 0
  | r, a :: l => r = addr a ∧ Chain addr next (next a) l

theorem Chain.congr {r : ℕ} {l : List α} (h : Chain addr next r l)
    (hn : ∀ a ∈ l, next' a = next a) : Chain addr next' r l := by
  induction l generalizing r with
  | nil => exact h
  | cons a l ih =>
    refine ⟨h.1, ?_⟩
    rw [hn a (by simp)]
    exact ih h.2 fun b hb => hn b (by simp [hb])

end Chain

end Xv6.Lib
