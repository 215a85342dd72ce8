import Mathlib.Data.Finset.Card
import Mathlib.Tactic.NormNum

/-!
# Cells with blocks of their own

Every cell holds a block of an area or nothing, which is `0`. No two cells hold the same block,
and the free blocks are those of the area that no cell holds.

`Filled` is what an allocator does to such cells: it puts free blocks into the empty cells of a
set, one each, and leaves all other cells alone. The number of blocks it takes is the number of
the empty cells.
-/

namespace Xv6.Lib

variable {C : Type} {cell cell' cell'' : C → ℕ} {area free free' free'' : Finset ℕ} {b : ℕ} {c : C}

structure Allocation (cell : C → ℕ) (area free : Finset ℕ) : Prop where
  zero : 0 ∉ area
  inside : ∀ c, cell c ≠ 0 → cell c ∈ area
  injective : ∀ c c', cell c ≠ 0 → cell c = cell c' → c = c'
  free_iff : ∀ b, b ∈ free ↔ b ∈ area ∧ ∀ c, cell c ≠ b

namespace Allocation

theorem ne_zero (h : Allocation cell area free) (hb : b ∈ free) : b ≠ 0 := by
  rintro rfl
  exact h.zero ((h.free_iff 0).1 hb).1

theorem ne_of_free (h : Allocation cell area free) (hb : b ∈ free) (c : C) : cell c ≠ b :=
  ((h.free_iff b).1 hb).2 c

theorem take (h : Allocation cell area free) (hb : b ∈ free) (hc : cell c = 0)
    (hnew : cell' c = b) (hold : ∀ x, x ≠ c → cell' x = cell x) :
    Allocation cell' area (free.erase b) := by
  have hne : ∀ x, x ≠ c → cell' x ≠ b := fun x hx => hold x hx ▸ h.ne_of_free hb x
  refine ⟨h.zero, fun x hx => ?_, fun x y hx he => ?_, fun a => ?_⟩
  · by_cases hxc : x = c
    · rw [hxc, hnew]
      exact ((h.free_iff b).1 hb).1
    · rw [hold x hxc] at hx ⊢
      exact h.inside x hx
  · by_cases hxc : x = c
    · by_contra hxy
      exact hne y (fun hy => hxy (hxc.trans hy.symm)) (by rw [← he, hxc, hnew])
    · by_cases hyc : y = c
      · exact absurd (he.trans (by rw [hyc, hnew])) (hne x hxc)
      · rw [hold x hxc] at hx he
        rw [hold y hyc] at he
        exact h.injective x y hx he
  · rw [Finset.mem_erase, h.free_iff]
    constructor
    · rintro ⟨hab, harea, hcell⟩
      refine ⟨harea, fun x => ?_⟩
      by_cases hxc : x = c
      · rw [hxc, hnew]
        exact fun e => hab e.symm
      · rw [hold x hxc]
        exact hcell x
    · rintro ⟨harea, hcell⟩
      refine ⟨fun hab => hcell c (by rw [hnew, hab]), harea, fun x hx => ?_⟩
      by_cases hxc : x = c
      · rw [hxc, hc] at hx
        exact h.zero (hx ▸ harea)
      · exact hcell x (by rw [hold x hxc, hx])

end Allocation

variable {N M : Finset C}

def missing (cell : C → ℕ) (N : Finset C) : ℕ := (N.filter fun c => cell c = 0).card

structure Filled (cell cell' : C → ℕ) (N : Finset C) (free free' : Finset ℕ) : Prop where
  kept : ∀ c, cell c ≠ 0 → cell' c = cell c
  empty : ∀ c, cell' c = 0 ↔ cell c = 0 ∧ c ∉ N
  fresh : ∀ c, cell c = 0 → cell' c ≠ 0 → cell' c ∈ free
  subset : free' ⊆ free
  count : free'.card + missing cell N = free.card

theorem missing_eq_zero (h : ∀ c ∈ N, cell c ≠ 0) : missing cell N = 0 := by
  rw [missing, Finset.card_eq_zero, Finset.filter_eq_empty_iff]
  intro c hc
  exact h c hc

theorem missing_pos (hc : c ∈ N) (h0 : cell c = 0) : 0 < missing cell N :=
  Finset.card_pos.2 ⟨c, Finset.mem_filter.2 ⟨hc, h0⟩⟩

theorem missing_mono (h : N ⊆ M) : missing cell N ≤ missing cell M :=
  Finset.card_le_card (Finset.filter_subset_filter _ h)

theorem missing_union [DecidableEq C] (h : ∀ c, cell' c = 0 ↔ cell c = 0 ∧ c ∉ N) (M : Finset C) :
    missing cell (N ∪ M) = missing cell N + missing cell' M := by
  have hdisj : Disjoint (N.filter fun c => cell c = 0) (M.filter fun c => cell' c = 0) := by
    rw [Finset.disjoint_left]
    intro c hN hM
    exact ((h c).1 (Finset.mem_filter.1 hM).2).2 (Finset.mem_filter.1 hN).1
  unfold missing
  rw [← Finset.card_union_of_disjoint hdisj]
  congr 1
  ext c
  simp only [Finset.mem_filter, Finset.mem_union, h c]
  tauto

namespace Filled

theorem refl (h : ∀ c ∈ N, cell c ≠ 0) : Filled cell cell N free free :=
  ⟨fun _ _ => rfl, fun c => ⟨fun hc => ⟨hc, fun hN => h c hN hc⟩, And.left⟩,
    fun _ hc hne => absurd hc hne, Finset.Subset.refl _, by rw [missing_eq_zero h, Nat.add_zero]⟩

theorem trans [DecidableEq C] (h : Filled cell cell' N free free') (h' : Filled cell' cell'' M free' free'') :
    Filled cell cell'' (N ∪ M) free free'' := by
  refine ⟨fun c hc => ?_, fun c => ?_, fun c hc hne => ?_, h'.subset.trans h.subset, ?_⟩
  · rw [h'.kept c (by rwa [h.kept c hc]), h.kept c hc]
  · rw [h'.empty, h.empty, Finset.mem_union]
    tauto
  · by_cases hc' : cell' c = 0
    · exact h.subset (h'.fresh c hc' hne)
    · rw [h'.kept c hc']
      exact h.fresh c hc hc'
  · have h1 := h.count
    have h2 := h'.count
    rw [missing_union h.empty]
    omega

theorem single (hb : b ∈ free) (hzero : b ≠ 0) (hc : cell c = 0)
    (hnew : cell' c = b) (hold : ∀ x, x ≠ c → cell' x = cell x) :
    Filled cell cell' {c} free (free.erase b) := by
  refine ⟨fun x hx => hold x fun e => hx (e ▸ hc), fun x => ?_, fun x hx hne => ?_,
    Finset.erase_subset _ _, ?_⟩
  · rw [Finset.mem_singleton]
    by_cases hxc : x = c
    · rw [hxc, hnew]
      exact iff_of_false hzero fun hh => hh.2 rfl
    · rw [hold x hxc]
      exact ⟨fun hx => ⟨hx, hxc⟩, And.left⟩
  · by_cases hxc : x = c
    · rw [hxc, hnew]
      exact hb
    · exact absurd ((hold x hxc).trans hx) hne
  · have hone : missing cell {c} = 1 := by
      rw [missing, Finset.filter_singleton, if_pos hc, Finset.card_singleton]
    rw [hone, Finset.card_erase_add_one hb]

end Filled

end Xv6.Lib
