import Xv6.Vm.Build

/-!
# Which pages a new address space gets

The allocator hands out the free list from the front. `setupkvm` takes 65 pages, the directory and
the 64 page tables of the kernel; the page after them is the first page of the stack and the next
one its page table.
-/

namespace Xv6.Vm
open Lib

variable {L : Link} {s s' : Kmem} {free : List ℕ} {d f t : ℕ}

def kernelTables : Finset ℕ := Finset.Ico 512 568 ∪ Finset.Ico 1016 1024

theorem card_kernelTables : kernelTables.card = 64 := by
  have hdisj : Disjoint (Finset.Ico 512 568) (Finset.Ico 1016 1024) := by
    rw [Finset.disjoint_left]
    intro i hi hj
    rw [Finset.mem_Ico] at hi hj
    omega
  rw [kernelTables, Finset.card_union_of_disjoint hdisj, Nat.card_Ico, Nat.card_Ico]

theorem Kern.table (h : Kern L s.mem d) {i : ℕ} (hi : i ∈ kernelTables) :
    tab s.mem d i ≠ none := by
  intro hnone
  have hmem : (512 ≤ i ∧ i < 568) ∨ 1016 ≤ i ∧ i < 1024 := by
    simpa [kernelTables, Finset.mem_union, Finset.mem_Ico] using hi
  have hdiv : 1024 * i / 1024 = i := Nat.mul_div_cancel_left i (by decide)
  have hpte := h (1024 * i) (show 524288 ≤ 1024 * i by omega) (by omega)
  rw [pte_of_tab_none (by rw [hdiv]; exact hnone), kpte, kpteAt, show UPAGES + PHYSTOP / PGSIZE = 581632 from rfl,
    show DEVSPACE / PGSIZE = 1040384 from rfl] at hpte
  have hpresent : present 0 = true := by
    rw [hpte]
    rcases hmem with hlow | hhigh
    · rw [if_pos (by omega)]
      exact entry_present
    · rw [if_neg (by omega), if_pos (by omega)]
      exact entry_present
  exact absurd hpresent (by decide)

theorem Wf.card_own (h : Wf L s free d) (hk : Kern L s.mem d)
    (hu : ∀ v < UPAGES, present (pte s.mem d v) = false)
    (htab : ∀ i, i < 512 ∨ 568 ≤ i ∧ i < 1016 → tab s.mem d i = none) :
    ∃ A : Finset ℕ, A.card = 65 ∧ ∀ p, p ∈ A ↔ Own s.mem d p := by
  have hsome : ∀ i ∈ kernelTables, tab s.mem d i = some ((tab s.mem d i).getD 0) := by
    intro i hi
    obtain ⟨t, ht⟩ := Option.ne_none_iff_exists'.1 (hk.table hi)
    rw [ht]
    rfl
  have hlt : ∀ i ∈ kernelTables, i < 1024 := by
    intro i hi
    have hmem : (512 ≤ i ∧ i < 568) ∨ 1016 ≤ i ∧ i < 1024 := by
      simpa [kernelTables, Finset.mem_union, Finset.mem_Ico] using hi
    omega
  have hinj : Set.InjOn (fun i => (tab s.mem d i).getD 0) kernelTables := by
    intro i hi j hj heq
    have hj' := hsome j hj
    rw [← show (tab s.mem d i).getD 0 = (tab s.mem d j).getD 0 from heq] at hj'
    exact h.tree.dir.tab_inj (hlt i hi) (hlt j hj) (hsome i hi) hj'
  have hnot : d ∉ kernelTables.image fun i => (tab s.mem d i).getD 0 := by
    rw [Finset.mem_image]
    rintro ⟨i, hi, heq⟩
    exact h.tree.dir.tab_ne_dir (hlt i hi) (hsome i hi) heq
  refine ⟨insert d (kernelTables.image fun i => (tab s.mem d i).getD 0), ?_, fun p => ?_⟩
  · rw [Finset.card_insert_of_notMem hnot, Finset.card_image_of_injOn hinj, card_kernelTables]
  · rw [Finset.mem_insert, Finset.mem_image, own_iff]
    constructor
    · rintro (rfl | ⟨i, hi, rfl⟩)
      · exact Or.inl rfl
      · exact Or.inr (Or.inl ⟨i, hlt i hi, hsome i hi⟩)
    · rintro (rfl | ⟨i, hi, ht⟩ | ⟨v, hv, hf⟩)
      · exact Or.inl rfl
      · refine Or.inr ⟨i, ?_, by rw [ht]; rfl⟩
        by_contra hout
        have hcases : i < 512 ∨ 568 ≤ i ∧ i < 1016 := by
          simp only [kernelTables, Finset.mem_union, Finset.mem_Ico, not_or, not_and] at hout
          omega
        rw [htab i hcases] at ht
        cases ht
      · rw [frm_eq_none.2 (hu v hv)] at hf
        cases hf

theorem setupkvm_takes (h : Pool L s free) (hrun : setupkvm L s = .ret (kva d, s')) :
    Wf L s' (free.drop 65) d := by
  obtain ⟨c, hw, htab⟩ := setupkvm_order h hrun
  have hspec := setupkvm_spec h
  rw [hrun] at hspec
  generalize hx : kva d = x at hspec
  cases hspec with
  | failed => exact absurd hx (kva_ne_zero d)
  | @built d' _ free' hw' hk hu hc hm _ =>
    obtain rfl := kva_inj hx
    obtain rfl := hw'.pool.unique hw.pool
    obtain ⟨A, hcard, hA⟩ := hw.card_own hk hu htab
    -- the pages in front of the rest of the list are those of the directory
    have htake : (free.take c).toFinset = A := by
      ext p
      rw [List.mem_toFinset, hA]
      have hnd := h.nodup
      rw [← List.take_append_drop c free, List.nodup_append] at hnd
      constructor
      · intro hp
        have hin := (hc p).2 (List.mem_of_mem_take hp)
        exact hin.resolve_left fun hdrop => hnd.2.2 p hp p hdrop rfl
      · intro ho
        have hin := (hc p).1 (Or.inr ho)
        rw [← List.take_append_drop c free, List.mem_append] at hin
        exact hin.resolve_right fun hdrop => hw.apart p hdrop ho
    have hlen : (free.take c).length = 65 := by
      rw [← List.toFinset_card_of_nodup (h.nodup.sublist (List.take_sublist c free)), htake, hcard]
    rw [List.length_take] at hlen
    have hdrop : free.drop 65 = free.drop c := by
      rcases Nat.le_total c free.length with hle | hle
      · rw [Nat.min_eq_left hle] at hlen
        rw [hlen]
      · rw [Nat.min_eq_right hle] at hlen
        rw [List.drop_eq_nil_of_le hle, List.drop_eq_nil_of_le hlen.le]
    rw [hdrop]
    exact hw

theorem map_taken_fresh (h : Wf L s (f :: t :: free) d) {v : ℕ} (hv : v < UPAGES)
    (hnone : tab s.mem d (v / 1024) = none) :
    ∃ s', mappages (kva d) (4096 * v) PGSIZE (4096 * f) (PTE_W ||| PTE_U) (taken s f .zero) =
        .ret (0, s') ∧ Wf L s' free d ∧ Moved {v} d s (f :: t :: free) s' free ∧
      Zeroed s'.mem d v ∧ tab s'.mem d (v / 1024) = some t ∧
      ∀ i, i ≠ v / 1024 → tab s'.mem d i = tab s.mem d i := by
  have hp : present (pte s.mem d v) = false := by
    rw [pte_of_tab_none hnone]
    rfl
  have hv20 := hv.trans UPAGES_lt
  obtain ⟨s', free', hmap, hw, hm, hpte, hmem, htab, -, -⟩ :=
    map_taken h (c := .zero) perm_user.1 perm_user.2 hv hp (by simp)
  have hf : ¬Own s.mem d f := h.apart f (by simp)
  obtain ⟨htab₀, hpte₀, -, -⟩ := h.tree.of_other hf
    (show ∀ q, q ≠ f → (taken s f .zero).mem q = s.mem q from fun _ hq => taken_mem hq)
  obtain ⟨t', s₁, hw₁, -, htab₁, hhead, -, hrun⟩ := mappagesFrom_round h.taken hv20 (by simp)
    (by rw [hpte₀ v hv20]; exact hp) (l := 4096 * v) (r := PTE_W ||| PTE_U) (n := 1048575)
    (b := 4096 * f)
  obtain rfl : t = t' := by
    have := hhead (by rw [htab₀]; exact hnone)
    simpa using this
  rw [tablesTaken, htab₀, if_pos hnone, List.drop_succ_cons, List.drop_zero] at hw₁
  rw [mappages_page hv20, allPages_eq, hrun] at hmap
  simp only [if_true] at hmap
  cases hmap
  have hpool : Pool L { s₁ with
      mem := s₁.mem.setWord t (v % 1024) (4096 * f ||| (PTE_W ||| PTE_U) ||| PTE_P) } free := by
    refine hw₁.pool.congr rfl fun q hq => Pages.setWord_of_ne _ ?_
    rintro rfl
    exact (List.nodup_cons.1 (List.nodup_cons.1 h.pool.nodup).2).1 hq
  obtain rfl := hw.pool.unique hpool
  refine ⟨_, ?_, hw, hm, ⟨f, hpte, hmem⟩, ?_, htab⟩
  · rw [mappages_page hv20, allPages_eq, hrun]
    simp only [if_true]
  · exact (tab_setPte hw₁.tree.dir htab₁ hv20).trans htab₁

theorem stack_takes (h : Wf L s (f :: t :: free) d) (hnone : tab s.mem d 511 = none) :
    ∃ s', allocuvm L (kva d) (sub32 STACK_TOP PGSIZE) STACK_TOP s = .ret (STACK_TOP, s') ∧
      Wf L s' free d ∧ Moved {UPAGES - 1} d s (f :: t :: free) s' free ∧
      Zeroed s'.mem d (UPAGES - 1) ∧ tab s'.mem d 511 = some t ∧
      ∀ i, i ≠ 511 → tab s'.mem d i = tab s.mem d i := by
  obtain ⟨hk, hz⟩ := taken_run h.pool
  have hflt : f < 2 ^ 19 := by have := (h.pool.page f (by simp)).lt; omega
  have hdiv : (UPAGES - 1) / 1024 = 511 := by decide
  obtain ⟨s', hmap, hw, hm, hzero, htab, hother⟩ :=
    map_taken_fresh h (show UPAGES - 1 < UPAGES by decide) (by rw [hdiv]; exact hnone)
  rw [hdiv] at htab hother
  refine ⟨s', ?_, hw, hm, hzero, htab, hother⟩
  have hstart : PGROUNDUP (sub32 STACK_TOP PGSIZE) = 4096 * (UPAGES - 1) := by decide
  have hlt : 4096 * (UPAGES - 1) < STACK_TOP := by decide
  have hend : ¬4096 * (UPAGES - 1 + 1) < STACK_TOP := by decide
  have hnext := add32_page (show UPAGES - 1 < 2 ^ 19 by decide)
  rw [allocuvm, if_neg (by decide), if_neg (by decide), hstart, allPages_eq, allocuvmFrom, if_pos hlt,
    Prog.bind_of_ret hk, if_neg (kva_ne_zero f), Prog.bind_of_ret hz, V2P_kva_zero hflt,
    Prog.bind_of_ret hmap, if_neg (by decide), hnext, show 1048575 = 1048574 + 1 from rfl,
    allocuvmFrom, if_neg hend]
  rfl

end Xv6.Vm
