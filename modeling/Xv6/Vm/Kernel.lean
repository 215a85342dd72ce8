import Xv6.Vm.Alloc

/-!
# The kernel half of a page directory

`setupkvm` builds a directory with the mappings of `kmap` and no user page, wherever the
linker has put the kernel's data. The entry it leaves for a kernel page is `kpte`; none of them
carries `PTE_U`. Out of memory it gives back what it took.
-/

namespace Xv6.Vm
open Lib

variable {L : Link} {R : Set ℕ} {s s' : Kmem} {free free' : List ℕ} {d v t w n q perm : ℕ}

def kpteAt (data v : ℕ) : ℕ :=
  if v < UPAGES + PHYSTOP / PGSIZE then
    4096 * (v - UPAGES) |||
      (if KERNLINK / PGSIZE ≤ v ∧ v < data / PGSIZE then 0 else PTE_W) ||| PTE_P
  else if DEVSPACE / PGSIZE ≤ v then 4096 * v ||| PTE_W ||| PTE_P
  else 0

def kpte (L : Link) (v : ℕ) : ℕ := kpteAt L.data v

def Kern (L : Link) (m : Pages) (d : ℕ) : Prop :=
  ∀ v, UPAGES ≤ v → v < 2 ^ 20 → pte m d v = kpte L v

theorem user_entry (hu : user perm = false) : user (4096 * q ||| perm ||| PTE_P) = false := by
  have h12 : (4096 * q).testBit 2 = false := by
    rw [show 4096 * q = 2 ^ 12 * q from rfl, Nat.testBit_two_pow_mul]
    simp
  have hp : perm.testBit 2 = false := by
    cases hb : perm.testBit 2 with
    | false => rfl
    | true => rw [user_iff.mpr hb] at hu; exact absurd hu (by simp)
  cases hb : user (4096 * q ||| perm ||| PTE_P) with
  | false => rfl
  | true =>
    rw [user_iff, Nat.testBit_or, Nat.testBit_or, h12, hp] at hb
    simp [PTE_P, Nat.testBit] at hb

theorem kpte_not_user (L : Link) (v : ℕ) : user (kpte L v) = false := by
  unfold kpte kpteAt
  split_ifs
  · exact user_entry (by decide)
  · exact user_entry (by decide)
  · exact user_entry (by decide)
  · rfl

theorem Moved.setKernelPte (h : Wf L s free d) (ht : tab s.mem d (v / 1024) = some t)
    (hv : UPAGES ≤ v) (hv20 : v < 2 ^ 20) (hw : w < 2 ^ 32) :
    Wf L { s with mem := s.mem.setWord t (v % 1024) w } free d ∧
      Moved {v} d s free { s with mem := s.mem.setWord t (v % 1024) w } free := by
  obtain ⟨htree, hown⟩ := h.tree.setKernelPte ht hv hv20 hw
  have hinner : Inner s.mem d t := Or.inr ⟨v / 1024, by omega, ht⟩
  refine ⟨⟨h.pool.congr rfl fun p hp => Pages.setWord_of_ne _ ?_, htree, fun p hp ho => ?_⟩,
    ⟨fun u hu huv => ?_, fun p _ hin _ => Pages.setWord_of_ne _ ?_, fun p => ?_,
      fun i _ x hx => (tab_setPte h.tree.dir ht hv20).trans hx, fun u hu _ => Or.inr ?_⟩⟩
  · rintro rfl
    exact h.apart p hp hinner.own
  · exact h.apart p hp ((hown p).mp ho)
  · exact (pte_setPte h.tree.dir ht hv20 hw hu).trans (if_neg (by simpa using huv))
  · rintro rfl
    exact hin hinner
  · exact or_congr_right (hown p)
  · exact (pte_setPte h.tree.dir ht hv20 hw (hu.trans UPAGES_lt)).trans (if_neg (by omega))

section Mappages

theorem mappagesFrom_kernel_round (last fuel : ℕ) (h : Wf L s free d) (hv : UPAGES ≤ v)
    (hv20 : v < 2 ^ 20) (hq : q < 2 ^ 20) (hperm : perm < 4096)
    (habs : present (pte s.mem d v) = false) (hroom : tab s.mem d (v / 1024) = none → free ≠ []) :
    ∃ s₂, Wf L s₂ (free.drop (tablesTaken s.mem d v)) d ∧
      Moved {v} d s free s₂ (free.drop (tablesTaken s.mem d v)) ∧
      pte s₂.mem d v = (4096 * q ||| perm ||| PTE_P) ∧ tab s₂.mem d (v / 1024) ≠ none ∧
      (∀ j, j ≠ v / 1024 → tab s₂.mem d j = tab s.mem d j) ∧
      mappagesFrom (kva d) last perm (fuel + 1) (4096 * v) (4096 * q) s =
        if 4096 * v = last then .ret (0, s₂)
        else mappagesFrom (kva d) last perm fuel (add32 (4096 * v) PGSIZE)
          (add32 (4096 * q) PGSIZE) s₂ := by
  obtain ⟨t, s₁, hw₁, hm₁, htab, -, hother, hrun⟩ := mappagesFrom_round h hv20 hroom habs
    (l := last) (r := perm) (n := fuel) (b := 4096 * q)
  have hw : (4096 * q ||| perm ||| PTE_P) < 2 ^ 32 := by
    have := entry_lt hperm
    rw [entry_eq hperm]
    omega
  have htab₂ := fun i => tab_setPte (i := i) (w := (4096 * q ||| perm ||| PTE_P)) hw₁.tree.dir
    htab hv20
  obtain ⟨hw₂, hm₂⟩ := Moved.setKernelPte hw₁ htab hv hv20 hw
  refine ⟨_, hw₂, (hm₁.mono (Set.empty_subset _)).trans hw₁.tree.toBare hw₁.apart hm₂,
    (pte_setPte hw₁.tree.dir htab hv20 hw hv20).trans (if_pos rfl), ?_,
    fun j hj => (htab₂ j).trans (hother j hj), hrun⟩
  rw [htab₂, htab]
  exact nofun

inductive KmapOutcome (L : Link) (d v n q perm : ℕ) (s : Kmem) (free : List ℕ) :
    Outcome (ℤ × Kmem) → Prop
  | mapped {s' : Kmem} (hw : Wf L s' (free.drop (missing s.mem d v (v + n))) d)
      (hm : Moved (Set.Ico v (v + n)) d s free s' (free.drop (missing s.mem d v (v + n))))
      (hpte : ∀ i < n, pte s'.mem d (v + i) = (4096 * (q + i) ||| perm ||| PTE_P))
      (htab : ∀ i, i < v / 1024 ∨ (v + n + 1023) / 1024 ≤ i → tab s'.mem d i = tab s.mem d i)
      (hlen : missing s.mem d v (v + n) ≤ free.length) :
      KmapOutcome L d v n q perm s free (.ret (0, s'))
  | failed {s' : Kmem} {free' : List ℕ} (hw : Wf L s' free' d)
      (hm : Moved (Set.Ico v (v + n)) d s free s' free')
      (hlen : free.length < missing s.mem d v (v + n)) :
      KmapOutcome L d v n q perm s free (.ret (-1, s'))

theorem missing_pos {m : Pages} {a b : ℕ} (h : a < b) (ht : tab m d (a / 1024) = none) :
    0 < missing m d a b := by
  refine Finset.card_pos.mpr ⟨a / 1024, ?_⟩
  simp only [Finset.mem_filter, Finset.mem_Ico]
  exact ⟨by omega, ht⟩

theorem missing_end {m : Pages} (ht : tab m d (v / 1024) ≠ none) :
    missing m d (v + 1) (v + 1) = 0 := by
  rw [missing, Finset.card_eq_zero, Finset.filter_eq_empty_iff]
  intro i hi hn
  have := Finset.mem_Ico.mp hi
  exact ht (by rwa [show v / 1024 = i by omega])

theorem tablesTaken_le (hroom : tab s.mem d (v / 1024) = none → free ≠ []) :
    tablesTaken s.mem d v ≤ free.length := by
  unfold tablesTaken
  split_ifs with ht
  · exact List.length_pos_iff.2 (hroom ht)
  · exact Nat.zero_le _

theorem mappagesFrom_kernel {fuel : ℕ} (h : Wf L s free d) (hv : UPAGES ≤ v)
    (hvn : v + n < 2 ^ 20) (hqn : q + n < 2 ^ 20) (hperm : perm < 4096) (hfuel : n < fuel)
    (habs : ∀ u ∈ Set.Ico v (v + (n + 1)), present (pte s.mem d u) = false) :
    KmapOutcome L d v (n + 1) q perm s free
      (mappagesFrom (kva d) (4096 * (v + n)) perm fuel (4096 * v) (4096 * q) s) := by
  induction n generalizing v q s free fuel with
  | zero =>
    obtain ⟨fuel, rfl⟩ : ∃ k, fuel = k + 1 := ⟨fuel - 1, by omega⟩
    by_cases hroom : tab s.mem d (v / 1024) = none → free ≠ []
    · obtain ⟨s₂, hw₂, hm₂, hpte₂, hthere, hother, hrun⟩ := mappagesFrom_kernel_round
        (4096 * (v + 0)) fuel h hv (by omega) (show q < 2 ^ 20 by omega) hperm
        (habs v ⟨le_rfl, by omega⟩) hroom
      have hmiss : missing s.mem d v (v + (0 + 1)) = tablesTaken s.mem d v := by
        have := missing_step (show v < v + 1 by omega) hother hthere
        rwa [missing_end hthere] at this
      rw [hrun, if_pos (show 4096 * v = 4096 * (v + 0) from rfl)]
      refine .mapped (hmiss ▸ hw₂) (hmiss ▸ hm₂.mono ?_) (fun i hi => ?_)
        (fun i hi => hother i (by omega)) (hmiss ▸ tablesTaken_le hroom)
      · exact Set.singleton_subset_iff.mpr ⟨le_rfl, by omega⟩
      · obtain rfl : i = 0 := by omega
        exact hpte₂
    · push Not at hroom
      rw [mappagesFrom_full h.based (by omega) hroom.2 hroom.1]
      refine .failed h (.refl _ _ _ _) ?_
      rw [hroom.2]
      exact missing_pos (by omega) hroom.1
  | succ n ih =>
    obtain ⟨fuel, rfl⟩ : ∃ k, fuel = k + 1 := ⟨fuel - 1, by omega⟩
    by_cases hroom : tab s.mem d (v / 1024) = none → free ≠ []
    · obtain ⟨s₂, hw₂, hm₂, hpte₂, hthere, hother, hrun⟩ := mappagesFrom_kernel_round
        (4096 * (v + (n + 1))) fuel h hv (by omega) (show q < 2 ^ 20 by omega) hperm
        (habs v ⟨le_rfl, by omega⟩) hroom
      have hmiss : missing s.mem d v (v + (n + 1 + 1)) =
          tablesTaken s.mem d v + missing s₂.mem d (v + 1) (v + 1 + (n + 1)) := by
        rw [show v + (n + 1 + 1) = v + 1 + (n + 1) by omega]
        exact missing_step (by omega) hother hthere
      have htaken := tablesTaken_le hroom
      have hself : ({v} : Set ℕ) ⊆ Set.Ico v (v + (n + 1 + 1)) :=
        Set.singleton_subset_iff.mpr ⟨le_rfl, by omega⟩
      have hsub : Set.Ico (v + 1) (v + 1 + (n + 1)) ⊆ Set.Ico v (v + (n + 1 + 1)) :=
        fun u hu => ⟨by have := hu.1; omega, by have := hu.2; omega⟩
      have hnext : ∀ u ∈ Set.Ico (v + 1) (v + 1 + (n + 1)), present (pte s₂.mem d u) = false := by
        intro u hu
        have h1 := hu.1
        have h2 := hu.2
        rw [hm₂.outside u (by omega) (by simp only [Set.mem_singleton_iff]; omega)]
        exact habs u ⟨by omega, by omega⟩
      have hrest := ih hw₂ (v := v + 1) (q := q + 1) (by omega) (by omega) (by omega)
        (show n < fuel by omega) hnext
      rw [hrun, if_neg (by omega),
        show add32 (4096 * v) PGSIZE = 4096 * (v + 1) by simp only [add32, PGSIZE]; omega,
        show add32 (4096 * q) PGSIZE = 4096 * (q + 1) by simp only [add32, PGSIZE]; omega,
        show 4096 * (v + (n + 1)) = 4096 * (v + 1 + n) by omega]
      generalize mappagesFrom (kva d) (4096 * (v + 1 + n)) perm fuel (4096 * (v + 1))
        (4096 * (q + 1)) s₂ = o at hrest
      cases hrest with
      | @mapped s' hw' hm' hpte' htab' hlen' =>
        rw [List.drop_drop, ← hmiss] at hw' hm'
        rw [List.length_drop] at hlen'
        refine .mapped hw' ((hm₂.mono hself).trans hw₂.tree.toBare hw₂.apart (hm'.mono hsub))
          (fun i hi => ?_) (fun i hi => ?_) (by omega)
        · cases i with
          | zero =>
            rw [hm'.outside _ (by omega) (fun hin => by have := hin.1; omega)]
            exact hpte₂
          | succ i =>
            have := hpte' i (by omega)
            rw [show v + (i + 1) = v + 1 + i by omega, show q + (i + 1) = q + 1 + i by omega]
            exact this
        · exact (htab' i (by omega)).trans (hother i (by omega))
      | @failed s' free' hw' hm' hlen' =>
        rw [List.length_drop] at hlen'
        exact .failed hw' ((hm₂.mono hself).trans hw₂.tree.toBare hw₂.apart (hm'.mono hsub))
          (by omega)
    · push Not at hroom
      rw [mappagesFrom_full h.based (by omega) hroom.2 hroom.1]
      refine .failed h (.refl _ _ _ _) ?_
      rw [hroom.2]
      exact missing_pos (by omega) hroom.1

theorem mappages_kernel (h : Wf L s free d) (hn : 0 < n) (hv : UPAGES ≤ v) (hvn : v + n ≤ 2 ^ 20)
    (hqn : q + n ≤ 2 ^ 20) (hperm : perm < 4096)
    (habs : ∀ u ∈ Set.Ico v (v + n), present (pte s.mem d u) = false) :
    KmapOutcome L d v n q perm s free
      (mappages (kva d) (4096 * v) (4096 * n) (4096 * q) perm s) := by
  obtain ⟨n, rfl⟩ : ∃ k, n = k + 1 := ⟨n - 1, by omega⟩
  have hU : UPAGES = 2 ^ 19 := rfl
  have hlast : PGROUNDDOWN (sub32 (add32 (4096 * v) (4096 * (n + 1))) 1) = 4096 * (v + n) := by
    simp only [PGROUNDDOWN, sub32, add32, PGSIZE]
    omega
  have hfirst : PGROUNDDOWN (4096 * v) = 4096 * v := by
    simp only [PGROUNDDOWN, PGSIZE]
    omega
  rw [mappages, hlast, hfirst]
  exact mappagesFrom_kernel h hv (by omega) (by omega) hperm (by simp only [allPages]; omega) habs

end Mappages

theorem fresh_wf (h : Pool L s (d :: free)) : Wf L (taken s d .zero) free d ∧
    (∀ i, tab (taken s d .zero).mem d i = none) ∧ (∀ u, pte (taken s d .zero).mem d u = 0) ∧
    ∀ p, Own (taken s d .zero).mem d p ↔ p = d := by
  have htab : ∀ i, tab (taken s d .zero).mem d i = none := by
    intro i
    have : (taken s d .zero).mem.word d i = 0 := Pages.word_fill_zero _
    simp [tab, this]
  have hpte : ∀ u, pte (taken s d .zero).mem d u = 0 := fun u => pte_of_tab_none (htab _)
  have hown : ∀ p, Own (taken s d .zero).mem d p ↔ p = d := by
    intro p
    simp [own_iff, htab, frm, hpte]
  have hholds : ∀ u p, holds (taken s d .zero).mem d u p → u = .dir := by
    intro u p hu
    cases u with
    | dir => rfl
    | table i => have := hu.2; simp [htab] at this
    | frame v => have := hu.2; simp [frm, hpte] at this
  refine ⟨⟨h.taken, ⟨⟨fun r r' p hr hr' => ?_, fun p hp => ?_⟩, fun v _ hp => ?_⟩,
    fun p hp ho => ?_⟩, htab, hpte, hown⟩
  · rw [hholds r p hr, hholds r' p hr']
  · rw [(hown p).mp hp]
    exact h.page d (by simp)
  · simp [hpte] at hp
  · rw [(hown p).mp ho] at hp
    exact (List.nodup_cons.mp h.nodup).1 hp

namespace Kmap

def first (k : Kmap) : ℕ := k.virt / 4096
def count (k : Kmap) : ℕ := sub32 k.phys_end k.phys_start / 4096
def frame (k : Kmap) : ℕ := k.phys_start / 4096

def Has (k : Kmap) (u : ℕ) : Prop := k.first ≤ u ∧ u < k.first + k.count

def Table (k : Kmap) (i : ℕ) : Prop := k.first / 1024 ≤ i ∧ i < (k.first + k.count + 1023) / 1024

instance (k : Kmap) (i : ℕ) : Decidable (k.Table i) := inferInstanceAs (Decidable (_ ∧ _))

def entry (k : Kmap) (u : ℕ) : ℕ := 4096 * (k.frame + (u - k.first)) ||| k.perm ||| PTE_P

structure Whole (k : Kmap) : Prop where
  virt : k.virt = 4096 * k.first
  size : sub32 k.phys_end k.phys_start = 4096 * k.count
  phys : k.phys_start = 4096 * k.frame
  pos : 0 < k.count
  high : UPAGES ≤ k.first
  fits : k.first + k.count ≤ 2 ^ 20
  frames : k.frame + k.count ≤ 2 ^ 20
  perm : k.perm < 4096

theorem Whole.lt {k : Kmap} (h : k.Whole) {u : ℕ} (hu : k.Has u) : u < 2 ^ 20 :=
  Nat.lt_of_lt_of_le hu.2 h.fits

end Kmap

section MapKernel

variable {k : Kmap} {ks : List Kmap}

def absent (m : Pages) (d : ℕ) (ks : List Kmap) : Finset ℕ :=
  (Finset.range 1024).filter fun i => tab m d i = none ∧ ∃ k ∈ ks, k.Table i

variable (ks) in
theorem absent_cons {m m' : Pages} (hk : k.Whole)
    (hthere : ∀ i, k.Table i → tab m' d i ≠ none)
    (hother : ∀ i, ¬k.Table i → tab m' d i = tab m d i) :
    (absent m d (k :: ks)).card =
      missing m d k.first (k.first + k.count) + (absent m' d ks).card := by
  have hfits := hk.fits
  have hunion : absent m d (k :: ks) =
      ((Finset.Ico (k.first / 1024) ((k.first + k.count + 1023) / 1024)).filter
        fun i => tab m d i = none) ∪ absent m' d ks := by
    ext i
    simp only [absent, Finset.mem_filter, Finset.mem_union, Finset.mem_range, Finset.mem_Ico,
      List.mem_cons, exists_eq_or_imp]
    by_cases hi : k.Table i
    · have hlt : i < 1024 := by
        have := hi.2
        omega
      exact ⟨fun h => .inl ⟨hi, h.2.1⟩, fun h => h.elim (fun h => ⟨hlt, h.2, .inl hi⟩)
        fun h => absurd h.2.1 (hthere i hi)⟩
    · rw [hother i hi]
      exact ⟨fun h => .inr ⟨h.1, h.2.1, h.2.2.resolve_left hi⟩,
        fun h => h.elim (fun h => absurd h.1 hi) fun h => ⟨h.1, h.2.1, .inr h.2.2⟩⟩
  rw [hunion, Finset.card_union_of_disjoint, missing]
  refine Finset.disjoint_left.2 fun i hi hi' => ?_
  simp only [absent, Finset.mem_filter, Finset.mem_Ico] at hi hi'
  exact hthere i hi.1 hi'.2.1

inductive KernelOutcome (L : Link) (d : ℕ) (s : Kmem) (free : List ℕ) (ks : List Kmap) :
    Outcome (ℕ × Kmem) → Prop
  | mapped {s' : Kmem} (hw : Wf L s' (free.drop (absent s.mem d ks).card) d)
      (hm : Moved (Set.Ici UPAGES) d s free s' (free.drop (absent s.mem d ks).card))
      (hpte : ∀ k ∈ ks, ∀ u, k.Has u → pte s'.mem d u = k.entry u)
      (hout : ∀ u < 2 ^ 20, (∀ k ∈ ks, ¬k.Has u) → pte s'.mem d u = pte s.mem d u)
      (htab : ∀ i, (∀ k ∈ ks, ¬k.Table i) → tab s'.mem d i = tab s.mem d i)
      (hlen : (absent s.mem d ks).card ≤ free.length) :
      KernelOutcome L d s free ks (.ret (kva d, s'))
  | failed {s' : Kmem} {free' : List ℕ} (hp : Pool L s' free')
      (hc : ∀ p, p ∈ free' ↔ p ∈ free ∨ Own s.mem d p)
      (hm : ∀ p, p ∉ free → ¬Own s.mem d p → s'.mem p = s.mem p)
      (hlen : free.length < (absent s.mem d ks).card) :
      KernelOutcome L d s free ks (.ret (0, s'))

theorem Kmap.Whole.table (h : k.Whole) {m : Pages}
    (hpte : ∀ i < k.count, pte m d (k.first + i) = (4096 * (k.frame + i) ||| k.perm ||| PTE_P))
    {i : ℕ} (hi : k.Table i) : tab m d i ≠ none := by
  have hpos := h.pos
  obtain ⟨h1, h2⟩ := hi
  obtain ⟨j, hj, hdiv⟩ : ∃ j < k.count, (k.first + j) / 1024 = i :=
    ⟨1024 * i - k.first, by omega, by omega⟩
  obtain ⟨t, ht⟩ := exists_tab (m := m) (d := d) (v := k.first + j)
    (by rw [hpte j hj]; exact entry_present)
  rw [← hdiv, ht]
  exact nofun

theorem mapKernel_spec (hks : ∀ k ∈ ks, k.Whole)
    (hdis : ks.Pairwise fun k k' => ∀ u, k.Has u → ¬k'.Has u) (h : Wf L s free d)
    (habs : ∀ k ∈ ks, ∀ u, k.Has u → present (pte s.mem d u) = false) :
    KernelOutcome L d s free ks (mapKernel L (kva d) ks s) := by
  induction ks generalizing s free with
  | nil =>
    have hcard : (absent s.mem d []).card = 0 := by simp [absent]
    refine .mapped (hcard ▸ h) (hcard ▸ .refl _ _ _ _) nofun (fun _ _ _ => rfl) (fun _ _ => rfl) ?_
    rw [hcard]
    exact Nat.zero_le _
  | cons k ks ih =>
    obtain ⟨hk, hks⟩ := List.forall_mem_cons.1 hks
    obtain ⟨hdk, hdis⟩ := List.pairwise_cons.1 hdis
    obtain ⟨habk, habs⟩ := List.forall_mem_cons.1 habs
    have hout := mappages_kernel h hk.pos hk.high hk.fits hk.frames hk.perm habk
    have hsub : Set.Ico k.first (k.first + k.count) ⊆ Set.Ici UPAGES := fun u hu =>
      hk.high.trans hu.1
    rw [← hk.virt, ← hk.size, ← hk.phys] at hout
    generalize ho : mappages (kva d) k.virt (sub32 k.phys_end k.phys_start) k.phys_start k.perm s =
      o at hout
    cases hout with
    | @mapped s₁ hw₁ hm₁ hpte₁ htab₁ hlen₁ =>
      have hother : ∀ i, ¬k.Table i → tab s₁.mem d i = tab s.mem d i := fun i hi =>
        htab₁ i (by unfold Kmap.Table at hi; omega)
      have hcard := absent_cons ks hk (fun i hi => hk.table hpte₁ hi) hother
      have hkeep : ∀ u < 2 ^ 20, ¬k.Has u → pte s₁.mem d u = pte s.mem d u := hm₁.outside
      have hrest := ih hks hdis hw₁ fun k' hk' u hu => by
        rw [hkeep u ((hks k' hk').lt hu) fun hin => hdk k' hk' u hin hu]
        exact habs k' hk' u hu
      have hrun : mapKernel L (kva d) (k :: ks) s = mapKernel L (kva d) ks s₁ := by
        simp [mapKernel, ho]
      rw [hrun]
      generalize mapKernel L (kva d) ks s₁ = o at hrest
      cases hrest with
      | @mapped s' hw hm hpte hout htab hlen =>
        rw [List.drop_drop, ← hcard] at hw hm
        rw [List.length_drop] at hlen
        refine .mapped hw ((hm₁.mono hsub).trans hw₁.tree.toBare hw₁.apart hm)
          (List.forall_mem_cons.2 ⟨fun u hu => ?_, hpte⟩) (fun u hu hno => ?_) (fun i hi => ?_)
          (by omega)
        · rw [hout u (hk.lt hu) fun k' hk' => hdk k' hk' u hu]
          have hu' := hpte₁ (u - k.first) (by have := hu.1; have := hu.2; omega)
          rwa [show k.first + (u - k.first) = u by have := hu.1; omega] at hu'
        · obtain ⟨hnk, hno⟩ := List.forall_mem_cons.1 hno
          rw [hout u hu hno, hkeep u hu hnk]
        · obtain ⟨hnk, hi⟩ := List.forall_mem_cons.1 hi
          rw [htab i hi, hother i hnk]
      | @failed s' free' hp hc hm hlen =>
        rw [List.length_drop] at hlen
        refine .failed hp (fun p => (hc p).trans (hm₁.conserve p)) (fun p hpf hpo => ?_) (by omega)
        have hn : ¬(p ∈ free.drop _ ∨ Own s₁.mem d p) := fun hor =>
          ((hm₁.conserve p).1 hor).elim hpf hpo
        rw [hm p (fun hin => hn (.inl hin)) fun hin => hn (.inr hin)]
        exact hm₁.other hpf hpo
    | @failed s₁ free₁ hw₁ hm₁ hlen₁ =>
      obtain ⟨s', free', hrun, hp, hc, hf⟩ := freevm_spec hw₁
      have hret : mapKernel L (kva d) (k :: ks) s = .ret (0, s') := by simp [mapKernel, ho, hrun]
      rw [hret]
      refine .failed hp (fun p => (hc p).trans (hm₁.conserve p)) (fun p hpf hpo => ?_) ?_
      · have hn : ¬(p ∈ free₁ ∨ Own s₁.mem d p) := fun hor =>
          ((hm₁.conserve p).1 hor).elim hpf hpo
        rw [hf p (fun hin => hn (.inl hin)) fun hin => hn (.inr hin)]
        exact hm₁.other hpf hpo
      · refine hlen₁.trans_le (Finset.card_le_card fun i hi => ?_)
        have hfits := hk.fits
        simp only [absent, Finset.mem_filter, Finset.mem_Ico, Finset.mem_range] at hi ⊢
        exact ⟨by omega, hi.2, k, List.mem_cons_self, hi.1⟩

end MapKernel

section Setup

variable {data : ℕ}

structure DataAt (data : ℕ) : Prop where
  aligned : data % PGSIZE = 0
  text : KERNLINK < data
  top : data < P2V PHYSTOP

theorem Link.dataAt (L : Link) : DataAt L.data where
  aligned := L.data_aligned
  text := L.text
  top := by
    have h1 := L.data_lt
    have h2 := L.room
    simp only [P2V, add32, PHYSTOP, KERNBASE] at *
    omega

theorem DataAt.page (h : DataAt data) :
    data = 4096 * (data / 4096) ∧ 524544 < data / 4096 ∧ data / 4096 < 581632 := by
  have h1 := h.aligned
  have h2 := h.text
  have h3 := h.top
  simp only [P2V, add32, PHYSTOP, KERNLINK, KERNBASE, EXTMEM, PGSIZE] at *
  omega

theorem DataAt.numbers (h : DataAt data) :
    (kmapAt data).map (fun k => (k.first, k.count, k.frame, k.perm)) =
      [(524288, 256, 0, PTE_W), (524544, data / 4096 - 524544, 256, 0),
        (data / 4096, 581632 - data / 4096, data / 4096 - 524288, PTE_W),
        (1040384, 8192, 1040384, PTE_W)] := by
  obtain ⟨hdata, hlo, hhi⟩ := h.page
  simp only [kmapAt, List.map_cons, List.map_nil, Kmap.first, Kmap.count, Kmap.frame, V2P, sub32,
    KERNLINK, KERNBASE, EXTMEM, PHYSTOP, DEVSPACE, List.cons.injEq, Prod.mk.injEq, and_true,
    true_and]
  omega

theorem DataAt.cases (h : DataAt data) {k : Kmap} (hk : k ∈ kmapAt data) :
    k.first = 524288 ∧ k.count = 256 ∧ k.frame = 0 ∧ k.perm = PTE_W ∨
      k.first = 524544 ∧ k.count = data / 4096 - 524544 ∧ k.frame = 256 ∧ k.perm = 0 ∨
      k.first = data / 4096 ∧ k.count = 581632 - data / 4096 ∧ k.frame = data / 4096 - 524288 ∧
        k.perm = PTE_W ∨
      k.first = 1040384 ∧ k.count = 8192 ∧ k.frame = 1040384 ∧ k.perm = PTE_W := by
  have hmem : (k.first, k.count, k.frame, k.perm) ∈ _ := h.numbers ▸ List.mem_map_of_mem hk
  simpa only [List.mem_cons, List.not_mem_nil, or_false, Prod.mk.injEq] using hmem

theorem DataAt.whole (h : DataAt data) : ∀ k ∈ kmapAt data, k.Whole := by
  intro k hk
  obtain ⟨hdata, hlo, hhi⟩ := h.page
  have hU : UPAGES = 524288 := rfl
  have hW : PTE_W = 2 := rfl
  have hbounds := h.cases hk
  have haligned : k.virt % 4096 = 0 ∧ sub32 k.phys_end k.phys_start % 4096 = 0 ∧
      k.phys_start % 4096 = 0 := by
    simp only [kmapAt, List.mem_cons, List.not_mem_nil, or_false] at hk
    rcases hk with rfl | rfl | rfl | rfl <;>
      simp only [V2P, sub32, KERNLINK, KERNBASE, EXTMEM, PHYSTOP, DEVSPACE, true_and, and_true] <;>
      omega
  refine ⟨?_, ?_, ?_, by omega, by omega, by omega, by omega, by omega⟩
  · rw [Kmap.first]
    omega
  · rw [Kmap.count]
    omega
  · rw [Kmap.frame]
    omega

theorem DataAt.disjoint (h : DataAt data) :
    (kmapAt data).Pairwise fun k k' => ∀ u, k.Has u → ¬k'.Has u := by
  obtain ⟨hdata, hlo, hhi⟩ := h.page
  have hsorted : (kmapAt data).Pairwise fun k k' => k.first + k.count ≤ k'.first := by
    have hmap := (List.pairwise_map (l := kmapAt data)
      (f := fun k => (k.first, k.count, k.frame, k.perm))
      (R := fun x y => x.1 + x.2.1 ≤ y.1)).1
    refine hmap ?_
    rw [h.numbers]
    simp only [List.pairwise_cons, List.mem_cons, List.not_mem_nil, or_false, forall_eq_or_imp,
      forall_eq, List.Pairwise.nil, and_true, false_imp_iff, implies_true]
    omega
  exact hsorted.imp fun hle u hu hu' => by
    have h1 := hu.2
    have h2 := hu'.1
    omega

theorem DataAt.entry_eq (h : DataAt data) {k : Kmap} (hk : k ∈ kmapAt data) {u : ℕ}
    (hu : k.Has u) : k.entry u = kpteAt data u := by
  obtain ⟨hdata, hlo, hhi⟩ := h.page
  obtain ⟨h1, h2⟩ := hu
  rw [Kmap.entry, kpteAt, show UPAGES = 524288 from rfl, show PHYSTOP / PGSIZE = 57344 from rfl,
    show KERNLINK / PGSIZE = 524544 from rfl, show DEVSPACE / PGSIZE = 1040384 from rfl,
    show data / PGSIZE = data / 4096 from rfl]
  rcases h.cases hk with ⟨hf, hc, hq, hp⟩ | ⟨hf, hc, hq, hp⟩ | ⟨hf, hc, hq, hp⟩ | ⟨hf, hc, hq, hp⟩
  · rw [hf, hq, hp, if_pos (by omega), if_neg (by omega), Nat.zero_add]
  · rw [hf, hq, hp, if_pos (by omega), if_pos (by omega),
      show 256 + (u - 524544) = u - 524288 by omega]
  · rw [hf, hq, hp, if_pos (by omega), if_neg (by omega),
      show data / 4096 - 524288 + (u - data / 4096) = u - 524288 by omega]
  · rw [hf, hq, hp, if_neg (by omega), if_pos (by omega),
      show 1040384 + (u - 1040384) = u by omega]

theorem DataAt.kpteAt_eq_zero (h : DataAt data) {u : ℕ} (hu : UPAGES ≤ u) (hlt : u < 2 ^ 20)
    (hno : ∀ k ∈ kmapAt data, ¬k.Has u) : kpteAt data u = 0 := by
  obtain ⟨hdata, hlo, hhi⟩ := h.page
  have hU : UPAGES = 524288 := rfl
  have hmap : ∀ x ∈ (kmapAt data).map (fun k => (k.first, k.count, k.frame, k.perm)),
      ¬(x.1 ≤ u ∧ u < x.1 + x.2.1) := List.forall_mem_map.2 hno
  rw [h.numbers] at hmap
  simp only [List.forall_mem_cons] at hmap
  obtain ⟨h1, h2, h3, h4, -⟩ := hmap
  rw [kpteAt, show UPAGES = 524288 from rfl, show PHYSTOP / PGSIZE = 57344 from rfl,
    show DEVSPACE / PGSIZE = 1040384 from rfl, if_neg (by omega), if_neg (by omega)]

theorem DataAt.table (h : DataAt data) {k : Kmap} (hk : k ∈ kmapAt data) {i : ℕ}
    (hi : k.Table i) : 512 ≤ i ∧ i < 568 ∨ 1016 ≤ i ∧ i < 1024 := by
  obtain ⟨hdata, hlo, hhi⟩ := h.page
  obtain ⟨h1, h2⟩ := hi
  rcases h.cases hk with ⟨hf, hc, -⟩ | ⟨hf, hc, -⟩ | ⟨hf, hc, -⟩ | ⟨hf, hc, -⟩ <;> omega

theorem DataAt.card_absent (h : DataAt data) (m : Pages) : (absent m d (kmapAt data)).card ≤ 64 := by
  have hsub : absent m d (kmapAt data) ⊆ Finset.Ico 512 568 ∪ Finset.Ico 1016 1024 := by
    intro i hi
    simp only [absent, Finset.mem_filter] at hi
    obtain ⟨-, -, k, hk, hki⟩ := hi
    simpa only [Finset.mem_union, Finset.mem_Ico] using h.table hk hki
  refine (Finset.card_le_card hsub).trans ((Finset.card_union_le _ _).trans ?_)
  rw [Nat.card_Ico, Nat.card_Ico]

/-- The outcome with the kernel's data anywhere: a directory with the mappings of `kmap`, from
65 pages, or nothing taken. -/
inductive BuildOutcome (L : Link) (data : ℕ) (s : Kmem) (free : List ℕ) :
    Outcome (ℕ × Kmem) → Prop
  | built {d c : ℕ} {s' : Kmem} (hc : c ≤ 65) (hlen : c ≤ free.length)
      (hw : Wf L s' (free.drop c) d)
      (hpte : ∀ k ∈ kmapAt data, ∀ u, k.Has u → pte s'.mem d u = k.entry u)
      (hout : ∀ u < 2 ^ 20, (∀ k ∈ kmapAt data, ¬k.Has u) → pte s'.mem d u = 0)
      (htab : ∀ i, (∀ k ∈ kmapAt data, ¬k.Table i) → tab s'.mem d i = none)
      (hown : ∀ p, (p ∈ free.drop c ∨ Own s'.mem d p) ↔ p ∈ free)
      (hm : ∀ p, p ∉ free → s'.mem p = s.mem p) :
      BuildOutcome L data s free (.ret (kva d, s'))
  | failed {s' : Kmem} {free' : List ℕ} (hp : Pool L s' free') (hc : ∀ p, p ∈ free' ↔ p ∈ free)
      (hm : ∀ p, p ∉ free → s'.mem p = s.mem p) (hlen : free.length < 65) :
      BuildOutcome L data s free (.ret (0, s'))

theorem setupkvmAt_spec (hdata : DataAt data) (h : Pool L s free) :
    BuildOutcome L data s free (setupkvmAt L data s) := by
  cases free with
  | nil =>
    have hrun : setupkvmAt L data s = .ret (0, s) := by simp [setupkvmAt, h.kalloc_nil]
    rw [hrun]
    exact .failed h (fun _ => Iff.rfl) (fun _ _ => rfl) (by simp)
  | cons d free =>
    obtain ⟨hk, hz⟩ := taken_run h
    obtain ⟨hw₀, htab₀, hpte₀, hown₀⟩ := fresh_wf h
    have hrun : setupkvmAt L data s = mapKernel L (kva d) (kmapAt data) (taken s d .zero) := by
      have hdev : ¬DEVSPACE < P2V PHYSTOP := by decide
      simp [setupkvmAt, hk, kva_ne_zero, hz, hdev]
    have hcard := hdata.card_absent (d := d) (taken s d .zero).mem
    have hmap := mapKernel_spec hdata.whole hdata.disjoint hw₀ fun k _ u _ => by
      rw [hpte₀]
      rfl
    have hout : ∀ p, p ∉ d :: free → ¬(p ∈ free ∨ Own (taken s d .zero).mem d p) := fun p hp => by
      rw [hown₀, or_comm, ← List.mem_cons]
      exact hp
    rw [hrun]
    generalize mapKernel L (kva d) (kmapAt data) (taken s d .zero) = o at hmap
    cases hmap with
    | @mapped s' hw hm hpte hkeep htab hlen =>
      generalize (absent (taken s d .zero).mem d (kmapAt data)).card = c at hw hm hlen hcard
      refine .built (c := c + 1) (by omega) (Nat.succ_le_succ hlen) hw hpte
        (fun u hu hno => (hkeep u hu hno).trans (hpte₀ u))
        (fun i hi => (htab i hi).trans (htab₀ i)) (fun p => ?_) fun p hp => ?_
      · rw [List.drop_succ_cons, hm.conserve p, hown₀ p, List.mem_cons, or_comm]
      · have hn := hout p hp
        rw [hm.other (fun hin => hn (.inl hin)) fun ho => hn (.inr ho)]
        exact taken_mem fun heq => hp (heq ▸ List.mem_cons_self)
    | @failed s' free' hp hc hm hlen =>
      refine .failed hp (fun p => ?_) (fun p hp => ?_)
        (by simp only [List.length_cons]; omega)
      · rw [hc p, hown₀ p, List.mem_cons, or_comm]
      · have hn := hout p hp
        rw [hm p (fun hin => hn (.inl hin)) fun ho => hn (.inr ho)]
        exact taken_mem fun heq => hp (heq ▸ List.mem_cons_self)

inductive SetupOutcome (L : Link) (s : Kmem) (free : List ℕ) : Outcome (ℕ × Kmem) → Prop
  | built {d : ℕ} {s' : Kmem} {free' : List ℕ} (hw : Wf L s' free' d) (hk : Kern L s'.mem d)
      (hu : ∀ v < UPAGES, present (pte s'.mem d v) = false)
      (hc : ∀ p, (p ∈ free' ∨ Own s'.mem d p) ↔ p ∈ free)
      (hm : ∀ p, p ∉ free → s'.mem p = s.mem p) (hlen : free.length ≤ free'.length + 67) :
      SetupOutcome L s free (.ret (kva d, s'))
  | failed {s' : Kmem} {free' : List ℕ} (hp : Pool L s' free') (hc : ∀ p, p ∈ free' ↔ p ∈ free)
      (hm : ∀ p, p ∉ free → s'.mem p = s.mem p) (hlen : free.length < 67) :
      SetupOutcome L s free (.ret (0, s'))

theorem setupkvm_spec (h : Pool L s free) : SetupOutcome L s free (setupkvm L s) := by
  have hspec := setupkvmAt_spec L.dataAt h
  change BuildOutcome L L.data s free (setupkvm L s) at hspec
  generalize setupkvm L s = o at hspec
  cases hspec with
  | @built d c s' hc hlen hw hpte hout htab hown hm =>
    refine .built hw (fun v hv hlt => ?_) (fun v hv => ?_) hown hm ?_
    · by_cases hin : ∃ k ∈ kmapAt L.data, k.Has v
      · obtain ⟨k, hk, hkv⟩ := hin
        rw [hpte k hk v hkv]
        exact L.dataAt.entry_eq hk hkv
      · push Not at hin
        rw [hout v hlt hin]
        exact (L.dataAt.kpteAt_eq_zero hv hlt hin).symm
    · rw [hout v (hv.trans UPAGES_lt) fun k hk hkv =>
        Nat.not_lt.2 ((L.dataAt.whole k hk).high.trans hkv.1) hv]
      rfl
    · rw [List.length_drop]
      omega
  | failed hp hc hm hlen => exact .failed hp hc hm (by omega)

end Setup

end Xv6.Vm
