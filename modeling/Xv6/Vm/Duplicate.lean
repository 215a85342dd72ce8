import Xv6.Vm.Build
import Xv6.Vm.Copy

/-!
# The copy of an address space

A directory that maps the heap and the stack of its process, and nothing else, is copied page
for page. The two directories share no frame, so neither process sees what the other writes.
-/

namespace Xv6.Vm
open Lib

variable {L : Link} {s s' : Kmem} {free free' : List ℕ} {d g f n sz v : ℕ}

/-- The directory `d` is a copy of `g` in pages from `free`. -/
structure Duplicate (s : Kmem) (free : List ℕ) (g : ℕ) (s' : Kmem) (d : ℕ) : Prop where
  mapped : ∀ v < UPAGES, present (pte s'.mem d v) = present (pte s.mem g v)
  flags : ∀ v < UPAGES, present (pte s.mem g v) = true →
    PTE_FLAGS (pte s'.mem d v) = PTE_FLAGS (pte s.mem g v)
  contents : ∀ v < UPAGES, ∀ f, frm s.mem g v = some f →
    ∃ f', frm s'.mem d v = some f' ∧ s'.mem f' = s.mem f
  fresh : ∀ v < UPAGES, ∀ f, frm s'.mem d v = some f → f ∈ free ∧ ¬Own s.mem g f
  kernel : ∀ v, UPAGES ≤ v → v < 2 ^ 20 → pte s'.mem d v = pte s.mem g v
  source : ∀ v < 2 ^ 20, pte s'.mem g v = pte s.mem g v
  memory : ∀ p, p ∉ free → s'.mem p = s.mem p

/-- The memory `m'` comes from `m` by writes to the user pages of the directory `d`. -/
def Written (m : Pages) (d : ℕ) (m' : Pages) : Prop :=
  ∀ p, (∀ v < UPAGES, frm m d v ≠ some p) → m' p = m p

def Unseen (m : Pages) (d : ℕ) (m' : Pages) : Prop :=
  (∀ v < 2 ^ 20, pte m' d v = pte m d v) ∧ ∀ v < UPAGES, ∀ f, frm m d v = some f → m' f = m f

theorem Tree.card_le (h : Tree L s.mem g) {A : Finset ℕ} (hlt : ∀ v ∈ A, v < UPAGES)
    (hp : ∀ v ∈ A, present (pte s.mem g v) = true) : A.card ≤ 57344 := by
  have hframe : ∀ v ∈ A, frm s.mem g v = some (pte s.mem g v / 4096) :=
    fun v hv => frm_eq_some.2 ⟨hp v hv, rfl⟩
  rw [← Finset.card_range 57344]
  refine Finset.card_le_card_of_injOn (fun v => pte s.mem g v / 4096) (fun v hv => ?_) ?_
  · exact Finset.mem_coe.2 (Finset.mem_range.2
      (h.page _ (Tree.frm_own (hlt v hv) (hframe v hv))).lt)
  · intro u hu v hv he
    have hv' := hframe v hv
    rw [← show pte s.mem g u / 4096 = pte s.mem g v / 4096 from he] at hv'
    exact h.frm_inj (hlt u hu) (hlt v hv) (hframe u hu) hv'

theorem Tree.stack_lt (h : Tree L s.mem g) (hn : n ≤ UPAGES) (hm : Mapped s.mem g sz n) :
    n < UPAGES := by
  have hcard := h.card_le (A := Finset.Ico (UPAGES - n) UPAGES)
    (fun v hv => (Finset.mem_Ico.1 hv).2)
    fun v hv => (hm v (Finset.mem_Ico.1 hv).2).2 (.inr (Finset.mem_Ico.1 hv).1)
  rw [Nat.card_Ico] at hcard
  have hU : UPAGES = 524288 := by decide
  omega

theorem mem_stackPages (hn : n < UPAGES) : v ∈ stackPages n ↔ UPAGES - n ≤ v ∧ v < UPAGES := by
  have hU : UPAGES < 2 ^ 20 := UPAGES_lt
  have hmod : n % 2 ^ 20 = n := Nat.mod_eq_of_lt (by omega)
  change n % 2 ^ 20 < UPAGES ∧ UPAGES - n % 2 ^ 20 ≤ v ∧ v < UPAGES ↔ _
  rw [hmod]
  exact and_iff_right hn

theorem flags_present {w : ℕ} (hp : present w = true) : PTE_FLAGS w ||| PTE_P = PTE_FLAGS w := by
  apply Nat.eq_of_testBit_eq
  intro i
  rw [Nat.testBit_or]
  cases i with
  | zero =>
    have hw := present_iff.1 hp
    have hbit : (PTE_FLAGS w).testBit 0 = true := by
      simp only [PTE_FLAGS, PGSIZE, Nat.testBit_zero, decide_eq_true_eq] at hw ⊢
      omega
    rw [hbit, Bool.true_or]
  | succ i =>
    have hbit : PTE_P.testBit (i + 1) = false := by
      rw [PTE_P, Nat.testBit_succ]
      simp
    rw [hbit, Bool.or_false]

theorem flags_entry {w : ℕ} (hp : present w = true) :
    PTE_FLAGS (4096 * f ||| PTE_FLAGS w ||| PTE_P) = PTE_FLAGS w := by
  have hlt := flags_lt w
  rw [entry_eq hlt, flags_present hp]
  unfold PTE_FLAGS PGSIZE at *
  omega

/-- What the copy is worth: the writes through one directory do not show through the other. -/
theorem Duplicate.unseen (h : Duplicate s free g s' d) (hg' : ∀ p, Own s.mem g p → p ∉ free)
    (hd' : ∀ p, Own s'.mem d p → p ∈ free) {m' : Pages} :
    (Written s'.mem d m' → Unseen s.mem g m') ∧ (Written s'.mem g m' → Unseen s'.mem d m') := by
  have hmem : ∀ p, Own s.mem g p → s'.mem p = s.mem p := fun p hp => h.memory p (hg' p hp)
  constructor
  · intro hw
    have hkeep : ∀ p, Own s.mem g p → m' p = s.mem p := by
      intro p hp
      have hnot : ∀ v < UPAGES, frm s'.mem d v ≠ some p := fun v hv hf =>
        hg' p hp (h.fresh v hv p hf).1
      exact (hw p hnot).trans (hmem p hp)
    constructor
    · intro v hv
      refine pte_congr (hkeep g ⟨.dir, rfl⟩) fun t ht => ?_
      exact hkeep t (Tree.tab_own (by omega) ht)
    · intro v hv f hf
      exact hkeep f (Tree.frm_own hv hf)
  · intro hw
    have hkeep : ∀ p, Own s'.mem d p → m' p = s'.mem p := by
      intro p hp
      have hnot : ∀ v < UPAGES, frm s'.mem g v ≠ some p := by
        intro v hv hf
        rw [frm_congr (h.source v (Nat.lt_trans hv UPAGES_lt))] at hf
        exact hg' p (Tree.frm_own hv hf) (hd' p hp)
      exact hw p hnot
    constructor
    · intro v hv
      refine pte_congr (hkeep d ⟨.dir, rfl⟩) fun t ht => ?_
      exact hkeep t (Tree.tab_own (by omega) ht)
    · intro v hv f hf
      exact hkeep f (Tree.frm_own hv hf)

theorem duplicate_of_built (ha : ∀ p, Own s.mem g p → p ∉ free) (hkern : Kern L s.mem g)
    (hn : n < UPAGES) (hmap : Mapped s.mem g sz n) (hk : Kern L s'.mem d)
    (hback : ∀ p, p ∈ free' ∨ Own s'.mem d p → p ∈ free) (hm : ∀ p, p ∉ free → s'.mem p = s.mem p)
    (hc : ∀ u ∈ Set.Ico 0 (pages sz) ∪ stackPages n, Copied s s' d g u)
    (habs : ∀ u < UPAGES, u ∉ Set.Ico 0 (pages sz) ∪ stackPages n →
      present (pte s'.mem d u) = false) : Duplicate s free g s' d := by
  have hmem : ∀ u < UPAGES, u ∈ Set.Ico 0 (pages sz) ∪ stackPages n ↔
      present (pte s.mem g u) = true := by
    intro u hu
    rw [hmap u hu, Set.mem_union, mem_stackPages hn]
    constructor
    · rintro (hlt | hle)
      · exact .inl hlt.2
      · exact .inr hle.1
    · rintro (hlt | hle)
      · exact .inl ⟨Nat.zero_le u, hlt⟩
      · exact .inr ⟨hle, hu⟩
  refine
    { mapped := fun v hv => ?_
      flags := fun v hv hp => ?_
      contents := fun v hv f hf => ?_
      fresh := fun v hv f hf => ?_
      kernel := fun v hv hlt => (hk v hv hlt).trans (hkern v hv hlt).symm
      source := fun v hv => ?_
      memory := hm }
  · by_cases hp : present (pte s.mem g v) = true
    · rw [hp, (hc v ((hmem v hv).2 hp)).present]
    · rw [habs v hv fun hin => hp ((hmem v hv).1 hin), Bool.eq_false_iff.2 hp]
  · obtain ⟨-, f, hpte, -⟩ := hc v ((hmem v hv).2 hp)
    rw [hpte, flags_entry hp]
  · obtain ⟨hp, hf⟩ := frm_eq_some.1 hf
    obtain ⟨-, f', hpte, hcopy⟩ := hc v ((hmem v hv).2 hp)
    refine ⟨f', frm_eq_some.2 ?_, hf ▸ hcopy⟩
    rw [hpte]
    exact ⟨entry_present, entry_frame (flags_lt _)⟩
  · have hfree : f ∈ free := hback f (.inr (Tree.frm_own hv hf))
    exact ⟨hfree, fun hown => ha f hown hfree⟩
  · refine pte_congr (hm g (ha g ⟨.dir, rfl⟩)) fun t ht' => ?_
    exact hm t (ha t (Tree.tab_own (by omega) ht'))

/-- `copyuvm` answers a copy of the address space, or 0. -/
theorem copyuvm_duplicates (h : Pool L s free) (ht : Tree L s.mem g) (hkern : Kern L s.mem g)
    (ha : ∀ p, Own s.mem g p → p ∉ free) (hsz : pages sz ≤ UPAGES) (hn : n ≤ UPAGES)
    (hmap : Mapped s.mem g sz n) (hapart : pages sz ≤ UPAGES - n) :
    ∃ r s', copyuvm L (kva g) sz n s = .ret (r, s') ∧ (r = 0 ∨ ∃ d, r = kva d ∧
      Duplicate s free g s' d ∧ ∀ m', (Written s'.mem d m' → Unseen s.mem g m') ∧
        (Written s'.mem g m' → Unseen s'.mem d m')) := by
  have hlt := ht.stack_lt hn hmap
  have hK : sz ≤ KERNBASE := by
    have hU : UPAGES = 524288 := by decide
    have hKB : KERNBASE = 2147483648 := by decide
    unfold pages at hsz
    omega
  generalize hrun : copyuvm L (kva g) sz n s = o
  have hspec : CopyuvmOutcome L g sz n s free (copyuvm L (kva g) sz n s) := copyuvm_spec h ht ha hK
  rw [hrun] at hspec
  cases hspec with
  | built hw hk hback hm hc habs =>
    have hdup := duplicate_of_built ha hkern hlt hmap hk hback hm hc habs
    exact ⟨_, _, rfl, .inr ⟨_, rfl, hdup, fun m' =>
      hdup.unseen ha fun p hp => hback p (.inr hp)⟩⟩
  | failed hp hback hm => exact ⟨_, _, rfl, .inl rfl⟩
  | absent hu habs =>
    exfalso
    rw [Set.mem_union, mem_stackPages hlt] at hu
    rcases hu with hu | hu
    · rw [(hmap _ (Nat.lt_of_lt_of_le hu.2 hsz)).2 (.inl hu.2)] at habs
      cases habs
    · rw [(hmap _ hu.2).2 (.inr hu.1)] at habs
      cases habs
  | twice hu hu' =>
    exfalso
    rw [mem_stackPages hlt] at hu'
    have := hu.2
    omega

theorem copyuvm_duplicates_sample : ∃ s free g, Mapped s.mem g 10000 1 ∧
    ∃ r s', copyuvm Link.sample (kva g) 10000 1 s = .ret (r, s') ∧ (r = 0 ∨ ∃ d, r = kva d ∧
      Duplicate s free g s' d ∧ ∀ m', (Written s'.mem d m' → Unseen s.mem g m') ∧
        (Written s'.mem g m' → Unseen s'.mem d m')) := by
  obtain ⟨s, free, g, hw, hk, hmap, -⟩ := exists_space Link.sample (by decide : pages 10000 ≤ 40000)
  exact ⟨s, free, g, hmap, copyuvm_duplicates hw.pool hw.tree hk (fun p hp hf => hw.apart p hf hp)
    (by decide) (by decide) hmap (by decide)⟩

end Xv6.Vm
