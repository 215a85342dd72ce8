import Mathlib.Order.Interval.Finset.Nat
import Xv6.Vm.Dealloc

/-!
# Mapping user pages

`allocuvm` maps zeroed pages over a range. It succeeds when the range was unmapped and
the free list holds a page for each of its pages and each page table it lacks; out of
memory it unmaps the whole range again; over a page that is already mapped it panics.
-/

namespace Xv6.Vm
open Lib

variable {L : Link} {R : Set ℕ} {s s' s'' : Kmem} {free free' : List ℕ} {d v f : ℕ}

theorem Moved.hand (h : Moved R d s free s' free') (f : ℕ) :
    Moved R d s (f :: free) s' (f :: free') where
  outside := h.outside
  frame p hp := h.frame p fun hin => hp (List.mem_cons_of_mem f hin)
  conserve p := by
    have := h.conserve p
    simp only [List.mem_cons, or_assoc]
    exact or_congr_right this
  tables := h.tables
  cleared := h.cleared

theorem Tree.of_other (h : Tree L s.mem d) (hf : ¬Own s.mem d f)
    (hmem : ∀ q, q ≠ f → s'.mem q = s.mem q) :
    (∀ i, tab s'.mem d i = tab s.mem d i) ∧ (∀ u < 2 ^ 20, pte s'.mem d u = pte s.mem d u) ∧
      Tree L s'.mem d ∧ ∀ q, Own s'.mem d q ↔ Own s.mem d q :=
  h.keep fun q hq => hmem q fun heq => hf (heq ▸ hq.own)

theorem Moved.of_other (h : Tree L s.mem d) (hf : ¬Own s.mem d f)
    (hmem : ∀ q, q ≠ f → s'.mem q = s.mem q) : Moved ∅ d s (f :: free) s' (f :: free) := by
  obtain ⟨htab, hpte, -, hown⟩ := h.of_other hf hmem
  exact
    { outside := fun v hv _ => hpte v hv
      frame := fun p hp _ _ => hmem p fun heq => hp (by simp [heq])
      conserve := fun p => or_congr_right (hown p)
      tables := fun i _ t ht => (htab i).trans ht
      cleared := fun v hv _ => Or.inr (hpte v (hv.trans UPAGES_lt)) }

def taken (s : Kmem) (f : ℕ) (c : Bytes) : Kmem := ⟨Function.update s.mem f c, s.mem.word f 0⟩

theorem taken_mem {c : Bytes} {q : ℕ} (h : q ≠ f) : (taken s f c).mem q = s.mem q :=
  Function.update_of_ne h _ _

theorem taken_run (h : Pool L s (f :: free)) :
    kalloc s = .ret (kva f, { s with freelist := s.mem.word f 0 }) ∧
      memset (kva f) 0 { s with freelist := s.mem.word f 0 } = .ret ((), taken s f .zero) := by
  have hf : f < 2 ^ 19 := by have := (h.page f (by simp)).lt; omega
  exact ⟨h.kalloc_cons, memset_kva hf⟩

theorem Pool.taken (h : Pool L s (f :: free)) {c : Bytes} : Pool L (taken s f c) free :=
  h.tail.congr rfl fun _ hq =>
    taken_mem fun heq => (List.nodup_cons.mp h.nodup).1 (heq ▸ hq)

theorem Wf.taken (h : Wf L s (f :: free) d) {c : Bytes} : Wf L (taken s f c) free d := by
  have hf : ¬Own s.mem d f := h.apart f (by simp)
  obtain ⟨-, -, htree, hown⟩ := h.tree.of_other hf
    (show ∀ q, q ≠ f → (Vm.taken s f c).mem q = s.mem q from fun _ hq => taken_mem hq)
  exact ⟨h.pool.taken, htree, fun p hp ho => h.apart p (by simp [hp]) ((hown p).mp ho)⟩

theorem map_taken (h : Wf L s (f :: free) d) {c : Bytes} {perm : ℕ} (hperm : perm < 4096)
    (huser : user perm = true) (hv : v < UPAGES) (hp : present (pte s.mem d v) = false)
    (hroom : tab s.mem d (v / 1024) = none → free ≠ []) :
    ∃ s' free', mappages (kva d) (4096 * v) PGSIZE (4096 * f) perm (taken s f c) = .ret (0, s') ∧
      Wf L s' free' d ∧ Moved {v} d s (f :: free) s' free' ∧
      pte s'.mem d v = (4096 * f ||| perm ||| PTE_P) ∧ s'.mem f = c ∧
      (∀ i, i ≠ v / 1024 → tab s'.mem d i = tab s.mem d i) ∧ tab s'.mem d (v / 1024) ≠ none ∧
      free'.length + (if tab s.mem d (v / 1024) = none then 1 else 0) = free.length := by
  have hf : ¬Own s.mem d f := h.apart f (by simp)
  obtain ⟨htab, hpte, -, hown⟩ := h.tree.of_other hf
    (show ∀ q, q ≠ f → (taken s f c).mem q = s.mem q from fun _ hq => taken_mem hq)
  have hap : ∀ q ∈ f :: free, ¬Own (taken s f c).mem d q := fun q hq ho =>
    h.apart q hq ((hown q).mp ho)
  obtain ⟨s', free', hmap, hw, hm, hpte', hmem, htab', hthere, hlen⟩ :=
    mappages_user h.taken hv (h.pool.page f (by simp)) (List.nodup_cons.mp h.pool.nodup).1
      (hap f (by simp)) hperm huser (by rw [htab]; exact hroom)
      (by rw [hpte v (hv.trans UPAGES_lt)]; exact hp)
  rw [htab] at hlen
  refine ⟨s', free', hmap, hw, ?_, hpte', ?_, fun i hi => (htab' i hi).trans (htab i), hthere, hlen⟩
  · exact ((Moved.of_other h.tree hf fun _ hq => taken_mem hq).mono (Set.empty_subset _)).trans
      h.taken.tree.toBare hap hm
  · rw [hmem]
    exact Function.update_self ..

theorem Wf.give (h : Wf L s free d) (hpage : L.Page f) (hfree : f ∉ free) (hf : ¬Own s.mem d f) :
    ∃ s', kfree L (kva f) s = .ret ((), s') ∧ Wf L s' (f :: free) d ∧
      Moved ∅ d s (f :: free) s' (f :: free) ∧
      (∀ u < 2 ^ 20, pte s'.mem d u = pte s.mem d u) ∧
      ∀ i, tab s'.mem d i = tab s.mem d i := by
  obtain ⟨s', hrun, hpool, hmem⟩ := h.pool.kfree hpage hfree
  obtain ⟨htab, hpte, htree, hown⟩ := h.tree.of_other hf hmem
  refine ⟨s', hrun, ⟨hpool, htree, fun p hp ho => ?_⟩, .of_other h.tree hf hmem, hpte, htab⟩
  rcases List.mem_cons.mp hp with rfl | hp
  · exact hf ((hown p).mp ho)
  · exact h.apart p hp ((hown p).mp ho)

section Need

variable (m : Pages) (d : ℕ)

def missing (a b : ℕ) : ℕ :=
  ((Finset.Ico (a / 1024) ((b + 1023) / 1024)).filter fun i => tab m d i = none).card

def need (a b : ℕ) : ℕ := if a < b then b - a + missing m d a b else 0

variable {m d} {m' : Pages} {a b : ℕ}

theorem need_of_le (h : b ≤ a) : need m d a b = 0 := if_neg (by omega)

theorem missing_step (hab : a < b) (hother : ∀ i, i ≠ a / 1024 → tab m' d i = tab m d i)
    (hthere : tab m' d (a / 1024) ≠ none) :
    missing m d a b = (if tab m d (a / 1024) = none then 1 else 0) + missing m' d (a + 1) b := by
  have hsplit : Finset.Ico (a / 1024) ((b + 1023) / 1024) =
      insert (a / 1024) (Finset.Ico (a / 1024 + 1) ((b + 1023) / 1024)) := by
    ext i
    simp only [Finset.mem_Ico, Finset.mem_insert]
    omega
  have hrest : (Finset.Ico (a / 1024 + 1) ((b + 1023) / 1024)).filter (fun i => tab m d i = none) =
      (Finset.Ico ((a + 1) / 1024) ((b + 1023) / 1024)).filter fun i => tab m' d i = none := by
    ext i
    simp only [Finset.mem_filter, Finset.mem_Ico]
    constructor
    · rintro ⟨hi, hn⟩
      exact ⟨by omega, by rw [hother i (by omega)]; exact hn⟩
    · rintro ⟨hi, hn⟩
      have hne : i ≠ a / 1024 := fun heq => hthere (heq ▸ hn)
      exact ⟨by omega, by rw [← hother i hne]; exact hn⟩
  rw [missing, hsplit, Finset.filter_insert, hrest, missing]
  split_ifs with h
  · rw [Finset.card_insert_of_notMem, Nat.add_comm]
    simp only [Finset.mem_filter, not_and]
    exact fun _ hn => hthere hn
  · simp

theorem missing_le : missing m d a b ≤ (b + 1023) / 1024 - a / 1024 := by
  refine (Finset.card_filter_le _ _).trans ?_
  simp

theorem need_step (hab : a < b) (hother : ∀ i, i ≠ a / 1024 → tab m' d i = tab m d i)
    (hthere : tab m' d (a / 1024) ≠ none) :
    need m d a b = 1 + (if tab m d (a / 1024) = none then 1 else 0) + need m' d (a + 1) b := by
  rw [need, if_pos hab, missing_step hab hother hthere, need]
  by_cases hab' : a + 1 < b
  · rw [if_pos hab']
    omega
  · have hlast : missing m' d (a + 1) b = 0 := by
      rw [missing, Finset.card_eq_zero, Finset.filter_eq_empty_iff]
      intro i hi hn
      have := Finset.mem_Ico.mp hi
      exact hthere (by rwa [show a / 1024 = i by omega])
    rw [if_neg hab', hlast]
    omega

end Need

def Zeroed (m : Pages) (d u : ℕ) : Prop :=
  ∃ f, pte m d u = (4096 * f ||| (PTE_W ||| PTE_U) ||| PTE_P) ∧ m f = .zero

theorem Zeroed.present {m : Pages} {u : ℕ} (h : Zeroed m d u) : present (pte m d u) = true := by
  obtain ⟨f, hf, -⟩ := h
  rw [hf]
  exact entry_present

/-- What `allocuvm` can do over the pages `[v, E)`; on failure it unmaps from `v₀`. -/
inductive AllocOutcome (L : Link) (d v₀ v E newsz : ℕ) (s : Kmem) (free : List ℕ) :
    Outcome (ℕ × Kmem) → Prop
  | mapped {s' : Kmem} {free' : List ℕ} (hw : Wf L s' free' d)
      (hm : Moved (Set.Ico v E) d s free s' free')
      (hold : ∀ u ∈ Set.Ico v E, present (pte s.mem d u) = false)
      (hnew : ∀ u ∈ Set.Ico v E, Zeroed s'.mem d u)
      (hneed : free'.length + need s.mem d v E = free.length) :
      AllocOutcome L d v₀ v E newsz s free (.ret (newsz, s'))
  | failed {s' : Kmem} {free' : List ℕ} (hw : Wf L s' free' d)
      (hm : Moved (Set.Ico v₀ E) d s free s' free')
      (habs : ∀ u ∈ Set.Ico v₀ E, present (pte s'.mem d u) = false)
      (hneed : (∀ u ∈ Set.Ico v E, present (pte s.mem d u) = false) →
        free.length < need s.mem d v E) :
      AllocOutcome L d v₀ v E newsz s free (.ret (0, s'))
  | remap {u : ℕ} (hu : u ∈ Set.Ico v E) (hp : present (pte s.mem d u) = true) :
      AllocOutcome L d v₀ v E newsz s free (.panic "remap")

theorem need_pos {m : Pages} {a b : ℕ} (h : a < b) : 0 < need m d a b := by
  rw [need, if_pos h]
  omega

theorem need_table {m : Pages} {a b : ℕ} (h : a < b) (ht : tab m d (a / 1024) = none) :
    1 < need m d a b := by
  have hmem : a / 1024 ∈ (Finset.Ico (a / 1024) ((b + 1023) / 1024)).filter
      fun i => tab m d i = none := by
    simp only [Finset.mem_filter, Finset.mem_Ico]
    exact ⟨by omega, ht⟩
  have := Finset.card_pos.mpr ⟨_, hmem⟩
  rw [need, if_pos h, missing]
  omega

theorem perm_user : PTE_W ||| PTE_U < 4096 ∧ user (PTE_W ||| PTE_U) = true := by decide

theorem Zeroed.frm {m : Pages} {u : ℕ} (h : Zeroed m d u) :
    ∃ f, frm m d u = some f ∧ m f = .zero := by
  obtain ⟨f, hpte, hmem⟩ := h
  refine ⟨f, frm_eq_some.mpr ?_, hmem⟩
  rw [hpte]
  exact ⟨entry_present, entry_frame perm_user.1⟩

theorem Zeroed.moved (h : Zeroed s.mem d v) (hv : v < UPAGES) (hw : Wf L s free d)
    (hm : Moved R d s free s' free') (hR : v ∉ R) : Zeroed s'.mem d v := by
  obtain ⟨g, hfrm, -⟩ := h.frm
  obtain ⟨f, hpte, hmem⟩ := h
  have hgf : g = f := by
    rw [Vm.frm, hpte, if_pos entry_present, entry_frame perm_user.1] at hfrm
    exact (Option.some.inj hfrm).symm
  subst hgf
  refine ⟨g, (hm.outside v (hv.trans UPAGES_lt) hR).trans hpte, ?_⟩
  rw [hm.frame g (fun hin => hw.apart g hin (Tree.frm_own hv hfrm))
    (hw.tree.frm_not_inner hv hfrm) fun u hu huR hfu =>
      hR (hw.tree.frm_inj hu hv hfu hfrm ▸ huR)]
  exact hmem

section AllocRound

variable {oldsz newsz n : ℕ} (hnew : newsz < KERNBASE) (hold : oldsz < newsz)
  (hlt : v < pages newsz)
include hlt

theorem allocuvmFrom_remap (h : Wf L s (f :: free) d) (hv : v < 2 ^ 20)
    (hp : present (pte s.mem d v) = true) :
    allocuvmFrom L (kva d) oldsz newsz (n + 1) (4096 * v) s = .panic "remap" := by
  have hflt : f < 2 ^ 19 := by have := (h.pool.page f (by simp)).lt; omega
  obtain ⟨hk, hz⟩ := taken_run h.pool
  obtain ⟨-, hpte, -, -⟩ :=
    h.tree.of_other (h.apart f (by simp))
      (show ∀ q, q ≠ f → (taken s f .zero).mem q = s.mem q from fun _ hq => taken_mem hq)
  have hmap := mappages_remap (h.taken (c := .zero)) hv (b := 4096 * f) (r := PTE_W ||| PTE_U)
    (by rw [hpte v hv]; exact hp)
  simp [allocuvmFrom, lt_iff_pages, hlt, hk, kva_ne_zero, hz, V2P_kva_zero hflt, hmap]

include hnew hold in
theorem allocuvmFrom_empty (h : Wf L s [] d) :
    ∃ s' free', allocuvmFrom L (kva d) oldsz newsz (n + 1) (4096 * v) s = .ret (0, s') ∧
      Wf L s' free' d ∧ Moved (Set.Ico (pages oldsz) (pages newsz)) d s [] s' free' ∧
      ∀ u ∈ Set.Ico (pages oldsz) (pages newsz), present (pte s'.mem d u) = false := by
  obtain ⟨s', free', hrun, hw, hm, habs, -⟩ := deallocuvm_spec h hnew.le hold
  refine ⟨s', free', ?_, hw, hm, habs⟩
  simp [allocuvmFrom, lt_iff_pages, hlt, h.pool.kalloc_nil, hrun]

include hnew hold in
theorem allocuvmFrom_table (h : Wf L s [f] d) (hv : v < 2 ^ 20)
    (ht : tab s.mem d (v / 1024) = none) :
    ∃ s' free', allocuvmFrom L (kva d) oldsz newsz (n + 1) (4096 * v) s = .ret (0, s') ∧
      Wf L s' free' d ∧ Moved (Set.Ico (pages oldsz) (pages newsz)) d s [f] s' free' ∧
      ∀ u ∈ Set.Ico (pages oldsz) (pages newsz), present (pte s'.mem d u) = false := by
  have hf : ¬Own s.mem d f := h.apart f (by simp)
  have hpage := h.pool.page f (by simp)
  have hflt : f < 2 ^ 19 := by have := hpage.lt; omega
  obtain ⟨hk, hz⟩ := taken_run h.pool
  obtain ⟨htab₁, -, -, hown₁⟩ := h.tree.of_other hf
    (show ∀ q, q ≠ f → (taken s f .zero).mem q = s.mem q from fun _ hq => taken_mem hq)
  have hm₁ : Moved ∅ d s [f] (taken s f .zero) [f] := .of_other h.tree hf fun _ hq => taken_mem hq
  have hf₁ : ∀ q ∈ [f], ¬Own (taken s f .zero).mem d q := by simpa [hown₁] using hf
  have hmap := mappages_full (h.taken (c := .zero)) hv (b := 4096 * f) (r := PTE_W ||| PTE_U)
    ((htab₁ _).trans ht)
  obtain ⟨s₂, free₂, hrun₂, hw₂, hm₂, habs₂, -⟩ := deallocuvm_spec (h.taken (c := .zero)) hnew.le hold
  have hnot : ¬(f ∈ free₂ ∨ Own s₂.mem d f) := by
    rw [hm₂.conserve f]
    exact fun hor => hor.elim (by simp) (hf₁ f (by simp))
  have hap : ∀ q ∈ f :: free₂, ¬Own s₂.mem d q := by
    intro q hq ho
    rcases List.mem_cons.mp hq with rfl | hq
    · exact hnot (Or.inr ho)
    · exact hw₂.apart q hq ho
  obtain ⟨s₃, hrun₃, hw₃, hm₃, hpte₃, -⟩ := hw₂.give hpage (fun hin => hnot (Or.inl hin))
    fun ho => hnot (Or.inr ho)
  refine ⟨s₃, f :: free₂, ?_, hw₃, ?_, fun u hu => ?_⟩
  · simp [allocuvmFrom, lt_iff_pages, hlt, hk, kva_ne_zero, hz, V2P_kva_zero hflt, hmap, hrun₂,
      hrun₃]
  · exact ((hm₁.mono (Set.empty_subset _)).trans h.taken.tree.toBare hf₁ (hm₂.hand f)).trans hw₂.tree.toBare hap
      (hm₃.mono (Set.empty_subset _))
  · have hE := pages_le hnew.le
    have hU : UPAGES = 2 ^ 19 := rfl
    rw [hpte₃ u (by have := hu.2; omega)]
    exact habs₂ u hu

variable (oldsz) in
theorem allocuvmFrom_next (h : Wf L s (f :: free) d) (hv : v < UPAGES)
    (hp : present (pte s.mem d v) = false) (hroom : tab s.mem d (v / 1024) = none → free ≠ []) :
    ∃ s₂ free₂, allocuvmFrom L (kva d) oldsz newsz (n + 1) (4096 * v) s =
        allocuvmFrom L (kva d) oldsz newsz n (4096 * (v + 1)) s₂ ∧
      Wf L s₂ free₂ d ∧ Moved {v} d s (f :: free) s₂ free₂ ∧ Zeroed s₂.mem d v ∧
      (∀ i, i ≠ v / 1024 → tab s₂.mem d i = tab s.mem d i) ∧ tab s₂.mem d (v / 1024) ≠ none ∧
      free₂.length + (if tab s.mem d (v / 1024) = none then 1 else 0) = free.length := by
  have hflt : f < 2 ^ 19 := by have := (h.pool.page f (by simp)).lt; omega
  have hU : UPAGES = 2 ^ 19 := rfl
  obtain ⟨hk, hz⟩ := taken_run h.pool
  obtain ⟨s₂, free₂, hmap, hw, hm, hpte, hmem, htab, hthere, hlen⟩ :=
    map_taken h (c := .zero) perm_user.1 perm_user.2 hv hp hroom
  refine ⟨s₂, free₂, ?_, hw, hm, ⟨f, hpte, hmem⟩, htab, hthere, hlen⟩
  simp [allocuvmFrom, lt_iff_pages, hlt, hk, kva_ne_zero, hz, V2P_kva_zero hflt, hmap,
    add32_page (show v < 2 ^ 19 by omega)]

end AllocRound

theorem allocuvmFrom_spec {oldsz newsz n : ℕ} (h : Wf L s free d) (hnew : newsz < KERNBASE)
    (hv₀ : pages oldsz ≤ v) (hfuel : pages newsz - v < n) (hv : v ≤ 2 ^ 19) :
    AllocOutcome L d (pages oldsz) v (pages newsz) newsz s free
      (allocuvmFrom L (kva d) oldsz newsz n (4096 * v) s) := by
  have hE := pages_le hnew.le
  have hU : UPAGES = 2 ^ 19 := rfl
  induction n generalizing v s free with
  | zero => omega
  | succ n ih =>
    by_cases hlt : v < pages newsz
    swap
    · have hrun : allocuvmFrom L (kva d) oldsz newsz (n + 1) (4096 * v) s = .ret (newsz, s) := by
        simp [allocuvmFrom, lt_iff_pages, hlt]
      rw [hrun]
      exact .mapped h (.refl _ _ _ _) (fun u hu => absurd hu.2 (by have := hu.1; omega))
        (fun u hu => absurd hu.2 (by have := hu.1; omega)) (by rw [need_of_le (by omega)]; rfl)
    have hvU : v < UPAGES := by omega
    have hold : oldsz < newsz := by simp only [pages] at hv₀ hlt; omega
    cases free with
    | nil =>
      obtain ⟨s', free', hrun, hw, hm, habs⟩ := allocuvmFrom_empty hnew hold hlt h (n := n)
      rw [hrun]
      exact .failed hw hm habs fun _ => need_pos hlt
    | cons f free =>
      by_cases hp : present (pte s.mem d v) = true
      · rw [allocuvmFrom_remap hlt h (by omega) hp]
        exact .remap ⟨le_rfl, hlt⟩ hp
      have hp : present (pte s.mem d v) = false := by simpa using hp
      by_cases hroom : tab s.mem d (v / 1024) = none → free ≠ []
      swap
      · push Not at hroom
        obtain ⟨htn, rfl⟩ := hroom
        obtain ⟨s', free', hrun, hw, hm, habs⟩ :=
          allocuvmFrom_table hnew hold hlt h (by omega) htn (n := n)
        rw [hrun]
        exact .failed hw hm habs fun _ => need_table hlt htn
      obtain ⟨s₂, free₂, hcont, hw₂, hone, hz₂, htab₂, hthere, hlen⟩ :=
        allocuvmFrom_next oldsz hlt h hvU hp hroom (n := n)
      have hstep := need_step hlt htab₂ hthere
      have hsub : Set.Ico (v + 1) (pages newsz) ⊆ Set.Ico v (pages newsz) :=
        fun u hu => ⟨by have := hu.1; omega, hu.2⟩
      have hsame : ∀ u ∈ Set.Ico (v + 1) (pages newsz), pte s₂.mem d u = pte s.mem d u :=
        fun u hu => hone.outside u (by have := hu.2; omega) fun huv => by
          have := hu.1
          rw [Set.mem_singleton_iff.mp huv] at this
          omega
      rw [hcont]
      generalize hout : allocuvmFrom L (kva d) oldsz newsz n (4096 * (v + 1)) s₂ = o
      have hrest := ih (v := v + 1) hw₂ (by omega) (by omega) (by omega)
      rw [hout] at hrest
      cases hrest with
      | @mapped s' free' hw hm hold' hnew' hneed =>
        refine .mapped hw ((hone.mono ?_).trans hw₂.tree.toBare hw₂.apart (hm.mono hsub)) (fun u hu => ?_)
          (fun u hu => ?_) (by simp only [List.length_cons]; omega)
        · exact Set.singleton_subset_iff.mpr ⟨le_rfl, hlt⟩
        · by_cases huv : u = v
          · rw [huv]; exact hp
          · have hin : u ∈ Set.Ico (v + 1) (pages newsz) := ⟨by have := hu.1; omega, hu.2⟩
            rw [← hsame u hin]
            exact hold' u hin
        · by_cases huv : u = v
          · rw [huv]
            exact hz₂.moved hvU hw₂ hm fun hin => by have := hin.1; omega
          · exact hnew' u ⟨by have := hu.1; omega, hu.2⟩
      | @failed s' free' hw hm habs hneed =>
        refine .failed hw ((hone.mono ?_).trans hw₂.tree.toBare hw₂.apart hm) habs fun hall => ?_
        · exact Set.singleton_subset_iff.mpr ⟨hv₀, hlt⟩
        · have := hneed fun u hu => by rw [hsame u hu]; exact hall u (hsub hu)
          simp only [List.length_cons]
          omega
      | @remap u hu hpu => exact .remap (hsub hu) (by rw [← hsame u hu]; exact hpu)

theorem allocuvm_spec {oldsz newsz : ℕ} (h : Wf L s free d) (hnew : newsz < KERNBASE)
    (hle : oldsz ≤ newsz) :
    AllocOutcome L d (pages oldsz) (pages oldsz) (pages newsz) newsz s free
      (allocuvm L (kva d) oldsz newsz s) := by
  have hE := pages_le hnew.le
  have hU : UPAGES = 2 ^ 19 := rfl
  have hK : KERNBASE = 2 ^ 31 := rfl
  have hN := pages_le (show oldsz ≤ KERNBASE by omega)
  have hrun : allocuvm L (kva d) oldsz newsz s =
      allocuvmFrom L (kva d) oldsz newsz allPages (4096 * pages oldsz) s := by
    rw [← PGROUNDUP_eq (show oldsz < 2 ^ 31 by omega)]
    simp [allocuvm, Nat.not_le.mpr hnew, Nat.not_lt.mpr hle]
  rw [hrun]
  exact allocuvmFrom_spec h hnew le_rfl (by simp only [allPages]; omega) (by omega)

end Xv6.Vm
