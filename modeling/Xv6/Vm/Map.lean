import Xv6.Vm.Space

/-!
# Walking and extending a page directory

`Wf L s free d`: the directory in frame `d` is a tree of pages apart from the free
list. `Moved R d s free s' free'`: pages went between the free list and the directory
only, entries changed for the virtual pages in `R` only, page tables stayed, and no
other page changed.
-/

namespace Xv6.Vm
open Lib

structure Wf (L : Link) (s : Kmem) (free : List ℕ) (d : ℕ) : Prop where
  pool : Pool L s free
  tree : Tree L s.mem d
  apart : ∀ p ∈ free, ¬Own s.mem d p

structure Backed (L : Link) (s : Kmem) (free : List ℕ) (d : ℕ) : Prop where
  pool : Pool L s free
  bare : Bare L s.mem d
  apart : ∀ p ∈ free, ¬Own s.mem d p

structure Based (L : Link) (s : Kmem) (free : List ℕ) (d : ℕ) : Prop where
  pool : Pool L s free
  dir : Dir L s.mem d
  apart : ∀ p ∈ free, ¬Inner s.mem d p

structure Moved (R : Set ℕ) (d : ℕ) (s : Kmem) (free : List ℕ) (s' : Kmem) (free' : List ℕ) :
    Prop where
  outside : ∀ v < 2 ^ 20, v ∉ R → pte s'.mem d v = pte s.mem d v
  frame : ∀ p, p ∉ free → ¬Inner s.mem d p → (∀ v < UPAGES, v ∈ R → frm s.mem d v ≠ some p) →
    s'.mem p = s.mem p
  conserve : ∀ p, (p ∈ free' ∨ Own s'.mem d p) ↔ (p ∈ free ∨ Own s.mem d p)
  tables : ∀ i < 1024, ∀ t, tab s.mem d i = some t → tab s'.mem d i = some t
  cleared : ∀ v < UPAGES, present (pte s'.mem d v) = false →
    pte s'.mem d v = 0 ∨ pte s'.mem d v = pte s.mem d v

variable {L : Link} {R : Set ℕ} {s s' s'' : Kmem} {free free' free'' : List ℕ}
  {d v a t p w f b r l n : ℕ}

theorem own_inner_or_frm (h : Own s.mem d p) :
    Inner s.mem d p ∨ ∃ v < UPAGES, frm s.mem d v = some p := by
  rcases own_iff.mp h with h | h | h
  · exact Or.inl (Or.inl h)
  · exact Or.inl (Or.inr h)
  · exact Or.inr h

theorem frm_congr {m m' : Pages} (h : pte m' d v = pte m d v) : frm m' d v = frm m d v := by
  simp [frm, h]

theorem Bare.keep (h : Bare L s.mem d) (hm : ∀ p, Inner s.mem d p → s'.mem p = s.mem p) :
    (∀ i, tab s'.mem d i = tab s.mem d i) ∧ (∀ v < 2 ^ 20, pte s'.mem d v = pte s.mem d v) ∧
      Bare L s'.mem d ∧ ∀ p, Own s'.mem d p ↔ Own s.mem d p := by
  have hd : s'.mem d = s.mem d := hm d (Or.inl rfl)
  have htab : ∀ i, tab s'.mem d i = tab s.mem d i := fun i => tab_congr hd
  have hpte : ∀ v < 2 ^ 20, pte s'.mem d v = pte s.mem d v := fun v hv =>
    pte_congr hd fun t ht => hm t (Or.inr ⟨v / 1024, by omega, ht⟩)
  refine ⟨htab, hpte, h.of_same (fun i _ => htab i) fun v hv => hpte v (hv.trans UPAGES_lt),
    fun q => ?_⟩
  simp only [own_iff, htab]
  refine or_congr_right (or_congr_right ⟨?_, ?_⟩) <;> rintro ⟨u, hu, hq⟩ <;> refine ⟨u, hu, ?_⟩
  · rwa [frm_congr (hpte u (hu.trans UPAGES_lt))] at hq
  · rwa [frm_congr (hpte u (hu.trans UPAGES_lt))]

theorem Tree.keep (h : Tree L s.mem d) (hm : ∀ p, Inner s.mem d p → s'.mem p = s.mem p) :
    (∀ i, tab s'.mem d i = tab s.mem d i) ∧ (∀ v < 2 ^ 20, pte s'.mem d v = pte s.mem d v) ∧
      Tree L s'.mem d ∧ ∀ p, Own s'.mem d p ↔ Own s.mem d p := by
  obtain ⟨htab, hpte, -, hown⟩ := h.toBare.keep hm
  exact ⟨htab, hpte, h.of_same (fun i _ => htab i) fun v hv => hpte v (hv.trans UPAGES_lt), hown⟩

namespace Moved

theorem refl (R : Set ℕ) (d : ℕ) (s : Kmem) (free : List ℕ) : Moved R d s free s free :=
  ⟨fun _ _ _ => rfl, fun _ _ _ _ => rfl, fun _ => Iff.rfl, fun _ _ _ h => h,
    fun _ _ _ => Or.inr rfl⟩

theorem mono (h : Moved R d s free s' free') {R' : Set ℕ} (hR : R ⊆ R') :
    Moved R' d s free s' free' where
  outside v hv hn := h.outside v hv fun hin => hn (hR hin)
  frame p hp hi hf := h.frame p hp hi fun v hv hin => hf v hv (hR hin)
  conserve := h.conserve
  tables := h.tables
  cleared := h.cleared

theorem other (h : Moved R d s free s' free') (hp : p ∉ free) (ho : ¬Own s.mem d p) :
    s'.mem p = s.mem p :=
  h.frame p hp (fun hi => ho hi.own) fun _ hv _ hf => ho (Tree.frm_own hv hf)

theorem trans (h : Moved R d s free s' free') (htree : Bare L s'.mem d)
    (hapart : ∀ p ∈ free', ¬Own s'.mem d p) (h' : Moved R d s' free' s'' free'') :
    Moved R d s free s'' free'' where
  outside v hv hn := (h'.outside v hv hn).trans (h.outside v hv hn)
  conserve p := (h'.conserve p).trans (h.conserve p)
  tables i hi t ht := h'.tables i hi t (h.tables i hi t ht)
  cleared v hv hp := by
    rcases h'.cleared v hv hp with h0 | heq
    · exact Or.inl h0
    · rw [heq] at hp ⊢
      exact h.cleared v hv hp
  frame p hp hi hf := by
    refine Eq.trans ?_ (h.frame p hp hi hf)
    by_cases ho : Own s.mem d p
    · -- a frame outside `R` is mapped at the same page in between
      obtain ⟨v, hv, hfv⟩ := (own_inner_or_frm ho).resolve_left hi
      have hvR : v ∉ R := fun hin => hf v hv hin hfv
      have hfv' : frm s'.mem d v = some p := by
        rw [frm_congr (h.outside v (hv.trans UPAGES_lt) hvR)]
        exact hfv
      refine h'.frame p (fun hin => hapart p hin (Tree.frm_own hv hfv'))
        (htree.frm_not_inner hv hfv') fun u hu huR hfu => ?_
      exact hvR (htree.frm_inj hu hv hfu hfv' ▸ huR)
    · have hn : ¬(p ∈ free' ∨ Own s'.mem d p) := by
        rw [h.conserve p]
        exact fun hor => hor.elim hp ho
      exact h'.other (fun hin => hn (Or.inl hin)) fun hin => hn (Or.inr hin)

end Moved

theorem Wf.backed (h : Wf L s free d) : Backed L s free d := ⟨h.pool, h.tree.toBare, h.apart⟩

theorem Wf.based (h : Wf L s free d) : Based L s free d :=
  ⟨h.pool, h.tree.dir, fun p hp hi => h.apart p hp hi.own⟩

theorem Wf.dir_lt (h : Wf L s free d) : d < 2 ^ 19 := h.tree.dir.dir_lt

theorem walkpgdir_present (hd : d < 2 ^ 19) (hlt : t < 2 ^ 19) (hva : a < 2 ^ 32)
    (ht : tab s.mem d (a / 4096 / 1024) = some t) (alloc : Bool) :
    walkpgdir (kva d) a alloc s = .ret (kva t + 4 * (a / 4096 % 1024), s) := by
  have hl := load_kva (s := s) hd (show a / 4096 / 1024 < 1024 by omega)
  simp only [tab] at ht
  split_ifs at ht with hp
  have hP2V : P2V (PTE_ADDR (s.mem.word d (a / 4096 / 1024))) = kva t := by
    rw [← Option.some.inj ht] at hlt ⊢
    exact P2V_PTE_ADDR hlt
  simp [walkpgdir, PDX_eq hva, hl, hp, hP2V, PTX_eq]

theorem walkpgdir_absent (hd : d < 2 ^ 19) (hva : a < 2 ^ 32)
    (ht : tab s.mem d (a / 4096 / 1024) = none) : walkpgdir (kva d) a false s = .ret (0, s) := by
  have hl := load_kva (s := s) hd (show a / 4096 / 1024 < 1024 by omega)
  simp only [tab] at ht
  split_ifs at ht with hp
  simp [walkpgdir, PDX_eq hva, hl, hp]

theorem walkpgdir_tab (h : Dir L s.mem d) (hva : a < 2 ^ 32)
    (ht : tab s.mem d (a / 4096 / 1024) = some t) (alloc : Bool) :
    walkpgdir (kva d) a alloc s = .ret (kva t + 4 * (a / 4096 % 1024), s) :=
  walkpgdir_present h.dir_lt (h.tab_lt (by omega) ht) hva ht alloc

theorem walkpgdir_none (h : Dir L s.mem d) (hva : a < 2 ^ 32)
    (ht : tab s.mem d (a / 4096 / 1024) = none) : walkpgdir (kva d) a false s = .ret (0, s) :=
  walkpgdir_absent h.dir_lt hva ht

theorem walkpgdir_full (h : Based L s [] d) (hva : a < 2 ^ 32)
    (ht : tab s.mem d (a / 4096 / 1024) = none) : walkpgdir (kva d) a true s = .ret (0, s) := by
  have hl := load_kva (s := s) h.dir.dir_lt (show a / 4096 / 1024 < 1024 by omega)
  simp only [tab] at ht
  split_ifs at ht with hp
  simp [walkpgdir, PDX_eq hva, hl, hp, h.pool.kalloc_nil]

theorem pde_entry (ht : t < 57344) : (4096 * t ||| PTE_P ||| PTE_W ||| PTE_U) < 2 ^ 32 ∧
    present (4096 * t ||| PTE_P ||| PTE_W ||| PTE_U) = true ∧
    (4096 * t ||| PTE_P ||| PTE_W ||| PTE_U) / 4096 = t := by
  have he : (4096 * t ||| PTE_P ||| PTE_W ||| PTE_U) = 4096 * t ||| 6 ||| PTE_P := by
    simp [Nat.or_assoc, PTE_P, PTE_W, PTE_U]
  rw [he]
  refine ⟨?_, entry_present, entry_frame (by decide)⟩
  rw [entry_eq (by decide), show 6 ||| PTE_P = 7 from rfl]
  omega

def withTable (s : Kmem) (d i t : ℕ) : Kmem :=
  ⟨(s.mem.fill t 0).setWord d i (4096 * t ||| PTE_P ||| PTE_W ||| PTE_U), s.mem.word t 0⟩

theorem withTable_mem {i : ℕ} (ht : p ≠ t) (hd : p ≠ d) : (withTable s d i t).mem p = s.mem p :=
  (Pages.setWord_of_ne _ hd).trans (Pages.fill_of_ne _ ht)

theorem walkpgdir_take (h : Based L s (t :: free) d) (hva : a < 2 ^ 32)
    (hnone : tab s.mem d (a / 4096 / 1024) = none) :
    walkpgdir (kva d) a true s =
      .ret (kva t + 4 * (a / 4096 % 1024), withTable s d (a / 4096 / 1024) t) := by
  have hi : a / 4096 / 1024 < 1024 := by omega
  have hl := load_kva (s := s) h.dir.dir_lt hi
  have hlt : t < 2 ^ 19 := by have := (h.pool.page t (by simp)).lt; omega
  have hnp : present (s.mem.word d (a / 4096 / 1024)) = false := by
    simp only [tab] at hnone
    split_ifs at hnone with hp
    simpa using hp
  have hst := store_kva (s := { mem := s.mem.fill t 0, freelist := s.mem.word t 0 })
    (w := (4096 * t ||| PTE_P ||| PTE_W ||| PTE_U)) h.dir.dir_lt hi
  simp only [walkpgdir, PDX_eq hva, hl, hnp, PTX_eq, Prog.bind_apply, Outcome.ret_bind,
    h.pool.kalloc_cons, kva_ne_zero, memset_kva hlt, V2P_kva_zero hlt, hst,
    Bool.false_eq_true, Bool.true_eq_false, if_false, Prog.pure_apply]
  rfl

section WithTable

variable {i : ℕ} (h : Based L s (t :: free) d) (hnone : tab s.mem d i = none)
include h

theorem Based.tab_withTable (j : ℕ) :
    tab (withTable s d i t).mem d j = if j = i then some t else tab s.mem d j := by
  obtain ⟨hw, hwp, hwt⟩ := pde_entry (h.pool.page t (by simp)).lt
  rw [withTable, tab_setPde (h.apart t (by simp)) hw, if_pos hwp, hwt]

theorem Based.pool_withTable : Pool L (withTable s d i t) free := by
  refine h.pool.tail.congr rfl fun q hq => withTable_mem (fun heq => ?_) fun heq => ?_
  · exact (List.nodup_cons.mp h.pool.nodup).1 (heq ▸ hq)
  · exact h.apart q (by simp [hq]) (Or.inl heq)

include hnone

theorem Based.pte_withTable {u : ℕ} (hu : u < 2 ^ 20) :
    pte (withTable s d i t).mem d u = pte s.mem d u := by
  obtain ⟨hw, hwp, hwt⟩ := pde_entry (h.pool.page t (by simp)).lt
  exact pte_setPde h.dir (h.apart t (by simp)) hw hwp hwt hnone hu

theorem Based.withTable : Based L (withTable s d i t) free d := by
  have hnew := h.apart t (by simp)
  have hinner : ∀ q, Inner (Vm.withTable s d i t).mem d q → q = t ∨ Inner s.mem d q := by
    rintro q (rfl | ⟨j, hj, hq⟩)
    · exact Or.inr (Or.inl rfl)
    · rw [h.tab_withTable] at hq
      split_ifs at hq with hji
      · exact Or.inl (Option.some.inj hq).symm
      · exact Or.inr (Or.inr ⟨j, hj, hq⟩)
  refine ⟨h.pool_withTable, ⟨fun {j x} hj hx => ?_, fun {j k x} hj hk hx hy => ?_, fun q hq => ?_⟩,
    fun q hq hin => ?_⟩
  · rw [h.tab_withTable] at hx
    split_ifs at hx with hji
    · rintro rfl
      exact hnew (Or.inl (Option.some.inj hx))
    · exact h.dir.tab_ne_dir hj hx
  · rw [h.tab_withTable] at hx hy
    split_ifs at hx hy with hji hki hki
    · rw [hji, hki]
    · exact absurd (Or.inr ⟨k, hk, by rw [hy, ← hx]⟩) hnew
    · exact absurd (Or.inr ⟨j, hj, by rw [hx, ← hy]⟩) hnew
    · exact h.dir.tab_inj hj hk hx hy
  · rcases hinner q hq with rfl | hq
    · exact h.pool.page q (by simp)
    · exact h.dir.page q hq
  · rcases hinner q hin with rfl | hin
    · exact (List.nodup_cons.mp h.pool.nodup).1 hq
    · exact h.apart q (by simp [hq]) hin

end WithTable

theorem walkpgdir_fresh (h : Wf L s (t :: free) d) (hva : a < 2 ^ 32)
    (hnone : tab s.mem d (a / 4096 / 1024) = none) :
    ∃ s', walkpgdir (kva d) a true s = .ret (kva t + 4 * (a / 4096 % 1024), s') ∧
      Wf L s' free d ∧ Moved ∅ d s (t :: free) s' free ∧
      tab s'.mem d (a / 4096 / 1024) = some t ∧
      ∀ j, j ≠ a / 4096 / 1024 → tab s'.mem d j = tab s.mem d j := by
  have hi : a / 4096 / 1024 < 1024 := by omega
  have hpage := h.pool.page t (by simp)
  obtain ⟨hw, hwp, hwt⟩ := pde_entry hpage.lt
  obtain ⟨htree, hown⟩ := h.tree.setPde (h.apart t (by simp)) hpage hi hw hwp hwt hnone
  have htab := h.based.tab_withTable (i := a / 4096 / 1024)
  refine ⟨withTable s d (a / 4096 / 1024) t, walkpgdir_take h.based hva hnone,
    ⟨h.based.pool_withTable, htree, fun q hq ho => ?_⟩,
    ⟨fun u hu _ => h.based.pte_withTable hnone hu, fun q hq hin _ => ?_, fun q => ?_,
      fun j hj x hx => ?_, fun u hu _ => Or.inr (h.based.pte_withTable hnone (hu.trans UPAGES_lt))⟩,
    (htab _).trans (if_pos rfl), fun j hj => (htab j).trans (if_neg hj)⟩
  · rcases (hown q).mp ho with ho | rfl
    · exact h.apart q (by simp [hq]) ho
    · exact (List.nodup_cons.mp h.pool.nodup).1 hq
  · exact withTable_mem (fun heq => hq (by simp [heq])) fun heq => hin (Or.inl heq)
  · show q ∈ free ∨ Own ((s.mem.fill t 0).setWord d _ _) d q ↔ _
    rw [hown q]
    simp only [List.mem_cons]
    tauto
  · rw [htab j, if_neg fun heq => by rw [heq, hnone] at hx; simp at hx]
    exact hx

def tablesTaken (m : Pages) (d v : ℕ) : ℕ := if tab m d (v / 1024) = none then 1 else 0

theorem walkpgdir_drop (h : Wf L s free d) (hva : a < 2 ^ 32)
    (hroom : tab s.mem d (a / 4096 / 1024) = none → free ≠ []) :
    ∃ t s', walkpgdir (kva d) a true s = .ret (kva t + 4 * (a / 4096 % 1024), s') ∧
      Wf L s' (free.drop (tablesTaken s.mem d (a / 4096))) d ∧
      Moved ∅ d s free s' (free.drop (tablesTaken s.mem d (a / 4096))) ∧
      tab s'.mem d (a / 4096 / 1024) = some t ∧
      (tab s.mem d (a / 4096 / 1024) = none → free.head? = some t) ∧
      ∀ j, j ≠ a / 4096 / 1024 → tab s'.mem d j = tab s.mem d j := by
  unfold tablesTaken
  cases ht : tab s.mem d (a / 4096 / 1024) with
  | some t =>
    exact ⟨t, s, walkpgdir_tab h.tree.dir hva ht true, h, .refl _ _ _ _, ht, nofun, fun _ _ => rfl⟩
  | none =>
    cases free with
    | nil => exact absurd rfl (hroom ht)
    | cons t free =>
      obtain ⟨s', hret, hw, hm, htab, hj⟩ := walkpgdir_fresh h hva ht
      exact ⟨t, s', hret, hw, hm, htab, fun _ => rfl, hj⟩

theorem length_drop_tablesTaken (hroom : tab s.mem d (v / 1024) = none → free ≠ []) :
    (free.drop (tablesTaken s.mem d v)).length +
      (if tab s.mem d (v / 1024) = none then 1 else 0) = free.length := by
  unfold tablesTaken
  split_ifs with ht
  · have := List.length_pos_iff.2 (hroom ht)
    rw [List.length_drop]
    omega
  · rfl

theorem mappagesFrom_entry {s₁ : Kmem} (ht : t < 2 ^ 19)
    (hwalk : walkpgdir (kva d) (4096 * v) true s = .ret (kva t + 4 * (v % 1024), s₁))
    (hnp : present (s₁.mem.word t (v % 1024)) = false) :
    mappagesFrom (kva d) l r (n + 1) (4096 * v) b s =
      (fun s₂ => if 4096 * v = l then .ret (0, s₂)
        else mappagesFrom (kva d) l r n (add32 (4096 * v) PGSIZE) (add32 b PGSIZE) s₂)
      { s₁ with mem := s₁.mem.setWord t (v % 1024) (b ||| r ||| PTE_P) } := by
  have hmod := Nat.mod_lt v (show 0 < 1024 by omega)
  have hne : ¬kva t + 4 * (v % 1024) = 0 := by have := kva_ne_zero t; omega
  simp only [mappagesFrom, Prog.bind_apply, hwalk, Outcome.ret_bind, hne, if_false,
    load_kva ht hmod, hnp, Bool.false_eq_true, store_kva ht hmod]
  split_ifs <;> rfl

section Tables

variable (h : Based L s free d) (hv : v < 2 ^ 20)
include h hv

theorem mappagesFrom_full (hfree : free = []) (ht : tab s.mem d (v / 1024) = none) :
    mappagesFrom (kva d) l r (n + 1) (4096 * v) b s = .ret (-1, s) := by
  have hdiv : 4096 * v / 4096 = v := by omega
  subst hfree
  have hwalk := walkpgdir_full h (a := 4096 * v) (by omega) (by rwa [hdiv])
  simp [mappagesFrom, hwalk]

theorem mappagesFrom_remap (hp : present (pte s.mem d v) = true) :
    mappagesFrom (kva d) l r (n + 1) (4096 * v) b s = .panic "remap" := by
  have hdiv : 4096 * v / 4096 = v := by omega
  cases ht : tab s.mem d (v / 1024) with
  | none => simp [pte_of_tab_none ht] at hp
  | some t =>
    have hwalk := walkpgdir_tab h.dir (a := 4096 * v) (by omega) (by rwa [hdiv]) true
    have hl := load_kva (s := s) (h.dir.tab_lt (by omega) ht) (Nat.mod_lt v (show 0 < 1024 by omega))
    rw [pte_of_tab ht] at hp
    rw [hdiv] at hwalk
    simp [mappagesFrom, hwalk, hl, hp, kva_ne_zero]

end Tables

section Mappages

variable (h : Wf L s free d) (hv : v < 2 ^ 20)
include h hv

theorem mappagesFrom_round (hroom : tab s.mem d (v / 1024) = none → free ≠ [])
    (habs : present (pte s.mem d v) = false) :
    ∃ t s₁, Wf L s₁ (free.drop (tablesTaken s.mem d v)) d ∧
      Moved ∅ d s free s₁ (free.drop (tablesTaken s.mem d v)) ∧
      tab s₁.mem d (v / 1024) = some t ∧
      (tab s.mem d (v / 1024) = none → free.head? = some t) ∧
      (∀ j, j ≠ v / 1024 → tab s₁.mem d j = tab s.mem d j) ∧
      mappagesFrom (kva d) l r (n + 1) (4096 * v) b s =
        (fun s₂ => if 4096 * v = l then .ret (0, s₂)
          else mappagesFrom (kva d) l r n (add32 (4096 * v) PGSIZE) (add32 b PGSIZE) s₂)
        { s₁ with mem := s₁.mem.setWord t (v % 1024) (b ||| r ||| PTE_P) } := by
  have hdiv : 4096 * v / 4096 = v := by omega
  obtain ⟨t, s₁, hwalk, hw, hm, htab, hhead, hj⟩ :=
    walkpgdir_drop h (a := 4096 * v) (by omega) (by rwa [hdiv])
  rw [hdiv] at hwalk hw hm htab hhead hj
  refine ⟨t, s₁, hw, hm, htab, hhead, hj, mappagesFrom_entry
    (hw.tree.dir.tab_lt (show v / 1024 < 1024 by omega) htab) hwalk ?_⟩
  rw [← pte_of_tab htab, hm.outside v hv (Set.notMem_empty v)]
  exact habs

theorem mappagesFrom_next (hroom : tab s.mem d (v / 1024) = none → free ≠ [])
    (habs : present (pte s.mem d v) = false) :
    ∃ t s₁ free₁, Wf L s₁ free₁ d ∧ Moved ∅ d s free s₁ free₁ ∧
      tab s₁.mem d (v / 1024) = some t ∧
      (∀ j, j ≠ v / 1024 → tab s₁.mem d j = tab s.mem d j) ∧
      free₁.length + (if tab s.mem d (v / 1024) = none then 1 else 0) = free.length ∧
      mappagesFrom (kva d) l r (n + 1) (4096 * v) b s =
        (fun s₂ => if 4096 * v = l then .ret (0, s₂)
          else mappagesFrom (kva d) l r n (add32 (4096 * v) PGSIZE) (add32 b PGSIZE) s₂)
        { s₁ with mem := s₁.mem.setWord t (v % 1024) (b ||| r ||| PTE_P) } := by
  obtain ⟨t, s₁, hw, hm, htab, -, hj, hrun⟩ := mappagesFrom_round h hv hroom habs
  exact ⟨t, s₁, _, hw, hm, htab, hj, length_drop_tablesTaken hroom, hrun⟩

end Mappages

theorem mappages_page (hv : v < 2 ^ 20) : mappages (kva d) (4096 * v) PGSIZE b r =
    mappagesFrom (kva d) (4096 * v) r allPages (4096 * v) b := by
  have hlast : PGROUNDDOWN (sub32 (add32 (4096 * v) PGSIZE) 1) = 4096 * v := by
    simp only [PGROUNDDOWN, sub32, add32, PGSIZE]
    omega
  have hfirst : PGROUNDDOWN (4096 * v) = 4096 * v := by
    simp only [PGROUNDDOWN, PGSIZE]
    omega
  rw [mappages, hlast, hfirst]

theorem allPages_eq : allPages = 1048575 + 1 := rfl

theorem mappages_remap (h : Wf L s free d) (hv : v < 2 ^ 20)
    (hp : present (pte s.mem d v) = true) :
    mappages (kva d) (4096 * v) PGSIZE b r s = .panic "remap" := by
  rw [mappages_page hv, allPages_eq]
  exact mappagesFrom_remap h.based hv hp

theorem mappages_full (h : Wf L s [] d) (hv : v < 2 ^ 20) (ht : tab s.mem d (v / 1024) = none) :
    mappages (kva d) (4096 * v) PGSIZE b r s = .ret (-1, s) := by
  rw [mappages_page hv, allPages_eq]
  exact mappagesFrom_full h.based hv rfl ht

theorem mappages_user (h : Wf L s free d) (hv : v < UPAGES) (hpage : L.Page f) (hfree : f ∉ free)
    (hown : ¬Own s.mem d f) (hperm : r < 4096) (huser : user r = true)
    (hroom : tab s.mem d (v / 1024) = none → free ≠ []) (habs : present (pte s.mem d v) = false) :
    ∃ s' free', mappages (kva d) (4096 * v) PGSIZE (4096 * f) r s = .ret (0, s') ∧
      Wf L s' free' d ∧ Moved {v} d s (f :: free) s' free' ∧
      pte s'.mem d v = (4096 * f ||| r ||| PTE_P) ∧ s'.mem f = s.mem f ∧
      (∀ i, i ≠ v / 1024 → tab s'.mem d i = tab s.mem d i) ∧
      tab s'.mem d (v / 1024) ≠ none ∧
      free'.length + (if tab s.mem d (v / 1024) = none then 1 else 0) = free.length := by
  have hv20 : v < 2 ^ 20 := hv.trans UPAGES_lt
  obtain ⟨t, s₁, free₁, hw, hm, htab, hj, hlen, hrun⟩ := mappagesFrom_next h hv20 hroom habs
    (l := 4096 * v) (r := r) (n := 1048575) (b := 4096 * f)
  have hent : (4096 * f ||| r ||| PTE_P) < 2 ^ 32 := by
    have h1 := entry_lt hperm
    have h2 := hpage.lt
    rw [entry_eq hperm]
    omega
  have hdiv : (4096 * f ||| r ||| PTE_P) / 4096 = f := entry_frame hperm
  have hnot : ¬(f ∈ free₁ ∨ Own s₁.mem d f) := by
    rw [hm.conserve f]
    exact fun hor => hor.elim hfree hown
  have habs₁ : present (pte s₁.mem d v) = false := by
    rw [hm.outside v hv20 (Set.notMem_empty v)]
    exact habs
  obtain ⟨htree, hown₂⟩ := hw.tree.setPte htab hv habs₁ hent entry_present (entry_user huser)
    (by rwa [hdiv]) (by rw [hdiv]; exact fun hin => hnot (Or.inr hin))
  rw [hdiv] at hown₂
  have htabs := fun i => tab_setPte (i := i) (w := (4096 * f ||| r ||| PTE_P)) hw.tree.dir htab hv20
  have hptes := fun u (hu : u < 2 ^ 20) => pte_setPte hw.tree.dir htab hv20 hent hu
  have hinner : Inner s₁.mem d t := Or.inr ⟨v / 1024, by omega, htab⟩
  have hframe : ∀ q, q ∉ free → ¬Inner s.mem d q →
      (s₁.mem.setWord t (v % 1024) (4096 * f ||| r ||| PTE_P)) q = s.mem q := by
    intro q hq hin
    refine (Pages.setWord_of_ne _ ?_).trans (hm.frame q hq hin fun _ _ hn => absurd hn (by simp))
    rintro rfl
    have := (hm.conserve q).mp (Or.inr hinner.own)
    rcases own_inner_or_frm (this.resolve_left hq) with hin' | ⟨u, hu, hfu⟩
    · exact hin hin'
    · -- a frame of the old tree is still a frame, so it cannot be the table
      have hfu' : frm s₁.mem d u = some q := by
        rw [frm_congr (hm.outside u (hu.trans UPAGES_lt) (Set.notMem_empty u))]
        exact hfu
      exact hw.tree.frm_not_inner hu hfu' hinner
  refine ⟨{ s₁ with mem := s₁.mem.setWord t (v % 1024) (4096 * f ||| r ||| PTE_P) }, free₁, ?_,
    ⟨hw.pool.congr rfl fun q hq => ?_, htree, fun q hq ho => ?_⟩,
    ⟨fun u hu huv => ?_, fun q hq hin _ => hframe q (by simp_all) hin, fun q => ?_,
      fun i hi x hx => (htabs i).trans (hm.tables i hi x hx), fun u hu hpu => ?_⟩,
    (hptes v hv20).trans (if_pos rfl), hframe f hfree fun hin => hown hin.own,
    fun i hne => (htabs i).trans (hj i hne), ?_, hlen⟩
  · rw [mappages_page hv20, allPages_eq, hrun]
    simp
  · exact Pages.setWord_of_ne _ fun heq => hw.apart q hq (heq ▸ hinner.own)
  · rcases (hown₂ q).mp ho with ho | rfl
    · exact hw.apart q hq ho
    · exact hnot (Or.inl hq)
  · exact ((hptes u hu).trans (if_neg (by simpa using huv))).trans
      (hm.outside u hu (Set.notMem_empty u))
  · have hc := hm.conserve q
    show q ∈ free₁ ∨ Own _ d q ↔ _
    rw [hown₂ q, ← or_assoc, hc]
    simp only [List.mem_cons]
    tauto
  · have hpte := hptes u (hu.trans UPAGES_lt)
    by_cases huv : u = v
    · rw [hpte, if_pos huv, entry_present] at hpu
      cases hpu
    · rw [if_neg huv] at hpte
      exact Or.inr (hpte.trans (hm.outside u (hu.trans UPAGES_lt) (Set.notMem_empty u)))
  · show tab (s₁.mem.setWord t _ _) d _ ≠ none
    rw [htabs, htab]
    simp

end Xv6.Vm
