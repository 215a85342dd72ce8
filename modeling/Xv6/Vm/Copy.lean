import Xv6.Vm.Kernel

/-!
# Copying an address space

`copyuvm` builds a second directory with copies of the pages `[0, sz)` and of the stack
pages. It panics on a page the source lacks or one it would map twice. Out of memory it
frees the new directory; the page it could not map is lost then, so pages only ever
leave the pool: `Within`.
-/

namespace Xv6.Vm
open Lib

variable {L : Link} {R : Set ℕ} {s s' s'' : Kmem} {free free' free'' : List ℕ} {d g u v f w : ℕ}

structure Within (d : ℕ) (s : Kmem) (free : List ℕ) (s' : Kmem) (free' : List ℕ) : Prop where
  other : ∀ p, p ∉ free → ¬Own s.mem d p → s'.mem p = s.mem p
  back : ∀ p, p ∈ free' ∨ Own s'.mem d p → p ∈ free ∨ Own s.mem d p

theorem Moved.within (h : Moved R d s free s' free') : Within d s free s' free' :=
  ⟨fun _ => h.other, fun p => (h.conserve p).mp⟩

theorem Within.trans (h : Within d s free s' free') (h' : Within d s' free' s'' free'') :
    Within d s free s'' free'' where
  other p hp ho := by
    have hn : ¬(p ∈ free' ∨ Own s'.mem d p) := fun hor => (h.back p hor).elim hp ho
    exact (h'.other p (fun hin => hn (Or.inl hin)) fun hin => hn (Or.inr hin)).trans
      (h.other p hp ho)
  back p hp := h.back p (h'.back p hp)

structure Beside (L : Link) (s : Kmem) (free : List ℕ) (d g : ℕ) : Prop where
  tree : Tree L s.mem g
  apart : ∀ p, Own s.mem g p → p ∉ free ∧ ¬Own s.mem d p

theorem Beside.mem_eq (h : Beside L s free d g) (hw : Within d s free s' free') {p : ℕ}
    (hp : Own s.mem g p) : s'.mem p = s.mem p :=
  hw.other p (h.apart p hp).1 (h.apart p hp).2

theorem Beside.within (h : Beside L s free d g) (hw : Within d s free s' free') :
    Beside L s' free' d g ∧ (∀ i, tab s'.mem g i = tab s.mem g i) ∧
      (∀ v < 2 ^ 20, pte s'.mem g v = pte s.mem g v) ∧ ∀ p, Own s'.mem g p ↔ Own s.mem g p := by
  obtain ⟨htab, hpte, htree, hown⟩ := h.tree.keep fun _ hp => h.mem_eq hw hp.own
  refine ⟨⟨htree, fun p hp => ?_⟩, htab, hpte, hown⟩
  have ha := h.apart p ((hown p).mp hp)
  have hn : ¬(p ∈ free' ∨ Own s'.mem d p) := fun hor => (hw.back p hor).elim ha.1 ha.2
  exact ⟨fun hin => hn (Or.inl hin), fun hin => hn (Or.inr hin)⟩

def Copied (s s' : Kmem) (d g u : ℕ) : Prop :=
  present (pte s.mem g u) = true ∧ ∃ f, pte s'.mem d u = (4096 * f ||| PTE_FLAGS (pte s.mem g u) ||| PTE_P) ∧
    s'.mem f = s.mem (pte s.mem g u / 4096)

def Uncopyable (s : Kmem) (d g u : ℕ) : Prop :=
  present (pte s.mem g u) = false ∨ present (pte s.mem d u) = true

inductive CopyOutcome (L : Link) (d g : ℕ) (R : Set ℕ) (s : Kmem) (free : List ℕ) :
    Outcome (Bool × Kmem) → Prop
  | copied {s' : Kmem} {free' : List ℕ} (hw : Wf L s' free' d) (hm : Moved R d s free s' free')
      (hc : ∀ u ∈ R, Copied s s' d g u) : CopyOutcome L d g R s free (.ret (true, s'))
  | failed {s' : Kmem} {free' : List ℕ} (hw : Wf L s' free' d) (hm : Within d s free s' free') :
      CopyOutcome L d g R s free (.ret (false, s'))
  | panicked {m : String} {u : ℕ} (hu : u ∈ R) (hbad : Uncopyable s d g u) :
      CopyOutcome L d g R s free (.panic m)

theorem flags_user (h : user w = true) : user (PTE_FLAGS w) = true := by
  rw [user_iff] at h ⊢
  rw [PTE_FLAGS, PGSIZE, show 4096 = 2 ^ 12 from rfl, Nat.testBit_mod_two_pow]
  simp [h]

theorem flags_lt (w : ℕ) : PTE_FLAGS w < 4096 := Nat.mod_lt _ (by decide)

theorem copyuvmPage_spec (h : Wf L s free d) (hg : Beside L s free d g) {i : ℕ} (hi : i < 2 ^ 32)
    (hu : i / 4096 = u) (huU : u < UPAGES) :
    CopyOutcome L d g {u} s free (copyuvmPage (kva g) (kva d) i (4096 * u) s) := by
  have hu20 : u < 2 ^ 20 := huU.trans UPAGES_lt
  cases ht : tab s.mem g (u / 1024) with
  | none =>
    have hwalk := walkpgdir_none hg.tree.dir hi (by rwa [hu])
    have hrun : copyuvmPage (kva g) (kva d) i (4096 * u) s =
        .panic "copyuvm: pte should exist" := by simp [copyuvmPage, hwalk]
    rw [hrun]
    exact .panicked rfl (Or.inl (by rw [pte_of_tab_none ht]; rfl))
  | some t =>
    have hwalk := walkpgdir_tab hg.tree.dir hi (by rwa [hu]) false
    have hl := load_kva (s := s) (hg.tree.dir.tab_lt (show u / 1024 < 1024 by omega) ht)
      (Nat.mod_lt u (show 0 < 1024 by omega))
    rw [hu] at hwalk
    rw [← pte_of_tab ht] at hl
    by_cases hp : present (pte s.mem g u) = true
    swap
    · have hrun : copyuvmPage (kva g) (kva d) i (4096 * u) s =
          .panic "copyuvm: page not present" := by
        simp [copyuvmPage, hwalk, kva_ne_zero, hl, hp]
      rw [hrun]
      exact .panicked rfl (Or.inl (by simpa using hp))
    cases free with
    | nil =>
      have hrun : copyuvmPage (kva g) (kva d) i (4096 * u) s = .ret (false, s) := by
        simp [copyuvmPage, hwalk, kva_ne_zero, hl, hp, h.pool.kalloc_nil]
      rw [hrun]
      exact .failed h ⟨fun _ _ _ => rfl, fun _ hor => hor⟩
    | cons f free =>
      have hfrm : frm s.mem g u = some (pte s.mem g u / 4096) := frm_eq_some.mpr ⟨hp, rfl⟩
      have hsrc := hg.tree.page _ (Tree.frm_own huU hfrm)
      have hflt : f < 2 ^ 19 := by have := (h.pool.page f (by simp)).lt; omega
      have hslt : pte s.mem g u / 4096 < 2 ^ 19 := by have := hsrc.lt; omega
      have hcopy : copyPage (kva f) (P2V (PTE_ADDR (pte s.mem g u)))
          { s with freelist := s.mem.word f 0 } =
          .ret ((), taken s f (s.mem (pte s.mem g u / 4096))) := by
        rw [P2V_PTE_ADDR hslt]
        exact copyPage_kva hflt hslt
      have hstart : copyuvmPage (kva g) (kva d) i (4096 * u) s =
          (mappages (kva d) (4096 * u) PGSIZE (4096 * f) (PTE_FLAGS (pte s.mem g u))
            (taken s f (s.mem (pte s.mem g u / 4096)))).bind
              fun r => .ret (decide (0 ≤ r.1), r.2) := by
        simp [copyuvmPage, hwalk, kva_ne_zero, hl, hp, h.pool.kalloc_cons, hcopy,
          V2P_kva_zero hflt]
      have hf : ¬Own s.mem d f := h.apart f (by simp)
      obtain ⟨htab₁, hpte₁, -, hown₁⟩ := h.tree.of_other hf (show ∀ q, q ≠ f →
        (taken s f (s.mem (pte s.mem g u / 4096))).mem q = s.mem q from fun _ hq => taken_mem hq)
      rw [hstart]
      by_cases hpd : present (pte s.mem d u) = true
      · rw [mappages_remap h.taken hu20 (by rw [hpte₁ u hu20]; exact hpd), Outcome.panic_bind]
        exact .panicked rfl (Or.inr hpd)
      have hpd : present (pte s.mem d u) = false := by simpa using hpd
      by_cases hroom : tab s.mem d (u / 1024) = none → free ≠ []
      swap
      · -- the page just taken is lost
        push Not at hroom
        obtain ⟨htn, rfl⟩ := hroom
        rw [mappages_full h.taken hu20 ((htab₁ _).trans htn), Outcome.ret_bind]
        refine .failed h.taken ⟨fun p hp _ => taken_mem fun heq => hp (by simp [heq]),
          fun p hor => ?_⟩
        rcases hor with hin | ho
        · simp at hin
        · exact Or.inr ((hown₁ p).mp ho)
      · obtain ⟨s', free', hmap, hw, hm, hpte, hmem, -⟩ :=
          map_taken h (c := s.mem (pte s.mem g u / 4096)) (flags_lt (pte s.mem g u))
            (flags_user (hg.tree.user u huU hp)) huU hpd hroom
        rw [hmap, Outcome.ret_bind]
        refine .copied hw hm fun x hx => ?_
        rw [Set.mem_singleton_iff.mp hx]
        exact ⟨hp, f, hpte, hmem⟩

theorem Copied.moved (hc : Copied s s' d g v) (hv : v < UPAGES) (hw : Wf L s' free' d)
    (hm : Moved R d s' free' s'' free'') (hR : v ∉ R) : Copied s s'' d g v := by
  obtain ⟨hp, f, hpte, hmem⟩ := hc
  have hfrm : frm s'.mem d v = some f := by
    rw [frm, hpte, if_pos entry_present, entry_frame (flags_lt _)]
  refine ⟨hp, f, (hm.outside v (hv.trans UPAGES_lt) hR).trans hpte, ?_⟩
  rw [hm.frame f (fun hin => hw.apart f hin (Tree.frm_own hv hfrm))
    (hw.tree.frm_not_inner hv hfrm) fun u hu huR hfu =>
      hR (hw.tree.frm_inj hu hv hfu hfrm ▸ huR)]
  exact hmem

theorem CopyOutcome.cons {o : Outcome (Bool × Kmem)} (hg : Beside L s free d g)
    (hw : Wf L s' free' d) (hm : Moved {u} d s free s' free') (hc : Copied s s' d g u)
    (huU : u < UPAGES) (hR : ∀ v ∈ R, v < UPAGES) (hu : u ∉ R)
    (ho : CopyOutcome L d g R s' free' o) : CopyOutcome L d g (insert u R) s free o := by
  obtain ⟨-, -, hpteg, -⟩ := hg.within hm.within
  have hframe : ∀ v ∈ R, present (pte s.mem g v) = true →
      s'.mem (pte s.mem g v / 4096) = s.mem (pte s.mem g v / 4096) := fun v hv hp =>
    hg.mem_eq hm.within (Tree.frm_own (hR v hv) (frm_eq_some.mpr ⟨hp, rfl⟩))
  cases ho with
  | @copied s'' free'' hw'' hm'' hc'' =>
    refine .copied hw'' ((hm.mono (by simp)).trans hw.tree.toBare hw.apart (hm''.mono (by simp))) ?_
    intro v hv
    rcases Set.mem_insert_iff.mp hv with rfl | hv
    · exact hc.moved huU hw hm'' hu
    · obtain ⟨hp, f, hpte, hmem⟩ := hc'' v hv
      rw [hpteg v ((hR v hv).trans UPAGES_lt)] at hp hpte hmem
      exact ⟨hp, f, hpte, hmem.trans (hframe v hv hp)⟩
  | @failed s'' free'' hw'' hm'' => exact .failed hw'' (hm.within.trans hm'')
  | @panicked m v hv hbad =>
    refine .panicked (u := v) (Set.mem_insert_of_mem u hv) ?_
    have hvu : v ≠ u := fun heq => hu (heq ▸ hv)
    rcases hbad with hb | hb
    · exact Or.inl (by rwa [hpteg v ((hR v hv).trans UPAGES_lt)] at hb)
    · exact Or.inr (by rwa [hm.outside v ((hR v hv).trans UPAGES_lt) (by simpa using hvu)] at hb)

theorem CopyOutcome.nil (h : Wf L s free d) : CopyOutcome L d g ∅ s free (.ret (true, s)) :=
  .copied h (Moved.refl _ _ _ _) fun _ hu => hu.elim

theorem CopyOutcome.round {k : Prog Kmem Bool} {o : Outcome (Bool × Kmem)}
    (hg : Beside L s free d g) (ho : CopyOutcome L d g {u} s free o) (huU : u < UPAGES)
    (hR : ∀ v ∈ R, v < UPAGES) (hu : u ∉ R)
    (hk : ∀ s' free', Wf L s' free' d → Beside L s' free' d g →
      CopyOutcome L d g R s' free' (k s')) :
    CopyOutcome L d g (insert u R) s free
      (o.bind fun r => (if r.1 then k else pure false : Prog Kmem Bool) r.2) := by
  cases ho with
  | @copied s' free' hw hm hc =>
    simp only [Outcome.ret_bind, if_true]
    exact (hk s' free' hw (hg.within hm.within).1).cons hg hw hm (hc u rfl) huU hR hu
  | @failed s' free' hw hm =>
    simp only [Outcome.ret_bind, Bool.false_eq_true, if_false, Prog.pure_apply]
    exact .failed hw hm
  | @panicked m v hv hbad =>
    simp only [Outcome.panic_bind]
    exact .panicked (Set.mem_insert_iff.mpr (Or.inl hv)) hbad

theorem copyHeap_spec {sz : ℕ} (hsz : sz ≤ KERNBASE) {n : ℕ} (hfuel : pages sz < u + n)
    (hu : u ≤ pages sz) (h : Wf L s free d) (hg : Beside L s free d g) :
    CopyOutcome L d g (Set.Ico u (pages sz)) s free
      (copyHeap (kva g) (kva d) sz n (4096 * u) s) := by
  induction n generalizing u s free with
  | zero => omega
  | succ n ih =>
    have hE := pages_le hsz
    have hU : UPAGES = 2 ^ 19 := rfl
    by_cases hlt : 4096 * u < sz
    · have hup : u < pages sz := lt_iff_pages.mp hlt
      have hset : Set.Ico u (pages sz) = insert u (Set.Ico (u + 1) (pages sz)) := by
        ext x
        simp only [Set.mem_Ico, Set.mem_insert_iff]
        omega
      simp only [copyHeap, hlt, if_true, Prog.bind_apply, add32_page (show u < 2 ^ 19 by omega),
        hset]
      refine CopyOutcome.round hg (copyuvmPage_spec h hg (by omega) (by omega) (by omega))
        (by omega) (fun v hv => hv.2.trans_le hE) (by simp) fun s' free' hw hg' => ?_
      exact ih (by omega) hup hw hg'
    · have hup : ¬u < pages sz := fun hup => hlt (lt_iff_pages.mpr hup)
      have hset : Set.Ico u (pages sz) = ∅ := Set.Ico_eq_empty hup
      simp only [copyHeap, hlt, if_false, Prog.pure_apply, hset]
      exact .nil h

theorem copyStack_spec {b : ℕ} {n : ℕ} (hfuel : u < b + n) (hu : b ≤ u) (huU : u < UPAGES)
    (h : Wf L s free d) (hg : Beside L s free d g) :
    CopyOutcome L d g (Set.Ioc b u) s free
      (copyStack (kva g) (kva d) (4096 * b + 4092) n (4096 * u + 4092) s) := by
  induction n generalizing u s free with
  | zero => omega
  | succ n ih =>
    have hU : UPAGES = 2 ^ 19 := rfl
    by_cases hlt : b < u
    · obtain ⟨v, rfl⟩ : ∃ v, u = v + 1 := ⟨u - 1, by omega⟩
      have hset : Set.Ioc b (v + 1) = insert (v + 1) (Set.Ioc b v) := by
        ext x
        simp only [Set.mem_Ioc, Set.mem_insert_iff]
        omega
      have hrun : 4096 * b + 4092 < 4096 * (v + 1) + 4092 := by omega
      have hdown : PGROUNDDOWN (4096 * (v + 1) + 4092) = 4096 * (v + 1) := by
        simp only [PGROUNDDOWN, PGSIZE]
        omega
      have hsub : sub32 (4096 * (v + 1) + 4092) PGSIZE = 4096 * v + 4092 := by
        simp only [sub32, PGSIZE]
        omega
      simp only [copyStack, hrun, if_true, Prog.bind_apply, hdown, hsub, hset]
      refine CopyOutcome.round hg (copyuvmPage_spec h hg (by omega) (by omega) huU)
        huU (fun x hx => by have := hx.2; omega) (by simp) fun s' free' hw hg' => ?_
      exact ih (by omega) (by omega) (by omega) hw hg'
    · have hset : Set.Ioc b u = ∅ := Set.Ioc_eq_empty hlt
      have hrun : ¬4096 * b + 4092 < 4096 * u + 4092 := by omega
      simp only [copyStack, hrun, if_false, Prog.pure_apply, hset]
      exact .nil h

def stackPages (stackSize : ℕ) : Set ℕ :=
  {u | stackSize % 2 ^ 20 < UPAGES ∧ UPAGES - stackSize % 2 ^ 20 ≤ u ∧ u < UPAGES}

theorem bottom_eq {n : ℕ} (h : n % 2 ^ 20 < UPAGES) :
    bottom n = 4096 * (UPAGES - 1 - n % 2 ^ 20) + 4092 := by
  simp only [bottom, sub32, STACK_TOP, KERNBASE, PGSIZE, UPAGES] at *
  omega

theorem lt_bottom {n : ℕ} (h : ¬n % 2 ^ 20 < UPAGES) : KERNBASE < bottom n := by
  simp only [bottom, sub32, STACK_TOP, KERNBASE, PGSIZE, UPAGES] at *
  omega

theorem stackPages_eq {n : ℕ} (h : n % 2 ^ 20 < UPAGES) :
    stackPages n = Set.Ioc (UPAGES - 1 - n % 2 ^ 20) (UPAGES - 1) := by
  ext u
  simp only [stackPages, Set.mem_ofPred_eq, Set.mem_Ioc]
  omega

theorem copyStack_top {n : ℕ} (h : Wf L s free d) (hg : Beside L s free d g) :
    CopyOutcome L d g (stackPages n) s free
      (copyStack (kva g) (kva d) (bottom n) allPages STACK_TOP s) := by
  have hU : UPAGES = 2 ^ 19 := rfl
  by_cases hn : n % 2 ^ 20 < UPAGES
  · rw [bottom_eq hn, stackPages_eq hn]
    exact copyStack_spec (u := UPAGES - 1) (by simp only [allPages]; omega) (by omega) (by omega)
      h hg
  · have hset : stackPages n = ∅ := Set.eq_empty_of_forall_notMem fun u hu => hn hu.1
    have hstop : ¬bottom n < STACK_TOP := by
      have := lt_bottom hn
      simp only [STACK_TOP]
      omega
    rw [hset, allPages_eq, copyStack, if_neg hstop, Prog.pure_apply]
    exact .nil h

inductive CopyuvmOutcome (L : Link) (g sz stackSize : ℕ) (s : Kmem) (free : List ℕ) :
    Outcome (ℕ × Kmem) → Prop
  | built {d : ℕ} {s' : Kmem} {free' : List ℕ} (hw : Wf L s' free' d) (hk : Kern L s'.mem d)
      (hback : ∀ p, p ∈ free' ∨ Own s'.mem d p → p ∈ free)
      (hm : ∀ p, p ∉ free → s'.mem p = s.mem p)
      (hc : ∀ u ∈ Set.Ico 0 (pages sz) ∪ stackPages stackSize, Copied s s' d g u)
      (habs : ∀ u < UPAGES, u ∉ Set.Ico 0 (pages sz) ∪ stackPages stackSize →
        present (pte s'.mem d u) = false) :
      CopyuvmOutcome L g sz stackSize s free (.ret (kva d, s'))
  | failed {s' : Kmem} {free' : List ℕ} (hp : Pool L s' free') (hback : ∀ p ∈ free', p ∈ free)
      (hm : ∀ p, p ∉ free → s'.mem p = s.mem p) :
      CopyuvmOutcome L g sz stackSize s free (.ret (0, s'))
  | absent {m : String} {u : ℕ} (hu : u ∈ Set.Ico 0 (pages sz) ∪ stackPages stackSize)
      (habs : present (pte s.mem g u) = false) : CopyuvmOutcome L g sz stackSize s free (.panic m)
  | twice {m : String} {u : ℕ} (hu : u ∈ Set.Ico 0 (pages sz)) (hu' : u ∈ stackPages stackSize) :
      CopyuvmOutcome L g sz stackSize s free (.panic m)

theorem Copied.source {s₀ : Kmem} (h : Copied s s' d g u) (hu : u < UPAGES)
    (hp : pte s.mem g u = pte s₀.mem g u) (hm : ∀ p, Own s₀.mem g p → s.mem p = s₀.mem p) :
    Copied s₀ s' d g u := by
  obtain ⟨hpres, f, hpte, hmem⟩ := h
  rw [hp] at hpres hpte hmem
  exact ⟨hpres, f, hpte, hmem.trans (hm _ (Tree.frm_own hu (frm_eq_some.mpr ⟨hpres, rfl⟩)))⟩

theorem Copied.present (h : Copied s s' d g u) : present (pte s'.mem d u) = true := by
  obtain ⟨-, f, hpte, -⟩ := h
  rw [hpte]
  exact entry_present

theorem stackPages_lt {n : ℕ} (hu : u ∈ stackPages n) : u < UPAGES := hu.2.2

theorem copyuvm_spec {sz stackSize : ℕ} (h : Pool L s free) (ht : Tree L s.mem g)
    (ha : ∀ p, Own s.mem g p → p ∉ free) (hsz : sz ≤ KERNBASE) :
    CopyuvmOutcome L g sz stackSize s free (copyuvm L (kva g) sz stackSize s) := by
  have hE := pages_le hsz
  have hU : UPAGES = 2 ^ 19 := rfl
  generalize hset : setupkvm L s = o
  have ho : SetupOutcome L s free o := hset ▸ setupkvm_spec h
  cases ho with
  | failed hp hc hm _ =>
    simp only [copyuvm, Prog.bind_apply, hset, Outcome.ret_bind, if_true, Prog.pure_apply]
    exact .failed hp (fun p => (hc p).mp) hm
  | @built d s₁ free₁ hw₁ hk₁ hu₁ hc₁ hm₁ _ =>
    have hsrc : ∀ p, Own s.mem g p → s₁.mem p = s.mem p := fun p hp => hm₁ p (ha p hp)
    obtain ⟨-, hpte₁, htree₁, hown₁⟩ := ht.keep fun p hp => hsrc p hp.own
    have hg₁ : Beside L s₁ free₁ d g := by
      refine ⟨htree₁, fun p hp => ?_⟩
      have hn := ha p ((hown₁ p).mp hp)
      exact ⟨fun hin => hn ((hc₁ p).mp (Or.inl hin)), fun hin => hn ((hc₁ p).mp (Or.inr hin))⟩
    -- every failure frees the new directory
    have hfail : ∀ {s₂ free₂}, Wf L s₂ free₂ d → Within d s₁ free₁ s₂ free₂ →
        CopyuvmOutcome L g sz stackSize s free
          ((freevm L (kva d) s₂).bind fun r => .ret (0, r.2)) := by
      intro s₂ free₂ hw₂ hin
      obtain ⟨s₃, free₃, hrun, hp₃, hc₃, hm₃⟩ := freevm_spec hw₂
      rw [hrun, Outcome.ret_bind]
      refine .failed hp₃ (fun p hp => (hc₁ p).mp (hin.back p ((hc₃ p).mp hp))) fun p hp => ?_
      have hn : ¬(p ∈ free₁ ∨ Own s₁.mem d p) := fun hor => hp ((hc₁ p).mp hor)
      have hn₂ : ¬(p ∈ free₂ ∨ Own s₂.mem d p) := fun hor => hn (hin.back p hor)
      rw [not_or] at hn hn₂
      rw [hm₃ p hn₂.1 hn₂.2, hin.other p hn.1 hn.2, hm₁ p hp]
    have hstart : copyuvm L (kva g) sz stackSize s =
        (copyHeap (kva g) (kva d) sz allPages 0 s₁).bind fun r =>
          (if r.1 then
            (do
              let ok' ← copyStack (kva g) (kva d) (bottom stackSize) allPages STACK_TOP
              if ok' then return kva d
              else do
                freevm L (kva d)
                return 0 : Prog Kmem ℕ)
          else do
            freevm L (kva d)
            return 0) r.2 := by
      simp [copyuvm, hset, kva_ne_zero]
    rw [hstart]
    have hheap := copyHeap_spec (u := 0) hsz (n := allPages)
      (by simp only [allPages]; omega) (by omega) hw₁ hg₁
    rw [Nat.mul_zero] at hheap
    generalize copyHeap (kva g) (kva d) sz allPages 0 s₁ = o at hheap
    cases hheap with
    | @failed s₂ free₂ hw₂ hin =>
      simp only [Outcome.ret_bind, Bool.false_eq_true, if_false, Prog.bind_apply, Prog.pure_apply]
      exact hfail hw₂ hin
    | @panicked m u hu hbad =>
      have huU : u < UPAGES := hu.2.trans_le hE
      rw [Outcome.panic_bind]
      refine .absent (Or.inl hu) ?_
      rw [← hpte₁ u (huU.trans UPAGES_lt)]
      exact hbad.resolve_right (by simp [hu₁ u huU])
    | @copied s₂ free₂ hw₂ hm₂ hc₂ =>
      obtain ⟨hg₂, -, hpte₂, hown₂⟩ := hg₁.within hm₂.within
      have hstack := copyStack_top (n := stackSize) hw₂ hg₂
      simp only [Outcome.ret_bind, if_true, Prog.bind_apply]
      generalize copyStack (kva g) (kva d) (bottom stackSize) allPages STACK_TOP s₂ = o at hstack
      cases hstack with
      | @failed s₃ free₃ hw₃ hin =>
        simp only [Outcome.ret_bind, Bool.false_eq_true, if_false, Prog.bind_apply,
          Prog.pure_apply]
        exact hfail hw₃ (hm₂.within.trans hin)
      | @panicked m u hu hbad =>
        have huU := stackPages_lt hu
        have hu20 := huU.trans UPAGES_lt
        rw [Outcome.panic_bind]
        by_cases hboth : u ∈ Set.Ico 0 (pages sz)
        · exact .twice hboth hu
        · refine .absent (Or.inr hu) ?_
          rcases hbad with hb | hb
          · rwa [hpte₂ u hu20, hpte₁ u hu20] at hb
          · rw [hm₂.outside u hu20 hboth, hu₁ u huU] at hb
            simp at hb
      | @copied s₃ free₃ hw₃ hm₃ hc₃ =>
        simp only [Outcome.ret_bind, if_true, Prog.pure_apply]
        have hsrc₂ : ∀ p, Own s.mem g p → s₂.mem p = s.mem p := fun p hp =>
          (hg₁.mem_eq hm₂.within ((hown₁ p).mpr hp)).trans (hsrc p hp)
        have hback := hm₂.within.trans hm₃.within
        refine .built hw₃ (fun v hv hv20 => ?_) (fun p hp => (hc₁ p).mp (hback.back p hp))
          (fun p hp => ?_) (fun u hu => ?_) fun u hu hn => ?_
        · rw [hm₃.outside v hv20 fun hin => by have := stackPages_lt hin; omega,
            hm₂.outside v hv20 fun hin => by have := hin.2; omega, hk₁ v hv hv20]
        · have hn : ¬(p ∈ free₁ ∨ Own s₁.mem d p) := fun hor => hp ((hc₁ p).mp hor)
          rw [not_or] at hn
          rw [hback.other p hn.1 hn.2, hm₁ p hp]
        · by_cases hst : u ∈ stackPages stackSize
          · have huU := stackPages_lt hst
            have hu20 := huU.trans UPAGES_lt
            exact (hc₃ u hst).source huU ((hpte₂ u hu20).trans (hpte₁ u hu20)) hsrc₂
          · have hin := hu.resolve_right hst
            have huU : u < UPAGES := hin.2.trans_le hE
            exact ((hc₂ u hin).source huU (hpte₁ u (huU.trans UPAGES_lt)) hsrc).moved huU hw₂ hm₃ hst
        · simp only [Set.mem_union, not_or] at hn
          have hu20 := hu.trans UPAGES_lt
          rw [hm₃.outside u hu20 hn.2, hm₂.outside u hu20 hn.1, hu₁ u hu]

end Xv6.Vm
