import Xv6.Sys.Files
import Xv6.Sys.Space

/-!
# `sbrk` and page faults

Both work on the directory of the running process only. `spaceOf k i` is the address space
of process `i`; a call of `p` keeps the invariant, takes the space of `p` along `Sbrk` or
`Fault`, and leaves the spaces of the others alone.
-/

namespace Xv6.Sys
open Lib Vm

variable {L : Link} {k k' k'' : Kernel} {free free' : List ℕ} {p d : ℕ} {R : Set ℕ} {s' : Kmem}

def spaceOf (k : Kernel) (i : ℕ) : Space where
  sz := (k.proc i).sz
  stackSize := (k.proc i).stackSize
  mapped := {v | v < UPAGES ∧
    present (pte k.kmem.mem (V2P (k.proc i).pgdir / PGSIZE) v) = true}

structure Others (p : ℕ) (k k' : Kernel) : Prop where
  state : ∀ i, i ≠ p → (k'.proc i).state = (k.proc i).state
  space : ∀ i < NPROC, i ≠ p → hasSpace (k.proc i) → spaceOf k' i = spaceOf k i
  initproc : k'.initproc = k.initproc

theorem spaceOf_eq {i : ℕ} (hp : SameSpace (k.proc i) (k'.proc i))
    (hpte : ∀ v < 2 ^ 20, pte k'.kmem.mem (V2P (k.proc i).pgdir / PGSIZE) v =
      pte k.kmem.mem (V2P (k.proc i).pgdir / PGSIZE) v) : spaceOf k' i = spaceOf k i := by
  refine Space.ext hp.sz hp.stackSize (Set.ext fun v => ?_)
  simp only [spaceOf, Set.mem_ofPred_eq, hp.pgdir]
  refine and_congr_right fun hv => ?_
  rw [hpte v (hv.trans UPAGES_lt)]

theorem dirOf_proc {i : ℕ} (hi : i < NPROC) (hs : hasSpace (k.proc i)) :
    dirOf k (.proc i) = some (V2P (k.proc i).pgdir / PGSIZE) := by
  simp [dirOf, hi, hs]

theorem Keeps.space {i : ℕ} (h : Keeps k k') (hi : i < NPROC) (hs : hasSpace (k.proc i)) :
    spaceOf k' i = spaceOf k i :=
  spaceOf_eq (h.proc i) (h.pte _ _ (dirOf_proc hi hs))

theorem Inv.dir (h : Inv L k free) (hp : p < NPROC) (hs : hasSpace (k.proc p)) :
    ∃ d < 2 ^ 19, (k.proc p).pgdir = kva d ∧ dirOf k (.proc p) = some d ∧
      V2P (k.proc p).pgdir / PGSIZE = d := by
  obtain ⟨d, hd, hpg⟩ := h.pgdir p hp hs
  have hv : V2P (k.proc p).pgdir / PGSIZE = d := by rw [hpg, V2P_kva_div hd]
  exact ⟨d, hd, hpg, (dirOf_proc hp hs).trans (by rw [hv]), hv⟩

theorem mem_mapped (hv : V2P (k.proc p).pgdir / PGSIZE = d) {v : ℕ} :
    v ∈ (spaceOf k p).mapped ↔ v < UPAGES ∧ present (pte k.kmem.mem d v) = true := by
  simp [spaceOf, hv]

theorem ledger_update {x : Proc} (hstate : hasSpace x ↔ hasSpace (k.proc p))
    (hpgdir : x.pgdir = (k.proc p).pgdir) (hkstack : x.kstack = (k.proc p).kstack) :
    ledger { k with kmem := s', proc := Function.update k.proc p x } free = ledger k free := by
  have hproc : ∀ i, (hasSpace (Function.update k.proc p x i) ↔ hasSpace (k.proc i)) ∧
      (Function.update k.proc p x i).pgdir = (k.proc i).pgdir ∧
      (Function.update k.proc p x i).kstack = (k.proc i).kstack := by
    intro i
    by_cases hi : i = p
    · subst hi
      simp [hstate, hpgdir, hkstack]
    · simp [hi]
  have hdir : dirOf { k with kmem := s', proc := Function.update k.proc p x } = dirOf k := by
    funext o
    cases o with
    | proc i => simp only [dirOf, hproc i]
    | _ => rfl
  have hwhole : wholeOf { k with kmem := s', proc := Function.update k.proc p x } = wholeOf k := by
    funext y q
    cases y with
    | kstack i => simp [wholeOf, hproc i]
    | _ => rfl
  simp only [ledger, hdir, hwhole]

theorem Inv.moved (h : Inv L k free) (hd : dirOf k (.proc p) = some d) (hw : Wf L s' free' d)
    (hm : Moved R d k.kmem free s' free') (hR : ∀ v ∈ R, v < UPAGES) {x : Proc}
    (hs : hasSpace (k.proc p)) (hx : hasSpace x) (hpgdir : x.pgdir = (k.proc p).pgdir)
    (hkstack : x.kstack = (k.proc p).kstack) (hsz : x.sz ≤ KERNBASE) :
    Inv L { k with kmem := s', proc := Function.update k.proc p x } free' ∧
      Others p k { k with kmem := s', proc := Function.update k.proc p x } := by
  have hkern : Kern L s'.mem d := fun v hv hv20 => by
    rw [hm.outside v hv20 fun hin => absurd (hR v hin) (by omega)]
    exact h.sound.kern (.proc p) d hd v hv hv20
  have hsound := h.sound.moved (o := .proc p) hd hw hkern hm.within
  have hsp : ∀ i, hasSpace (Function.update k.proc p x i) ↔ hasSpace (k.proc i) := by
    intro i
    by_cases hi : i = p
    · subst hi
      simp [hs, hx]
    · simp [hi]
  refine ⟨⟨?_, fun i hi hs => ?_, fun i hi hs => ?_, fun i hi hu => ?_, fun i hi hs => ?_,
    ⟨h.pipes.unused, h.pipes.page, h.pipes.opened, h.pipes.ends⟩⟩, ⟨fun i hi => ?_, ?_, rfl⟩⟩
  · rw [ledger_update (iff_of_true hx hs) hpgdir hkstack]
    exact hsound
  · have := h.pgdir i hi ((hsp i).mp hs)
    by_cases hip : i = p
    · subst hip
      simpa [hpgdir] using this
    · simpa [hip] using this
  · have := h.kstack i hi ((hsp i).mp hs)
    by_cases hip : i = p
    · subst hip
      simpa [hkstack] using this
    · simpa [hip] using this
  · by_cases hip : i = p
    · subst hip
      simp only [Function.update_self] at hu
      exact absurd hu hx.1
    · simp only [Function.update_of_ne hip] at hu ⊢
      exact h.idle i hi hu
  · by_cases hip : i = p
    · subst hip
      simpa using hsz
    · simpa [hip] using h.sz i hi ((hsp i).mp hs)
  · simp [hi]
  · intro i hi hip hs
    refine spaceOf_eq (by simpa [hip] using SameSpace.refl (k.proc i)) ?_
    have hdi := dirOf_proc hi hs
    refine (h.sound.keep (o := .proc i) hdi fun q hq => hm.other ?_ ?_).2
    · exact h.sound.apart (o := .proc i) hdi hq.own
    · exact h.sound.own_disjoint (o := .proc i) (q := .proc p) hdi hd (by simp [hip]) hq.own

theorem switchuvm_ret {r : Unit × Kernel} (h : switchuvm p k = .ret r) : r = ((), k) := by
  simp only [switchuvm, Prog.get_bind] at h
  split_ifs at h
  · simp at h
  · simp at h
  · exact Prog.pure_ret h

theorem spaceOf_ext {y : Space} (hsz : (k'.proc p).sz = y.sz)
    (hstack : (k'.proc p).stackSize = y.stackSize) (hv : V2P (k'.proc p).pgdir / PGSIZE = d)
    (hm : {v | v < UPAGES ∧ present (pte k'.kmem.mem d v) = true} = y.mapped) :
    spaceOf k' p = y := by
  refine Space.ext hsz hstack ?_
  simp only [spaceOf, hv, hm]

theorem mapped_union (hv : V2P (k.proc p).pgdir / PGSIZE = d)
    (hm : Moved R d k.kmem free s' free') (hR : ∀ v ∈ R, v < UPAGES)
    (hpres : ∀ v ∈ R, present (pte s'.mem d v) = true) :
    {v | v < UPAGES ∧ present (pte s'.mem d v) = true} = (spaceOf k p).mapped ∪ R := by
  ext v
  rw [Set.mem_union, mem_mapped hv]
  by_cases hin : v ∈ R
  · simp [hin, hR v hin, hpres v hin]
  · simp only [Set.mem_ofPred_eq, hin, or_false]
    exact and_congr_right fun hlt => by rw [hm.outside v (hlt.trans UPAGES_lt) hin]

theorem mapped_diff (hv : V2P (k.proc p).pgdir / PGSIZE = d)
    (hm : Moved R d k.kmem free s' free') (habs : ∀ v ∈ R, present (pte s'.mem d v) = false) :
    {v | v < UPAGES ∧ present (pte s'.mem d v) = true} = (spaceOf k p).mapped \ R := by
  ext v
  rw [Set.mem_sdiff, mem_mapped hv]
  by_cases hin : v ∈ R
  · simp [hin, habs v hin]
  · simp only [Set.mem_ofPred_eq, hin, not_false_eq_true, and_true]
    exact and_congr_right fun hlt => by rw [hm.outside v (hlt.trans UPAGES_lt) hin]

def Local (L : Link) (p : ℕ) (k k' : Kernel) : Prop :=
  (∃ free', Inv L k' free') ∧ Others p k k' ∧ (k'.proc p).state = (k.proc p).state

theorem Local.refl (h : Inv L k free) : Local L p k k :=
  ⟨⟨free, h⟩, ⟨fun _ _ => rfl, fun _ _ _ _ => rfl, rfl⟩, rfl⟩

theorem Inv.local (h : Inv L k free) (hd : dirOf k (.proc p) = some d) (hw : Wf L s' free' d)
    (hm : Moved R d k.kmem free s' free') (hR : ∀ v ∈ R, v < UPAGES) {x : Proc}
    (hs : hasSpace (k.proc p)) (hstate : x.state = (k.proc p).state)
    (hpgdir : x.pgdir = (k.proc p).pgdir) (hkstack : x.kstack = (k.proc p).kstack)
    (hsz : x.sz ≤ KERNBASE) :
    Local L p k { k with kmem := s', proc := Function.update k.proc p x } := by
  have hx : hasSpace x := ⟨by rw [hstate]; exact hs.1, by rw [hstate]; exact hs.2⟩
  obtain ⟨hi, ho⟩ := h.moved hd hw hm hR hs hx hpgdir hkstack hsz
  exact ⟨⟨free', hi⟩, ho, by simpa using hstate⟩

theorem growproc_ret {n r : ℤ} (hrun : growproc L p n k = .ret (r, k')) :
    ∃ sz k₁, resize L (k.proc p) n k = .ret (sz, k₁) ∧
      ((n ≠ 0 ∧ sz = 0) ∧ k' = k₁ ∨
        ¬(n ≠ 0 ∧ sz = 0) ∧
          k' = { k₁ with proc := Function.update k₁.proc p { k₁.proc p with sz := sz } }) := by
  replace hrun := Prog.get_bind_ret hrun
  obtain ⟨sz, k₁, hsize, hrun⟩ := Prog.bind_ret hrun
  refine ⟨sz, k₁, hsize, ?_⟩
  split_ifs at hrun with hfail
  · cases Prog.pure_ret hrun
    exact Or.inl ⟨hfail, rfl⟩
  · replace hrun := Prog.modify_bind_ret hrun
    obtain ⟨_, k₃, hsw, hrun⟩ := Prog.bind_ret hrun
    obtain ⟨-, rfl⟩ := Prod.mk.inj (switchuvm_ret hsw)
    cases Prog.pure_ret hrun
    exact Or.inr ⟨hfail, rfl⟩

theorem update_same (s' : Kmem) :
    { k with kmem := s' } = { k with kmem := s', proc := Function.update k.proc p (k.proc p) } := by
  rw [Function.update_eq_self]

theorem sz_same :
    { k with proc := Function.update k.proc p { k.proc p with sz := (k.proc p).sz } } = k := by
  rw [Function.update_eq_self]

theorem growproc_grow (h : Inv L k free) (hp : p < NPROC) (hs : hasSpace (k.proc p)) {n : ℤ}
    (hn : 0 < n) (hlt : n < 2 ^ 31) {r : ℤ} (hrun : growproc L p n k = .ret (r, k')) :
    Local L p k k' ∧ (spaceOf k p).Sbrk n (spaceOf k' p) := by
  obtain ⟨d, -, hpg, hdir, hv⟩ := h.dir hp hs
  have hsz := h.sz p hp hs
  have hK : KERNBASE = 2 ^ 31 := rfl
  have hadd : add32 (k.proc p).sz n.toNat = (k.proc p).sz + n.toNat := by
    simp only [add32]
    omega
  obtain ⟨sz, k₁, hsize, hk'⟩ := growproc_ret hrun
  simp only [resize, hn, if_true, hpg, hadd] at hsize
  obtain ⟨_, s', halloc, hk₁⟩ := onMem_ret hsize
  obtain ⟨rfl, rfl⟩ := Prod.mk.inj hk₁
  by_cases hbig : KERNBASE ≤ (k.proc p).sz + n.toNat
  · simp only [allocuvm, hbig, if_true, Prog.pure_apply, Outcome.ret.injEq, Prod.mk.injEq] at halloc
    obtain ⟨rfl, rfl⟩ := halloc
    obtain rfl := (hk'.resolve_right fun hr => hr.1 ⟨hn.ne', rfl⟩).2
    exact ⟨.refl h, .same⟩
  have hsmall := Nat.not_le.mp hbig
  have ho := allocuvm_spec (h.sound.wf (o := .proc p) hdir) hsmall (Nat.le_add_right _ n.toNat)
  have hRU : ∀ v ∈ Set.Ico (pages (k.proc p).sz) (pages ((k.proc p).sz + n.toNat)), v < UPAGES :=
    fun v hin => hin.2.trans_le (pages_le hsmall.le)
  rw [halloc] at ho
  cases ho with
  | mapped hw hm hold hnew _ =>
    obtain rfl : k' = { k with
        kmem := s'
        proc := Function.update k.proc p { k.proc p with sz := (k.proc p).sz + n.toNat } } :=
      (hk'.resolve_left fun hl => by omega).2
    refine ⟨h.local hdir hw hm hRU hs rfl rfl rfl hsmall.le, ?_⟩
    have hfresh : ∀ v ∈ Set.Ico (pages (k.proc p).sz) (pages ((k.proc p).sz + n.toNat)),
        v ∉ (spaceOf k p).mapped := fun v hin hmem => by
      rw [mem_mapped hv, hold v hin] at hmem
      simp at hmem
    convert Space.Sbrk.grown (x := spaceOf k p) hn hsmall hfresh using 1
    exact spaceOf_ext (by simp [spaceOf]) (by simp [spaceOf]) (by simpa using hv)
      (mapped_union hv hm hRU fun v hin => (hnew v hin).present)
  | failed hw hm habs _ =>
    obtain rfl := (hk'.resolve_right fun hr => hr.1 ⟨hn.ne', rfl⟩).2
    rw [update_same (p := p)]
    refine ⟨h.local hdir hw hm hRU hs rfl rfl rfl hsz, ?_⟩
    convert Space.Sbrk.full (x := spaceOf k p) hn hsmall using 1
    exact spaceOf_ext (by simp [spaceOf]) (by simp [spaceOf]) (by simpa using hv)
      (mapped_diff hv hm habs)

theorem growproc_shrink (h : Inv L k free) (hp : p < NPROC) (hs : hasSpace (k.proc p)) {n : ℤ}
    (hn : n < 0) (hge : -2 ^ 31 ≤ n) {r : ℤ} (hrun : growproc L p n k = .ret (r, k')) :
    Local L p k k' ∧ (spaceOf k p).Sbrk n (spaceOf k' p) := by
  obtain ⟨d, -, hpg, hdir, hv⟩ := h.dir hp hs
  have hsz := h.sz p hp hs
  have hK : KERNBASE = 2 ^ 31 := rfl
  obtain ⟨sz, k₁, hsize, hk'⟩ := growproc_ret hrun
  simp only [resize, Int.not_lt.mpr hn.le, hn, if_true, if_false, hpg] at hsize
  obtain ⟨_, s', hdealloc, hk₁⟩ := onMem_ret hsize
  obtain ⟨rfl, rfl⟩ := Prod.mk.inj hk₁
  by_cases hover : (k.proc p).sz < (-n).toNat
  · -- the new size wraps around and is no smaller than the old one
    have hsub : (k.proc p).sz ≤ sub32 (k.proc p).sz (-n).toNat := by
      simp only [sub32]
      omega
    simp only [deallocuvm, hsub, if_true, Prog.pure_apply, Outcome.ret.injEq,
      Prod.mk.injEq] at hdealloc
    obtain ⟨rfl, rfl⟩ := hdealloc
    rcases hk' with ⟨-, rfl⟩ | ⟨-, rfl⟩
    · exact ⟨.refl h, .same⟩
    · rw [sz_same]
      exact ⟨.refl h, .same⟩
  have hsub : sub32 (k.proc p).sz (-n).toNat = (k.proc p).sz - (-n).toNat := by
    simp only [sub32]
    omega
  have hlt : (k.proc p).sz - (-n).toNat < (k.proc p).sz := by omega
  obtain ⟨s₁, free₁, hrun₁, hw, hm, habs, -⟩ :=
    deallocuvm_spec (h.sound.wf (o := .proc p) hdir) hsz hlt
  rw [hsub] at hdealloc
  obtain ⟨rfl, rfl⟩ := Outcome.ret_inj (hdealloc.symm.trans hrun₁)
  have hRU : ∀ v ∈ Set.Ico (pages ((k.proc p).sz - (-n).toNat)) (pages (k.proc p).sz), v < UPAGES :=
    fun v hin => hin.2.trans_le (pages_le hsz)
  rcases hk' with ⟨h0, rfl⟩ | ⟨h0, hk'⟩
  · rw [update_same (p := p)]
    refine ⟨h.local hdir hw hm hRU hs rfl rfl rfl hsz, ?_⟩
    convert Space.Sbrk.emptied (x := spaceOf k p) hn (by simp only [spaceOf]; omega) using 1
    rw [h0.2, show pages 0 = 0 from rfl] at hm habs
    exact spaceOf_ext (by simp [spaceOf]) (by simp [spaceOf]) (by simpa using hv)
      (mapped_diff hv hm habs)
  · obtain rfl : k' = { k with
        kmem := s'
        proc := Function.update k.proc p { k.proc p with sz := (k.proc p).sz - (-n).toNat } } := hk'
    refine ⟨h.local hdir hw hm hRU hs rfl rfl rfl (hlt.le.trans hsz), ?_⟩
    convert Space.Sbrk.shrunk (x := spaceOf k p) hn (by simp only [spaceOf]; omega) using 1
    exact spaceOf_ext (by simp [spaceOf]) (by simp [spaceOf]) (by simpa using hv)
      (mapped_diff hv hm habs)

theorem growproc_spec (h : Inv L k free) (hp : p < NPROC) (hs : hasSpace (k.proc p)) {n : ℤ}
    (hge : -2 ^ 31 ≤ n) (hlt : n < 2 ^ 31) {r : ℤ} (hrun : growproc L p n k = .ret (r, k')) :
    Local L p k k' ∧ (spaceOf k p).Sbrk n (spaceOf k' p) := by
  rcases lt_trichotomy 0 n with hn | rfl | hn
  · exact growproc_grow h hp hs hn hlt hrun
  · obtain ⟨sz, k₁, hsize, hk'⟩ := growproc_ret hrun
    obtain ⟨rfl, rfl⟩ : (k.proc p).sz = sz ∧ k = k₁ := by simpa [resize] using hsize
    obtain ⟨-, rfl⟩ := hk'.resolve_left (by simp)
    rw [sz_same]
    exact ⟨.refl h, .same⟩
  · exact growproc_shrink h hp hs hn hge hrun

theorem pgflt_ret {addr : ℕ} {u : Unit} (hrun : pgflt L p addr k = .ret (u, k')) :
    (bottom (k.proc p).stackSize < PGROUNDDOWN addr ∧ k' = k) ∨
    PGROUNDDOWN addr ≤ bottom (k.proc p).stackSize ∧
      bottom (k.proc p).stackSize < KERNBASE ∧ ∃ r s', r ≠ 0 ∧
      allocuvm L (k.proc p).pgdir (PGROUNDDOWN addr) (bottom (k.proc p).stackSize) k.kmem =
        .ret (r, s') ∧
      k' = { k with
        kmem := s'
        proc := Function.update k.proc p
          { k.proc p with stackSize := ((k.proc p).stackSize + 1) % 2 ^ 32 } } := by
  replace hrun := Prog.get_bind_ret hrun
  split_ifs at hrun with hle
  · obtain ⟨r, k₁, halloc, hrun⟩ := Prog.bind_ret hrun
    obtain ⟨_, s', halloc', hk₁⟩ := onMem_ret halloc
    obtain ⟨rfl, rfl⟩ := Prod.mk.inj hk₁
    split_ifs at hrun with h0
    · simp at hrun
    · cases Prog.modify_ret hrun
      refine Or.inr ⟨hle, Nat.not_le.mp fun hbig => h0 ?_, _, s', h0, halloc', rfl⟩
      rw [allocuvm, if_pos hbig] at halloc'
      exact (Outcome.ret_inj halloc').1.symm
  · cases Prog.pure_ret hrun
    exact Or.inl ⟨Nat.not_le.mp hle, rfl⟩

theorem pages_rounddown (addr : ℕ) : pages (PGROUNDDOWN addr) = addr / PGSIZE := by
  simp only [pages, PGROUNDDOWN, PGSIZE]
  omega

theorem pgflt_spec (h : Inv L k free) (hp : p < NPROC) (hs : hasSpace (k.proc p)) {addr : ℕ}
    {u : Unit} (hrun : pgflt L p addr k = .ret (u, k')) :
    Local L p k k' ∧ (spaceOf k p).Fault addr (spaceOf k' p) := by
  rcases pgflt_ret hrun with ⟨hlt, rfl⟩ | ⟨hle, hsmall, r, s', h0, halloc, rfl⟩
  · exact ⟨.refl h, .ignored hlt⟩
  obtain ⟨d, -, hpg, hdir, hv⟩ := h.dir hp hs
  rw [hpg] at halloc
  have ho := allocuvm_spec (h.sound.wf (o := .proc p) hdir) hsmall hle
  rw [halloc, pages_rounddown] at ho
  have hRU : ∀ v ∈ Set.Ico (addr / PGSIZE) (pages (bottom (k.proc p).stackSize)), v < UPAGES :=
    fun v hin => hin.2.trans_le (pages_le hsmall.le)
  cases ho with
  | failed => exact absurd rfl h0
  | mapped hw hm hold hnew _ =>
    refine ⟨h.local hdir hw hm hRU hs rfl rfl rfl (h.sz p hp hs), ?_⟩
    have hfresh : ∀ v ∈ Set.Ico (addr / PGSIZE) (pages (bottom (k.proc p).stackSize)),
        v ∉ (spaceOf k p).mapped := fun v hin hmem => by
      rw [mem_mapped hv, hold v hin] at hmem
      simp at hmem
    convert Space.Fault.grown (x := spaceOf k p) hle hsmall hfresh using 1
    exact spaceOf_ext (by simp [spaceOf]) (by simp [spaceOf]) (by simpa using hv)
      (mapped_union hv hm hRU fun v hin => (hnew v hin).present)

end Xv6.Sys
