import Xv6.Sys.Invariant
import Xv6.Vm.Build

/-!
# `growproc` grows or leaves alone

`growproc` takes 0 for an error, of `allocuvm` as of `deallocuvm`, and a failing `allocuvm`
unmaps the whole range that it was asked to map. So a call is all or nothing only when the
pages it is about are none of the stack, and when it does not shrink the process to nothing
or below.
-/

namespace Xv6.Sys
open Lib Vm

variable {L : Link} {k k' : Kernel} {free free' : List ℕ} {p d : ℕ} {n : ℤ} {s s' : Kmem}
  {R : Set ℕ}

/-- Process `p` has the directory `d` with the pages of its heap and of its stack. -/
structure Settled (L : Link) (k : Kernel) (free : List ℕ) (p d : ℕ) : Prop where
  pgdir : (k.proc p).pgdir = kva d
  kstack : (k.proc p).kstack ≠ 0
  wf : Wf L k.kmem free d
  heap : pages (k.proc p).sz ≤ UPAGES
  stack : (k.proc p).stackSize ≤ UPAGES
  mapped : Mapped k.kmem.mem d (k.proc p).sz (k.proc p).stackSize

def SamePage (m m' : Pages) (d v : ℕ) : Prop :=
  present (pte m' d v) = present (pte m d v) ∧
    ∀ f, frm m d v = some f → pte m' d v = pte m d v ∧ m' f = m f

def EmptyTable (m m' : Pages) (d q : ℕ) : Prop :=
  ∃ i < 1024, tab m d i = none ∧ tab m' d i = some q ∧
    ∀ v < 2 ^ 20, v / 1024 = i → present (pte m' d v) = false

structure Grown (k : Kernel) (p d : ℕ) (n : ℤ) (k' : Kernel) : Prop where
  sz : ((k'.proc p).sz : ℤ) = (k.proc p).sz + n
  proc : k'.proc = Function.update k.proc p { k.proc p with sz := (k'.proc p).sz }
  mapped : Mapped k'.kmem.mem d (k'.proc p).sz (k.proc p).stackSize
  old : ∀ v < pages (k.proc p).sz, v < pages (k'.proc p).sz → SamePage k.kmem.mem k'.kmem.mem d v
  fresh : ∀ v, pages (k.proc p).sz ≤ v → v < pages (k'.proc p).sz → Zeroed k'.kmem.mem d v
  stack : ∀ v < UPAGES, UPAGES - (k.proc p).stackSize ≤ v → SamePage k.kmem.mem k'.kmem.mem d v

structure Kept (L : Link) (k : Kernel) (free : List ℕ) (d : ℕ) (k' : Kernel) : Prop where
  proc : k'.proc = k.proc
  user : ∀ v < UPAGES, SamePage k.kmem.mem k'.kmem.mem d v
  pool : ∃ free', Pool L k'.kmem free' ∧
    ∀ q, q ∈ free ↔ q ∈ free' ∨ EmptyTable k.kmem.mem k'.kmem.mem d q

def AllOrNothing (L : Link) (k : Kernel) (free : List ℕ) (p d : ℕ) (n : ℤ) : Prop :=
  (∃ k', growproc L p n k = .ret (0, k') ∧ Grown k p d n k') ∨
    ∃ k', growproc L p n k = .ret (-1, k') ∧ Kept L k free d k'

/-- No page that the call would map or unmap is one of the stack, and a process that shrinks
keeps some memory. -/
structure Clear (sz stackSize : ℕ) (n : ℤ) : Prop where
  grow : 0 < n → sz + n < KERNBASE → ∀ v, pages sz ≤ v → v < pages (sz + n).toNat →
    v < UPAGES - stackSize
  shrink : n < 0 → 0 < sz → 0 < sz + n ∧
    ∀ v, pages (sz + n).toNat ≤ v → v < pages sz → v < UPAGES - stackSize

section Pages

theorem SamePage.refl (m : Pages) (d v : ℕ) : SamePage m m d v := ⟨rfl, fun _ _ => ⟨rfl, rfl⟩⟩

theorem samePage_of_moved (hw : Wf L s free d) (hm : Moved R d s free s' free') {v : ℕ}
    (hv : v < UPAGES) (hR : v ∉ R) : SamePage s.mem s'.mem d v := by
  have hpte := hm.outside v (Nat.lt_trans hv UPAGES_lt) hR
  refine ⟨by rw [hpte], fun f hf => ⟨hpte, hm.frame f ?_ ?_ ?_⟩⟩
  · exact fun hin => hw.apart f hin (Tree.frm_own hv hf)
  · exact hw.tree.frm_not_inner hv hf
  · exact fun u hu hin hf' => hR (hw.tree.frm_inj hv hu hf hf' ▸ hin)

theorem pool_of_moved (hw : Wf L s free d) (hm : Moved R d s free s' free') (hw' : Wf L s' free' d)
    (habs : ∀ v ∈ R, present (pte s.mem d v) = false)
    (habs' : ∀ v ∈ R, present (pte s'.mem d v) = false) (q : ℕ) :
    q ∈ free ↔ q ∈ free' ∨ EmptyTable s.mem s'.mem d q := by
  have hframe : ∀ v < UPAGES, frm s'.mem d v = frm s.mem d v := by
    intro v hv
    by_cases hin : v ∈ R
    · rw [frm_eq_none.2 (habs v hin), frm_eq_none.2 (habs' v hin)]
    · exact frm_congr (hm.outside v (Nat.lt_trans hv UPAGES_lt) hin)
  have hkeep : Own s.mem d q → Own s'.mem d q := by
    rw [own_iff, own_iff]
    rintro (hq | ⟨i, hi, ht⟩ | ⟨v, hv, hf⟩)
    · exact .inl hq
    · exact .inr (.inl ⟨i, hi, hm.tables i hi q ht⟩)
    · exact .inr (.inr ⟨v, hv, (hframe v hv).trans hf⟩)
  constructor
  · intro hq
    by_cases hq' : q ∈ free'
    · exact .inl hq'
    have hnot : ¬Own s.mem d q := hw.apart q hq
    have hown : Own s'.mem d q := ((hm.conserve q).2 (.inl hq)).resolve_left hq'
    rcases own_iff.1 hown with heq | ⟨i, hi, ht⟩ | ⟨v, hv, hf⟩
    · exact absurd (own_iff.2 (.inl heq)) hnot
    · have hnone : tab s.mem d i = none := by
        cases htab : tab s.mem d i with
        | none => rfl
        | some t =>
          rw [hm.tables i hi t htab] at ht
          exact absurd (Tree.tab_own hi (htab.trans ht)) hnot
      refine .inr ⟨i, hi, hnone, ht, fun v hv hvi => ?_⟩
      by_cases hin : v ∈ R
      · exact habs' v hin
      · rw [hm.outside v hv hin, pte_of_tab_none (hvi ▸ hnone)]
        rfl
    · exact absurd (Tree.frm_own hv ((hframe v hv).symm.trans hf)) hnot
  · rintro (hq | ⟨i, hi, hnone, ht, -⟩)
    · rcases (hm.conserve q).1 (.inl hq) with hq' | hown
      · exact hq'
      · exact absurd (hkeep hown) (hw'.apart q hq)
    · rcases (hm.conserve q).1 (.inr (Tree.tab_own hi ht)) with hq' | hown
      · exact hq'
      · -- a page has one place in the directory
        exfalso
        rcases own_iff.1 hown with rfl | ⟨j, hj, htj⟩ | ⟨v, hv, hf⟩
        · exact hw'.tree.dir.tab_ne_dir hi ht rfl
        · obtain rfl := hw'.tree.dir.tab_inj hi hj ht (hm.tables j hj q htj)
          rw [hnone] at htj
          cases htj
        · exact hw'.tree.frm_ne_tab hv hi ((hframe v hv).trans hf) ht rfl

end Pages

section Call

theorem growproc_of_resize (hpgdir : (k.proc p).pgdir = kva d) (hkstack : (k.proc p).kstack ≠ 0)
    {sz : ℕ}
    (hrun : resize L (k.proc p) n k = .ret (sz, { k with kmem := s' })) :
    growproc L p n k = if n ≠ 0 ∧ sz = 0 then .ret (-1, { k with kmem := s' }) else
      .ret (0, { k with
        kmem := s', proc := Function.update k.proc p { k.proc p with sz := sz } }) := by
  have hpg : kva d ≠ 0 := kva_ne_zero d
  unfold growproc
  rw [Prog.get_bind, Prog.bind_of_ret hrun]
  by_cases hz : n ≠ 0 ∧ sz = 0
  · rw [if_pos hz, if_pos hz]
    rfl
  · rw [if_neg hz, if_neg hz]
    simp [setProc, switchuvm, hkstack, hpgdir, hpg]

theorem growproc_panic {m : String} (hrun : resize L (k.proc p) n k = .panic m) :
    growproc L p n k = .panic m := by
  unfold growproc
  rw [Prog.get_bind, Prog.bind_apply, hrun]
  rfl

variable (h : Settled L k free p d)
include h

theorem Settled.sz_le : (k.proc p).sz ≤ KERNBASE := by
  have hheap := h.heap
  have hU : UPAGES = 524288 := rfl
  have hK : KERNBASE = 2147483648 := rfl
  unfold pages at hheap
  omega

theorem allOrNothing_zero : AllOrNothing L k free p d 0 := by
  have hrun : resize L (k.proc p) 0 k = .ret ((k.proc p).sz, { k with kmem := k.kmem }) := rfl
  have hgrow := growproc_of_resize h.pgdir h.kstack hrun
  rw [if_neg (by omega)] at hgrow
  have hsame : Function.update k.proc p { k.proc p with sz := (k.proc p).sz } = k.proc :=
    Function.update_eq_self p k.proc
  rw [hsame] at hgrow
  refine .inl ⟨k, hgrow, by omega, hsame.symm, h.mapped, fun v _ _ => .refl _ _ _, fun v h1 h2 => ?_,
    fun v _ _ => .refl _ _ _⟩
  omega

theorem grow_iff (hpos : 0 < n) (hlt : n < 2 ^ 31) :
    AllOrNothing L k free p d n ↔ ((k.proc p).sz + n < KERNBASE → ∀ v, pages (k.proc p).sz ≤ v →
      v < pages ((k.proc p).sz + n).toNat → v < UPAGES - (k.proc p).stackSize) := by
  have hsz := h.sz_le
  have hU : UPAGES = 524288 := rfl
  have hK : KERNBASE = 2147483648 := rfl
  obtain ⟨m, rfl⟩ := Int.eq_ofNat_of_zero_le hpos.le
  have hsum : ((k.proc p).sz + (m : ℤ)).toNat = (k.proc p).sz + m := by omega
  have hnew : add32 (k.proc p).sz m = (k.proc p).sz + m := by
    unfold add32
    omega
  have hres : resize L (k.proc p) m k =
      onMem (allocuvm L (kva d) (k.proc p).sz ((k.proc p).sz + m)) k := by
    rw [resize, if_pos hpos, Int.toNat_natCast, hnew, h.pgdir]
  rw [hsum]
  by_cases hbig : KERNBASE ≤ (k.proc p).sz + m
  · -- not below the kernel
    refine iff_of_true ?_ fun hlt => absurd hlt (by omega)
    have hrun : resize L (k.proc p) m k = .ret (0, { k with kmem := k.kmem }) := by
      rw [hres]
      refine onMem_of_ret ?_
      rw [allocuvm, if_pos hbig]
      rfl
    have hgrow := growproc_of_resize h.pgdir h.kstack hrun
    rw [if_pos ⟨by omega, rfl⟩] at hgrow
    refine .inr ⟨k, hgrow, rfl, fun v _ => .refl _ _ _, free, h.wf.pool, fun q => ?_⟩
    refine (or_iff_left ?_).symm
    rintro ⟨i, -, hnone, ht, -⟩
    rw [hnone] at ht
    cases ht
  · have hlt' : (k.proc p).sz + m < KERNBASE := Nat.not_le.1 hbig
    have hpages : pages ((k.proc p).sz + m) ≤ UPAGES := by
      unfold pages
      omega
    have hspec := allocuvm_spec h.wf hlt' (Nat.le_add_right _ m)
    generalize hrun : allocuvm L (kva d) (k.proc p).sz ((k.proc p).sz + m) k.kmem = o at hspec
    cases hspec with
    | @mapped s' free' hw hm hold hz hneed =>
      have hgrow := growproc_of_resize h.pgdir h.kstack (hres.trans (onMem_of_ret hrun))
      rw [if_neg (by omega)] at hgrow
      have hstack : ∀ v, pages (k.proc p).sz ≤ v → v < pages ((k.proc p).sz + m) →
          v < UPAGES - (k.proc p).stackSize := by
        intro v h1 h2
        by_contra hge
        have := hold v ⟨h1, h2⟩
        rw [(h.mapped v (by omega)).2 (.inr (Nat.not_lt.1 hge))] at this
        cases this
      refine iff_of_true (.inl ⟨_, hgrow, ?_⟩) fun _ => hstack
      have hnewsz : (Function.update k.proc p
          { k.proc p with sz := (k.proc p).sz + m } p).sz = (k.proc p).sz + m := by
        rw [Function.update_self]
      refine
        { sz := by rw [hnewsz]; push_cast; rfl
          proc := by rw [hnewsz]
          mapped := ?_
          old := fun v h1 _ => samePage_of_moved h.wf hm (Nat.lt_of_lt_of_le h1 h.heap)
            fun hin => ?_
          fresh := fun v h1 h2 => hz v ⟨h1, hnewsz ▸ h2⟩
          stack := fun v h1 h2 => samePage_of_moved h.wf hm h1 fun hin => ?_ }
      · rw [hnewsz]
        intro v hv
        by_cases hin : v ∈ Set.Ico (pages (k.proc p).sz) (pages ((k.proc p).sz + m))
        · exact iff_of_true (hz v hin).present (.inl hin.2)
        · rw [hm.outside v (Nat.lt_trans hv UPAGES_lt) hin, h.mapped v hv]
          have : pages (k.proc p).sz ≤ pages ((k.proc p).sz + m) := by
            unfold pages
            omega
          rw [Set.mem_Ico] at hin
          omega
      · exact Nat.not_lt.2 hin.1 h1
      · exact Nat.not_lt.2 h2 (hstack v hin.1 hin.2)
    | @failed s' free' hw hm habs hneed =>
      have hgrow := growproc_of_resize h.pgdir h.kstack (hres.trans (onMem_of_ret hrun))
      rw [if_pos ⟨by omega, rfl⟩] at hgrow
      constructor
      · -- a stack page in the range would be gone
        intro hall _ v h1 h2
        by_contra hge
        have hv : v < UPAGES := by omega
        have hp := (h.mapped v hv).2 (.inr (Nat.not_lt.1 hge))
        rcases hall with ⟨k', hret, -⟩ | ⟨k', hret, hkept⟩
        · rw [hgrow] at hret
          cases hret
        · rw [hgrow] at hret
          cases hret
          have := (hkept.user v hv).1
          rw [hp, habs v ⟨h1, h2⟩] at this
          cases this
      · intro hstack
        have hold : ∀ v ∈ Set.Ico (pages (k.proc p).sz) (pages ((k.proc p).sz + m)),
            present (pte k.kmem.mem d v) = false := by
          intro v hv
          have hlow := hstack (by omega) v hv.1 hv.2
          refine Bool.eq_false_iff.2 fun hp => ?_
          have := (h.mapped v (by omega)).1 hp
          have := hv.1
          omega
        refine .inr ⟨_, hgrow, rfl, fun v hv => ?_, free', hw.pool, fun q =>
          pool_of_moved h.wf hm hw hold habs q⟩
        by_cases hin : v ∈ Set.Ico (pages (k.proc p).sz) (pages ((k.proc p).sz + m))
        · refine ⟨by rw [habs v hin, hold v hin], fun f hf => ?_⟩
          rw [frm_eq_none.2 (hold v hin)] at hf
          cases hf
        · exact samePage_of_moved h.wf hm hv hin
    | @remap u hu hp =>
      have hpanic := growproc_panic (hres.trans (by rw [onMem, hrun]; rfl))
      refine iff_of_false ?_ fun hstack => ?_
      · rintro (⟨k', hret, -⟩ | ⟨k', hret, -⟩)
        · rw [hpanic] at hret
          cases hret
        · rw [hpanic] at hret
          cases hret
      · have hlow := hstack (by omega) u hu.1 hu.2
        have := (h.mapped u (by omega)).1 hp
        have := hu.1
        omega

theorem shrink_iff (hneg : n < 0) (hge : -2 ^ 31 ≤ n) :
    AllOrNothing L k free p d n ↔ (0 < (k.proc p).sz → 0 < (k.proc p).sz + n ∧
      ∀ v, pages ((k.proc p).sz + n).toNat ≤ v → v < pages (k.proc p).sz →
        v < UPAGES - (k.proc p).stackSize) := by
  have hsz := h.sz_le
  have hheap := h.heap
  have hU : UPAGES = 524288 := rfl
  have hK : KERNBASE = 2147483648 := rfl
  obtain ⟨m, hm⟩ := Int.eq_ofNat_of_zero_le (show 0 ≤ -n by omega)
  obtain rfl : n = -(m : ℤ) := by omega
  have hres : resize L (k.proc p) (-m) k =
      onMem (deallocuvm L (kva d) (k.proc p).sz (sub32 (k.proc p).sz m)) k := by
    rw [resize, if_neg (by omega), if_pos hneg, neg_neg, Int.toNat_natCast, h.pgdir]
  by_cases hbelow : (k.proc p).sz < m
  · -- the new size wraps around, and is larger than the old one
    have hrun : resize L (k.proc p) (-m) k =
        .ret ((k.proc p).sz, { k with kmem := k.kmem }) := by
      rw [hres]
      refine onMem_of_ret ?_
      rw [deallocuvm, if_pos (by unfold sub32; omega)]
      rfl
    have hgrow := growproc_of_resize h.pgdir h.kstack hrun
    by_cases hzero : (k.proc p).sz = 0
    · rw [if_pos ⟨by omega, hzero⟩] at hgrow
      refine iff_of_true (.inr ⟨k, hgrow, rfl, fun v _ => .refl _ _ _, free, h.wf.pool,
        fun q => ?_⟩) fun hpos => absurd hpos (by omega)
      refine (or_iff_left ?_).symm
      rintro ⟨i, -, hnone, ht, -⟩
      rw [hnone] at ht
      cases ht
    · rw [if_neg fun hz => hzero hz.2] at hgrow
      refine iff_of_false ?_ fun hall => ?_
      · rintro (⟨k', hret, hgrown⟩ | ⟨k', hret, -⟩)
        · have := hgrown.sz
          omega
        · rw [hgrow] at hret
          cases hret
      · have := (hall (by omega)).1
        omega
  have hnew : sub32 (k.proc p).sz m = (k.proc p).sz - m := by
    unfold sub32
    omega
  have hsub : ((k.proc p).sz + -(m : ℤ)).toNat = (k.proc p).sz - m := by omega
  obtain ⟨s', free', hrun, hw, hmv, habs, -⟩ := deallocuvm_spec h.wf hsz
    (show (k.proc p).sz - m < (k.proc p).sz by omega)
  rw [hnew] at hres
  have hgrow := growproc_of_resize h.pgdir h.kstack (hres.trans (onMem_of_ret hrun))
  rw [hsub]
  by_cases hzero : (k.proc p).sz - m = 0
  · -- all is unmapped, and the size 0 is taken for an error
    rw [if_pos ⟨by omega, hzero⟩] at hgrow
    refine iff_of_false ?_ fun hall => ?_
    · rintro (⟨k', hret, -⟩ | ⟨k', hret, hkept⟩)
      · rw [hgrow] at hret
        cases hret
      · rw [hgrow] at hret
        cases hret
        have hpos : 0 < pages (k.proc p).sz := by
          unfold pages
          omega
        have hlow : pages ((k.proc p).sz - m) ≤ 0 := by
          rw [hzero]
          exact le_rfl
        have := (hkept.user 0 (by omega)).1
        rw [(h.mapped 0 (by omega)).2 (.inl hpos), habs 0 ⟨hlow, hpos⟩] at this
        cases this
    · have := (hall (by omega)).1
      omega
  rw [if_neg fun hz => hzero hz.2] at hgrow
  have hnewsz : (Function.update k.proc p
      { k.proc p with sz := (k.proc p).sz - m } p).sz = (k.proc p).sz - m := by
    rw [Function.update_self]
  constructor
  · intro hall _
    refine ⟨by omega, fun v h1 h2 => ?_⟩
    by_contra hge
    have hv : v < UPAGES := by omega
    have hp := (h.mapped v hv).2 (.inl h2)
    rcases hall with ⟨k', hret, hgrown⟩ | ⟨k', hret, -⟩
    · rw [hgrow] at hret
      cases hret
      have := (hgrown.stack v hv (Nat.not_lt.1 hge)).1
      rw [hp, habs v ⟨h1, h2⟩] at this
      cases this
    · rw [hgrow] at hret
      cases hret
  · intro hall
    have hstack := (hall (by omega)).2
    refine .inl ⟨_, hgrow, ?_⟩
    refine
      { sz := by rw [hnewsz]; omega
        proc := by rw [hnewsz]
        mapped := ?_
        old := fun v h1 h2 => samePage_of_moved h.wf hmv (Nat.lt_of_lt_of_le h1 h.heap)
          fun hin => ?_
        fresh := fun v h1 h2 => ?_
        stack := fun v h1 h2 => samePage_of_moved h.wf hmv h1 fun hin => ?_ }
    · rw [hnewsz]
      intro v hv
      have hle : pages ((k.proc p).sz - m) ≤ pages (k.proc p).sz := by
        unfold pages
        omega
      by_cases hin : v ∈ Set.Ico (pages ((k.proc p).sz - m)) (pages (k.proc p).sz)
      · rw [habs v hin]
        have := hstack v hin.1 hin.2
        have := hin.1
        refine iff_of_false Bool.false_ne_true ?_
        omega
      · rw [hmv.outside v (Nat.lt_trans hv UPAGES_lt) hin, h.mapped v hv]
        rw [Set.mem_Ico] at hin
        omega
    · rw [hnewsz] at h2
      exact Nat.not_lt.2 hin.1 h2
    · rw [hnewsz] at h2
      unfold pages at h1 h2
      omega
    · exact Nat.not_lt.2 h2 (hstack v hin.1 hin.2)

end Call

theorem exists_settled (L : Link) {sz : ℕ} (hsz : pages sz ≤ 40000) :
    ∃ k free d, Settled L k free 0 d ∧ (k.proc 0).sz = sz ∧ (k.proc 0).stackSize = 1 := by
  obtain ⟨s, free, d, hw, -, hmap, hlen⟩ := exists_space L hsz
  cases free with
  | nil => exact absurd hlen (by decide)
  | cons f free =>
    -- the first free page is the kernel stack
    have hwf : Wf L { s with freelist := s.mem.word f 0 } free d :=
      ⟨hw.pool.tail, hw.tree, fun q hq => hw.apart q (List.mem_cons_of_mem f hq)⟩
    refine ⟨{ loaded s.mem with
      kmem := { s with freelist := s.mem.word f 0 }
      proc := fun i => if i = 0 then { noProc with
        sz := sz, stackSize := 1, pgdir := kva d, kstack := kva f, state := .running } else noProc },
      free, d, ?_, rfl, rfl⟩
    exact ⟨rfl, kva_ne_zero f, hwf, Nat.le_trans hsz (by decide), show 1 ≤ UPAGES by decide,
      hmap⟩

theorem growproc_all_or_nothing_iff (h : Settled L k free p d) (hge : -2 ^ 31 ≤ n)
    (hlt : n < 2 ^ 31) :
    AllOrNothing L k free p d n ↔ Clear (k.proc p).sz (k.proc p).stackSize n := by
  rcases Int.lt_trichotomy n 0 with hneg | rfl | hpos
  · rw [shrink_iff h hneg hge]
    exact ⟨fun hs => ⟨fun hpos => absurd hpos (by omega), fun _ => hs⟩, fun hc => hc.shrink hneg⟩
  · exact iff_of_true (allOrNothing_zero h) ⟨fun hpos => absurd hpos (by omega),
      fun hneg => absurd hneg (by omega)⟩
  · rw [grow_iff h hpos hlt]
    exact ⟨fun hg => ⟨fun _ => hg, fun hneg => absurd hneg (by omega)⟩, fun hc => hc.grow hpos⟩

theorem growproc_all_or_nothing_iff_sample : ∃ k free d, (k.proc 0).sz = 10000 ∧
    (AllOrNothing Link.sample k free 0 d 5000 ↔
      Clear (k.proc 0).sz (k.proc 0).stackSize 5000) := by
  obtain ⟨k, free, d, h, hsz, -⟩ := exists_settled Link.sample (by decide : pages 10000 ≤ 40000)
  exact ⟨k, free, d, hsz, growproc_all_or_nothing_iff h (by decide) (by decide)⟩

/-- `sbrk` of all that there is answers -1, and the heap is gone. -/
theorem growproc_to_nothing : ∃ k free d, Settled Link.sample k free 0 d ∧
    (k.proc 0).sz = 10000 ∧ ¬AllOrNothing Link.sample k free 0 d (-10000) := by
  obtain ⟨k, free, d, h, hsz, -⟩ := exists_settled Link.sample (by decide : pages 10000 ≤ 40000)
  refine ⟨k, free, d, h, hsz, fun hall => ?_⟩
  have := ((shrink_iff h (by decide) (by decide)).1 hall (by omega)).1
  omega

end Xv6.Sys
