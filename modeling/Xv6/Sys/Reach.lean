import Xv6.Sys.Grow
import Xv6.Sys.Start

/-!
# Runs from boot

The invariant holds in every state of a run that starts when the kernel has come up. Where there
is memory enough, `sbrk` and page faults do what they are asked to.
-/

namespace Xv6.Sys
open Lib Vm

variable {L : Link} {k k₀ k' : Kernel} {free free' : List ℕ} {p d addr : ℕ} {n : ℤ}
  {es : List Event}

section Run

theorem Booted.spec (h : Booted L k) : ∃ free, Inv L k free ∧ First k ∧ 56250 ≤ free.length := by
  obtain ⟨m, ncpu, initcode, n, -, hcpu, hn, hrun⟩ := h
  obtain ⟨k', free, hrun', hinv, hfirst, hlen⟩ := boot_spec hcpu hn initcode m
  obtain ⟨-, rfl⟩ := Outcome.ret_inj (hrun'.symm.trans hrun)
  exact ⟨free, hinv, hfirst, hlen⟩

theorem exists_booted (L : Link) : ∃ k, Booted L k := by
  obtain ⟨k, -, hrun, -⟩ := boot_spec (L := L) (show 1 ≤ NCPU by decide)
    (show 0 < PGSIZE by decide) Bytes.zero fun _ => Bytes.zero
  exact ⟨k, _, 1, Bytes.zero, 0, by decide, by decide, by decide, hrun⟩

variable (L) in
def TabledStep (k : Kernel) (e : Event) (k' : Kernel) : Prop := e.Tabled ∧ Step L k e k'

theorem Booted.inv (h : Booted L k₀) (hrun : Runs (TabledStep L) k₀ es k) :
    ∃ free, Inv L k free := by
  obtain ⟨free₀, h₀, -⟩ := h.spec
  refine hrun.invariant (I := fun k => ∃ free, Inv L k free) (fun k e k' hk hs => ?_) ⟨free₀, h₀⟩
  obtain ⟨free, hk⟩ := hk
  obtain ⟨free', hk', -⟩ := hs.2.spec hk hs.1
  exact ⟨free', hk'⟩

end Run

section Enough

theorem absent_of_not_mem (hv : V2P (k.proc p).pgdir / PGSIZE = d) {v : ℕ} (hlt : v < UPAGES)
    (h : v ∉ (spaceOf k p).mapped) : present (pte k.kmem.mem d v) = false := by
  rw [mem_mapped hv] at h
  exact Bool.eq_false_iff.2 fun hp => h ⟨hlt, hp⟩

def resized (k : Kernel) (p sz : ℕ) (s : Kmem) : Kernel :=
  { k with kmem := s, proc := Function.update k.proc p { k.proc p with sz := sz } }

theorem Inv.grows (h : Inv L k free) (hp : p < NPROC) (hsp : hasSpace (k.proc p)) (hn : 0 < n)
    (hK : (k.proc p).sz + n.toNat < KERNBASE)
    (habs : ∀ v ∈ Set.Ico (pages (k.proc p).sz) (pages ((k.proc p).sz + n.toNat)),
      v ∉ (spaceOf k p).mapped)
    (hlen : 2 * n.toNat / PGSIZE + 4 ≤ free.length) :
    ∃ s' free', growproc L p n k = .ret (0, resized k p ((k.proc p).sz + n.toNat) s') ∧
      Inv L (resized k p ((k.proc p).sz + n.toNat) s') free' ∧
      spaceOf (resized k p ((k.proc p).sz + n.toNat) s') p =
        ⟨(k.proc p).sz + n.toNat, (k.proc p).stackSize, (spaceOf k p).mapped ∪
          Set.Ico (pages (k.proc p).sz) (pages ((k.proc p).sz + n.toNat))⟩ ∧
      free.length ≤ free'.length + (2 * n.toNat / PGSIZE + 4) := by
  obtain ⟨d, -, hpg, hdir, hv⟩ := h.dir hp hsp
  obtain ⟨f, hkstack⟩ := h.kstack p hp hsp
  have hRU : ∀ v ∈ Set.Ico (pages (k.proc p).sz) (pages ((k.proc p).sz + n.toNat)), v < UPAGES :=
    fun v hin => hin.2.trans_le (pages_le hK.le)
  have hneed : need k.kmem.mem d (pages (k.proc p).sz) (pages ((k.proc p).sz + n.toNat)) ≤
      2 * n.toNat / PGSIZE + 4 := by
    refine need_le.trans ?_
    simp only [pages, PGSIZE]
    omega
  obtain ⟨s', free', halloc, hw, hm, hz, hlen'⟩ := allocuvm_mapped (h.sound.wf (o := .proc p) hdir) hK
    (Nat.le_add_right _ _) (fun v hin => absent_of_not_mem hv (hRU v hin) (habs v hin))
    (hneed.trans hlen)
  have hadd : add32 (k.proc p).sz n.toNat = (k.proc p).sz + n.toNat := by
    have hK' : KERNBASE = 2 ^ 31 := rfl
    simp only [add32]
    omega
  have hresize : resize L (k.proc p) n k = .ret ((k.proc p).sz + n.toNat, { k with kmem := s' }) := by
    rw [resize, if_pos hn, hadd, hpg]
    exact onMem_of_ret halloc
  have hrun := growproc_of_resize hpg (by rw [hkstack]; exact kva_ne_zero f) hresize
  rw [if_neg (by omega)] at hrun
  obtain ⟨hinv, -⟩ := h.moved (x := { k.proc p with sz := (k.proc p).sz + n.toNat }) hdir hw hm hRU
    hsp hsp rfl rfl hK.le
  refine ⟨s', free', hrun, hinv, ?_, ?_⟩
  · exact spaceOf_ext (by simp [resized]) (by simp [resized]) (by simpa [resized] using hv)
      (mapped_union hv hm hRU fun v hin => (hz v hin).present)
  · simp only [ledger] at hlen'
    omega

def stretched (k : Kernel) (p : ℕ) (s : Kmem) : Kernel :=
  { k with
    kmem := s
    proc := Function.update k.proc p
      { k.proc p with stackSize := ((k.proc p).stackSize + 1) % 2 ^ 32 } }

theorem stretched_proc (k : Kernel) (p : ℕ) (s : Kmem) : (stretched k p s).proc p =
    { k.proc p with stackSize := ((k.proc p).stackSize + 1) % 2 ^ 32 } :=
  Function.update_self p _ k.proc

theorem Inv.faults (h : Inv L k free) (hp : p < NPROC) (hsp : hasSpace (k.proc p))
    (hle : PGROUNDDOWN addr ≤ bottom (k.proc p).stackSize)
    (hK : bottom (k.proc p).stackSize < KERNBASE)
    (habs : ∀ v ∈ Set.Ico (addr / PGSIZE) (pages (bottom (k.proc p).stackSize)),
      v ∉ (spaceOf k p).mapped)
    (hneed : need k.kmem.mem (V2P (k.proc p).pgdir / PGSIZE) (addr / PGSIZE)
      (pages (bottom (k.proc p).stackSize)) ≤ free.length) :
    ∃ s', pgflt L p addr k = .ret ((), stretched k p s') ∧
      ∀ v ∈ Set.Ico (addr / PGSIZE) (pages (bottom (k.proc p).stackSize)),
        Good s'.mem (V2P (k.proc p).pgdir / PGSIZE) v := by
  obtain ⟨d, -, hpg, hdir, hv⟩ := h.dir hp hsp
  have hRU : ∀ v ∈ Set.Ico (addr / PGSIZE) (pages (bottom (k.proc p).stackSize)), v < UPAGES :=
    fun v hin => hin.2.trans_le (pages_le hK.le)
  obtain ⟨s', free', halloc, hw, -, hz, -⟩ := allocuvm_mapped (h.sound.wf (o := .proc p) hdir) hK hle
    (fun v hin => by
      rw [pages_rounddown] at hin
      exact absent_of_not_mem hv (hRU v hin) (habs v hin))
    (by rw [pages_rounddown, ← hv]; exact hneed)
  have hne : bottom (k.proc p).stackSize ≠ 0 := by
    have hn : (k.proc p).stackSize % 2 ^ 20 < UPAGES := by
      by_contra hn
      have := lt_bottom hn
      omega
    rw [bottom_eq hn]
    omega
  have hmem : onMem (allocuvm L (k.proc p).pgdir (PGROUNDDOWN addr) (bottom (k.proc p).stackSize)) k =
      .ret (bottom (k.proc p).stackSize, { k with kmem := s' }) := by
    rw [hpg]
    exact onMem_of_ret halloc
  refine ⟨s', ?_, fun v hin => ?_⟩
  · unfold pgflt
    rw [Prog.get_bind]
    rw [if_pos hle, Prog.bind_of_ret hmem, if_neg hne]
    rfl
  · have hpres := (hz v (by rw [pages_rounddown]; exact hin)).present
    rw [hv]
    exact ⟨hpres, hw.tree.user v (hRU v hin) hpres⟩

theorem Booted.sbrk (h : Booted L k₀) {n : ℕ} (hn : 0 < n) (hlt : n ≤ 0x1000000) :
    ∃ k free, Step L k₀ (.sbrk 0 n) k ∧ Inv L k free ∧ Active k 0 ∧
      spaceOf k 0 = ⟨PGSIZE + n, 0, {v | v < pages (PGSIZE + n)}⟩ ∧ 40000 ≤ free.length := by
  obtain ⟨free₀, h₀, hfirst, hlen₀⟩ := h.spec
  have hG : PGSIZE = 4096 := rfl
  have hsp : hasSpace (k₀.proc 0) := by
    rw [hasSpace, hfirst.state]
    exact ⟨State.noConfusion, State.noConfusion⟩
  have hsz : (k₀.proc 0).sz = PGSIZE := congrArg Space.sz hfirst.space
  have hstack : (k₀.proc 0).stackSize = 0 := congrArg Space.stackSize hfirst.space
  have hpages : pages PGSIZE = 1 := rfl
  obtain ⟨s, free, hrun, hinv, hspace, hlen⟩ := h₀.grows (n := (n : ℤ)) (p := 0) (by decide) hsp
    (by omega) (by rw [hsz]; simp only [KERNBASE, PGSIZE, Int.toNat_natCast]; omega)
    (fun v hv => by
      rw [hfirst.space, Set.mem_singleton_iff]
      rw [hsz, hpages] at hv
      have := hv.1
      omega)
    (by simp only [Int.toNat_natCast, PGSIZE]; omega)
  simp only [Int.toNat_natCast] at hrun hinv hspace hlen
  rw [hG] at hlen
  have hactive : Active k₀ 0 := by
    rw [Active, hfirst.state]
    exact ⟨by decide, State.noConfusion, State.noConfusion, State.noConfusion⟩
  refine ⟨_, free, ⟨⟨hactive, by omega, by omega⟩, ?_⟩, hinv, ?_, ?_, by omega⟩
  · simp only [Event.run]
    rw [Prog.bind_of_ret hrun]
    rfl
  · simpa [Active, resized] using hactive
  · rw [hspace, hsz, hstack, hfirst.space]
    refine Space.ext rfl rfl (Set.ext fun v => ?_)
    have hmono := Space.pages_mono (Nat.le_add_right PGSIZE n)
    simp only [hpages, Set.mem_union, Set.mem_singleton_iff, Set.mem_Ico, Set.mem_ofPred_eq] at hmono ⊢
    omega

end Enough

end Xv6.Sys
