import Xv6.Sys.Args
import Xv6.Sys.NullTable
import Xv6.Vm.Order

/-!
# An argument that reaches below the page table of the stack

A caller with 8 MB of heap and a program without segments. The new directory has one page table
for user pages, that of the stack, so an argument of more than 4 MB is looked up in a page table
that is not there. Which page the copy then writes to is up to the caller.
-/

namespace Xv6.Sys
open Lib Vm

variable {L : Link} {k : Kernel} {s : Kmem} {free free' front rest : List ℕ}
  {p d g f q t y va : ℕ}
  {src : List UInt8}

section Caller

def victim : ℕ := 0x7111

def poke (k : Kernel) (f w : ℕ) : Kernel :=
  { k with kmem := { k.kmem with mem := k.kmem.mem.setWord f 0 w } }

theorem Caller.poke (h : Caller L k free p g) (hf : frm k.kmem.mem g 0 = some f) (w : ℕ) :
    Caller L (poke k f w) free p g ∧
      (∀ v < 2 ^ 20, pte (Sys.poke k f w).kmem.mem g v = pte k.kmem.mem g v) ∧
      ∀ i, tab (Sys.poke k f w).kmem.mem g i = tab k.kmem.mem g i := by
  have hother : ∀ q, q ≠ f → (Sys.poke k f w).kmem.mem q = k.kmem.mem q :=
    fun q hq => Pages.setWord_of_ne _ hq
  have hinner : ∀ q, Inner k.kmem.mem g q → (Sys.poke k f w).kmem.mem q = k.kmem.mem q := by
    intro q hq
    refine hother q ?_
    rintro rfl
    exact h.wf.tree.frm_not_inner (by decide) hf hq
  have hown := Tree.frm_own (show 0 < UPAGES by decide) hf
  obtain ⟨htab, hpte, htree, howns⟩ := h.wf.tree.keep hinner
  refine ⟨⟨h.pgdir, h.kstack, ⟨?_, htree, fun q hq ho => h.wf.apart q hq ((howns q).1 ho)⟩, ?_⟩, hpte,
    htab⟩
  · refine h.wf.pool.congr rfl fun q hq => hother q ?_
    rintro rfl
    exact h.wf.apart q hq hown
  · intro v hge hlt
    exact (hpte v hlt).trans (h.kern v hge hlt)

structure Rogue (L : Link) (k : Kernel) (free : List ℕ) (p g f t : ℕ) : Prop where
  caller : Caller L k free p g
  page : frm k.kmem.mem g 0 = some f
  word : k.kmem.mem.word f 0 = userEntry t
  mapped : ∀ v < 2048, present (pte k.kmem.mem g v) = true

theorem Caller.rogue (h : Caller L k free p g) (hmap : Mapped k.kmem.mem g 0x800000 1)
    (hf : frm k.kmem.mem g 0 = some f) (ht : t < 2 ^ 19) :
    Rogue L (Sys.poke k f (userEntry t)) free p g f t ∧
      ∀ i, tab (Sys.poke k f (userEntry t)).kmem.mem g i = tab k.kmem.mem g i := by
  obtain ⟨hc, hpte, htab⟩ := h.poke hf (userEntry t)
  refine ⟨⟨hc, (frm_congr (hpte 0 (by decide))).trans hf,
    Pages.word_setWord_self _ (userEntry_lt ht), fun v hv => ?_⟩, htab⟩
  rw [hpte v (Nat.lt_trans hv (by decide))]
  exact (hmap v (Nat.lt_trans hv (by decide))).2 (Or.inl hv)

end Caller

section Bare

def bare : Inode where
  size := 52
  data := Bytes.zero.write32 0 ELF_MAGIC

theorem bare_header : readi bare 0 ELFHDR_SIZE = some ELFHDR_SIZE ∧
    (elfhdr bare).magic = ELF_MAGIC ∧ (elfhdr bare).phnum = 0 := by decide

theorem bare_space (h : Pool L s (front ++ y :: t :: rest)) (hfront : front.length = 65) :
    ∃ d s₁ s₂, setupkvm L s = .ret (kva d, s₁) ∧
      allocuvm L (kva d) (sub32 STACK_TOP PGSIZE) STACK_TOP s₁ = .ret (STACK_TOP, s₂) ∧
      Ready L s (front ++ y :: t :: rest) d 0 s₂ rest ∧ tab s₂.mem d 511 = some t ∧
      ∀ i < 511, tab s₂.mem d i = none := by
  generalize hrun : setupkvm L s = o
  have hspec := setupkvm_spec h
  rw [hrun] at hspec
  cases hspec with
  | failed _ _ _ hlen =>
    simp only [List.length_append, List.length_cons] at hlen
    omega
  | @built d s₁ free₁ hw₁ hk₁ hu₁ hc₁ hm₁ _ =>
    have hw := setupkvm_takes h hrun
    rw [List.drop_append, List.drop_eq_nil_of_le hfront.le, hfront, Nat.sub_self, List.drop_zero,
      List.nil_append] at hw
    obtain rfl := hw₁.pool.unique hw.pool
    have htab := setupkvm_tables h hrun
    obtain ⟨s₂, halloc, hw₂, hm₂, hz₂, ht₂, hother₂⟩ := stack_takes hw (htab 511 (by decide))
    have hfresh : Fresh L s (front ++ y :: t :: rest) d s₁ (y :: t :: rest) := ⟨hw, hk₁, hc₁, hm₁⟩
    have hready : Fresh L s (front ++ y :: t :: rest) d s₂ rest :=
      hfresh.moved hw₂ hm₂ fun v hv => by
        rw [Set.mem_singleton_iff.1 hv]
        decide
    refine ⟨d, s₁, s₂, rfl, halloc, ⟨hready, fun v hv => ?_, by decide⟩, ht₂, fun i hi => ?_⟩
    · have hlast : UPAGES - 1 < UPAGES := by decide
      have hstack : Good s₂.mem d (UPAGES - 1) :=
        ⟨hz₂.present, hw₂.tree.user (UPAGES - 1) hlast hz₂.present⟩
      constructor
      · intro hg
        by_contra hne
        have hnot : v ∉ ({UPAGES - 1} : Set ℕ) := by
          rw [Set.mem_singleton_iff]
          exact fun heq => hne (Or.inr heq)
        have hp := hg.1
        rw [hm₂.outside v hv hnot, hu₁ v (hg.lt hready.kern hv)] at hp
        cases hp
      · rintro (h0 | rfl)
        · exact absurd h0 (Nat.not_lt_zero v)
        · exact hstack
    · rw [hother₂ i (Nat.ne_of_lt hi)]
      exact htab i (Nat.lt_trans hi (by decide))

theorem loadImage_bare {s₁ s₂ : Kmem} (hsetup : setupkvm L s = .ret (kva d, s₁))
    (halloc : allocuvm L (kva d) (sub32 STACK_TOP PGSIZE) STACK_TOP s₁ = .ret (STACK_TOP, s₂)) :
    loadImage L bare s = .ret (some (kva d, 0), s₂) := by
  obtain ⟨hread, hmagic, hphnum⟩ := bare_header
  have hload : loadSegments L (kva d) bare 0 (elfhdr bare).phoff 0 s₁ = .ret (some 0, s₁) := rfl
  unfold loadImage
  rw [if_neg (not_not.2 hread), if_neg (not_not.2 hmagic), Prog.bind_of_ret hsetup,
    if_neg (kva_ne_zero d), hphnum, Prog.bind_of_ret hload]
  simp only
  rw [Prog.bind_of_ret halloc, if_neg (by decide)]
  rfl

end Bare

section Copy

theorem copyoutFrom_stop {fuel : ℕ} (hsrc : src ≠ [])
    (hka : uva2ka L p (kva d) (4096 * (va / 4096)) k = .ret (0, k)) :
    copyoutFrom L p (kva d) (fuel + 1) va src k = .ret (-1, k) := by
  obtain ⟨b, bs, rfl⟩ := List.exists_cons_of_ne_nil hsrc
  rw [copyoutFrom, rounddown_eq, Prog.bind_of_ret hka]
  rfl

def written (k : Kernel) (q o : ℕ) (bytes : List UInt8) : Kernel :=
  { k with kmem := { k.kmem with mem := patch k.kmem.mem q o bytes } }

theorem written_mem {o : ℕ} {bytes : List UInt8} (h : f ≠ q) :
    (written k q o bytes).kmem.mem f = k.kmem.mem f := Function.update_of_ne h _ _

theorem copyout_below (hready : Ready L s free d 0 k.kmem free') (hreach : Reach L k p d)
    (hnone : tab k.kmem.mem d 510 = none) (hsome : tab k.kmem.mem d 511 = some t)
    (hf : frm k.kmem.mem (V2P (k.proc p).pgdir / PGSIZE) 0 = some f)
    (hword : k.kmem.mem.word f 0 = userEntry q) (hq : L.Page q) (hown : ¬Own k.kmem.mem d q)
    (hva : va / 4096 = 0x7fbff) (hlen : 4096 < src.length) :
    copyout L p (kva d) va src k =
      .ret (-1, written k q (va % 4096) (src.take (4096 - va % 4096))) := by
  have hsrc : src ≠ [] := by
    rintro rfl
    simp at hlen
  have hka : uva2ka L p (kva d) (4096 * (va / 4096)) k = .ret (kva q, k) :=
    uva2ka_null hready.fresh.wf.dir_lt (by omega) (by rw [hva]; exact hnone) hf (page_lt hq) hword
  obtain ⟨n, hn⟩ : ∃ n, src.length = n + 2 := ⟨src.length - 2, by omega⟩
  unfold copyout
  rw [hn, copyoutFrom_next hreach.cur hq hsrc (by omega) hka, hva]
  have hkeep : ∀ r, Inner k.kmem.mem d r →
      (written k q (va % 4096) (src.take (4096 - va % 4096))).kmem.mem r = k.kmem.mem r := by
    intro r hr
    refine written_mem ?_
    rintro rfl
    exact hown hr.own
  obtain ⟨htab, hpte, htree, -⟩ := hready.fresh.wf.tree.keep hkeep
  have hv : 0x7fbff + 1 < 2 ^ 20 := by decide
  have hkern : Kern L (written k q (va % 4096) (src.take (4096 - va % 4096))).kmem.mem d :=
    fun u hge hlt => (hpte u hlt).trans (hready.fresh.kern u hge hlt)
  have hbad : ¬Good (written k q (va % 4096) (src.take (4096 - va % 4096))).kmem.mem d
      (0x7fbff + 1) := by
    unfold Good
    rw [hpte _ hv]
    intro hg
    have hcase := (hready.good _ hv).1 hg
    have hU : UPAGES = 524288 := rfl
    omega
  have hstop := uva2ka_table (readWord L p 0) htree hkern hv ((htab _).trans hsome)
  rw [if_neg hbad] at hstop
  refine copyoutFrom_stop (fun hnil => ?_) hstop
  have := List.drop_eq_nil_iff.1 hnil
  omega

end Copy

end Xv6.Sys
