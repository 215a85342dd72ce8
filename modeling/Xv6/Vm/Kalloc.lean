import Xv6.Lib.Ownership
import Xv6.Vm.Machine

/-!
# The free list

`Pool L s free`: the free list of `s` visits exactly the frames `free`, each once, all
of them pages the allocator manages. `kalloc` takes the first one, `kfree` puts one
in front; neither changes a page outside the pool it works on.
-/

namespace Xv6.Vm
open Lib

variable {L : Link} {s s' : Kmem} {free : List ℕ} {f o w : ℕ}

theorem load_kva (hf : f < 2 ^ 19) (ho : o < 1024) :
    load (kva f + 4 * o) s = .ret (s.mem.word f o, s) := by
  have h := V2P_kva hf (show 4 * o < 4096 by omega)
  simp only [load, Prog.read_apply, h, PGSIZE, Pages.word]
  rw [show (4096 * f + 4 * o) / 4096 = f by omega, show (4096 * f + 4 * o) % 4096 = 4 * o by omega]

theorem store_kva (hf : f < 2 ^ 19) (ho : o < 1024) :
    store (kva f + 4 * o) w s = .ret ((), { s with mem := s.mem.setWord f o w }) := by
  have h := V2P_kva hf (show 4 * o < 4096 by omega)
  simp only [store, Prog.modify_apply, h, PGSIZE, Pages.setWord]
  rw [show (4096 * f + 4 * o) / 4096 = f by omega, show (4096 * f + 4 * o) % 4096 = 4 * o by omega]

theorem V2P_kva_div (hf : f < 2 ^ 19) : V2P (kva f) / PGSIZE = f := by
  have h := V2P_kva hf (show 0 < 4096 by omega)
  rw [Nat.add_zero] at h
  rw [h, PGSIZE]
  omega

theorem V2P_kva_zero (hf : f < 2 ^ 19) : V2P (kva f) = 4096 * f := by
  simpa using V2P_kva hf (show 0 < 4096 by omega)

theorem memset_kva (hf : f < 2 ^ 19) {b : UInt8} :
    memset (kva f) b s = .ret ((), { s with mem := s.mem.fill f b }) := by
  simp [memset, V2P_kva_div hf]

theorem copyPage_kva {g : ℕ} (hf : f < 2 ^ 19) (hg : g < 2 ^ 19) :
    copyPage (kva f) (kva g) s =
      .ret ((), { s with mem := Function.update s.mem f (s.mem g) }) := by
  simp [copyPage, V2P_kva_div hf, V2P_kva_div hg]

theorem putBytes_kva (n : ℕ) (src : Bytes) (hf : f < 2 ^ 19) :
    ∃ c, putBytes (kva f) n src s = .ret ((), { s with mem := Function.update s.mem f c }) := by
  refine ⟨fun a => if 0 ≤ a ∧ a < 0 + n then src (a - 0) else s.mem f a, ?_⟩
  simp only [putBytes, Prog.modify_apply, V2P_kva_zero hf, PGSIZE]
  rw [show 4096 * f / 4096 = f by omega, show 4096 * f % 4096 = 0 by omega]

structure Pool (L : Link) (s : Kmem) (free : List ℕ) : Prop where
  chain : Chain kva (fun f => s.mem.word f 0) s.freelist free
  nodup : free.Nodup
  page : ∀ f ∈ free, L.Page f

namespace Pool

theorem congr (h : Pool L s free) (hl : s'.freelist = s.freelist)
    (hm : ∀ f ∈ free, s'.mem f = s.mem f) : Pool L s' free where
  chain := by
    rw [hl]
    exact h.chain.congr fun f hf => Pages.word_congr (hm f hf)
  nodup := h.nodup
  page := h.page

theorem unique {free' : List ℕ} (h : Pool L s free) (h' : Pool L s free') : free = free' := by
  have hchain : ∀ {r : ℕ} {l l' : List ℕ}, Chain kva (fun f => s.mem.word f 0) r l →
      Chain kva (fun f => s.mem.word f 0) r l' → l = l' := by
    intro r l
    induction l generalizing r with
    | nil =>
      intro l' hl hl'
      cases l' with
      | nil => rfl
      | cons b l' => exact absurd (hl'.1.symm.trans hl) (kva_ne_zero b)
    | cons a l ih =>
      intro l' hl hl'
      cases l' with
      | nil => exact absurd (hl.1.symm.trans hl') (kva_ne_zero a)
      | cons b l' =>
        obtain rfl := kva_inj (hl.1.symm.trans hl'.1)
        rw [ih hl.2 hl'.2]
  exact hchain h.chain h'.chain

theorem kalloc_nil (h : Pool L s []) : kalloc s = .ret (0, s) := by
  have h0 : s.freelist = 0 := h.chain
  simp [kalloc, h0, Prog.ite_apply]

theorem kalloc_cons (h : Pool L s (f :: free)) :
    kalloc s = .ret (kva f, { s with freelist := s.mem.word f 0 }) := by
  have h0 : s.freelist = kva f := h.chain.1
  have hf : f < 2 ^ 19 := by have := (h.page f (by simp)).lt; omega
  have hl := load_kva (s := s) hf (show 0 < 1024 by omega)
  rw [Nat.mul_zero, Nat.add_zero] at hl
  simp [kalloc, h0, Prog.ite_apply, kva_ne_zero, hl]

theorem tail (h : Pool L s (f :: free)) : Pool L { s with freelist := s.mem.word f 0 } free where
  chain := h.chain.2
  nodup := h.nodup.of_cons
  page g hg := h.page g (by simp [hg])

theorem kfree (h : Pool L s free) (hf : L.Page f) (hn : f ∉ free) :
    ∃ s', kfree L (kva f) s = .ret ((), s') ∧ Pool L s' (f :: free) ∧
      ∀ g, g ≠ f → s'.mem g = s.mem g := by
  have hlt : f < 2 ^ 19 := by have := hf.lt; omega
  have hok : ¬(kva f % PGSIZE ≠ 0 ∨ kva f < L.kend ∨ PHYSTOP ≤ V2P (kva f)) := by
    rw [V2P_kva_zero hlt]
    have h1 := kva_aligned f
    have h2 := hf.1
    have h3 := hf.lt
    simp only [PHYSTOP]
    omega
  refine ⟨⟨(s.mem.fill f 1).setWord f 0 s.freelist, kva f⟩, ?_, ?_, fun g hg => ?_⟩
  · have hs := store_kva (s := { s with mem := s.mem.fill f 1 }) (w := s.freelist) hlt
      (show 0 < 1024 by omega)
    rw [Nat.mul_zero, Nat.add_zero] at hs
    simp [Vm.kfree, hok, memset_kva hlt, hs]
  · have hlist : s.freelist < 2 ^ 32 := by
      cases free with
      | nil =>
        have h0 : s.freelist = 0 := h.chain
        simp [h0]
      | cons g l =>
        have h0 : s.freelist = kva g := h.chain.1
        have hg := (h.page g (by simp)).lt
        simp only [h0, kva, KERNBASE, PGSIZE]
        omega
    refine ⟨⟨rfl, ?_⟩, List.nodup_cons.mpr ⟨hn, h.nodup⟩, ?_⟩
    · simp only [Pages.word_setWord_self _ hlist]
      refine h.chain.congr fun g hg => ?_
      have hgf : g ≠ f := fun heq => hn (heq ▸ hg)
      rw [Pages.word_setWord_of_ne _ (Or.inl hgf)]
      exact Pages.word_congr (Pages.fill_of_ne _ hgf)
    · intro g hg
      rcases List.mem_cons.mp hg with rfl | hg
      · exact hf
      · exact h.page g hg
  · exact (Pages.setWord_of_ne _ hg).trans (Pages.fill_of_ne _ hg)

end Pool

end Xv6.Vm
