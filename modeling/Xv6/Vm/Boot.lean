import Xv6.Vm.Alloc

/-!
# Filling the free list, and the first user page

`freerange` puts each page of its range on the free list once. `kinit1` and `kinit2`
together cover every page from the end of the kernel to `PHYSTOP`.
-/

namespace Xv6.Vm
open Lib

variable {L : Link} {s s' : Kmem} {free free' : List ℕ} {d f a b : ℕ}

def Link.first (L : Link) : ℕ := (L.kend + 4095) / 4096 - UPAGES

theorem Link.first_bounds (L : Link) : PGROUNDUP L.kend = kva L.first ∧ L.first ≤ 768 ∧
    ∀ f, L.Page f ↔ L.first ≤ f ∧ f < 57344 := by
  have ht := L.text
  have hd := L.data_lt
  have hr := L.room
  have hphys : PHYSTOP / PGSIZE = 57344 := rfl
  simp only [Link.Page, Link.first, PGROUNDUP, add32, kva, hphys]
  simp only [PGSIZE, KERNBASE, KERNLINK, UPAGES, EXTMEM] at *
  refine ⟨by omega, by omega, fun f => ?_⟩
  omega

theorem freerangeFrom_spec {n : ℕ} (hfuel : b < a + n) (hab : a ≤ b) (hb : b ≤ 57344)
    (h : Pool L s free) (hpage : ∀ f ∈ Set.Ico a b, L.Page f ∧ f ∉ free) :
    ∃ s' free', freerangeFrom L (kva b) n (kva a) s = .ret ((), s') ∧ Pool L s' free' ∧
      (∀ p, p ∈ free' ↔ p ∈ free ∨ p ∈ Set.Ico a b) ∧
      ∀ p, p ∉ Set.Ico a b → s'.mem p = s.mem p := by
  induction n generalizing a s free with
  | zero => omega
  | succ n ih =>
    have hnext : add32 (kva a) PGSIZE = kva (a + 1) := by
      simp only [add32, kva, KERNBASE, PGSIZE]
      omega
    have hiff : kva (a + 1) ≤ kva b ↔ a < b := by
      simp only [kva, PGSIZE]
      omega
    by_cases hlt : a < b
    · obtain ⟨hpa, hna⟩ := hpage a ⟨le_rfl, hlt⟩
      obtain ⟨s₁, hrun₁, hp₁, hm₁⟩ := h.kfree hpa hna
      obtain ⟨s', free', hrun, hp, hmem, hm⟩ := ih (by omega) hlt hp₁ fun f hf => by
        obtain ⟨hpf, hnf⟩ := hpage f ⟨by have := hf.1; omega, hf.2⟩
        exact ⟨hpf, by simp only [List.mem_cons, not_or]; exact ⟨by have := hf.1; omega, hnf⟩⟩
      refine ⟨s', free', ?_, hp, fun p => ?_, fun p hp => ?_⟩
      · simp [freerangeFrom, hnext, hiff, hlt, hrun₁, hrun]
      · have hsplit : p ∈ Set.Ico a b ↔ p = a ∨ p ∈ Set.Ico (a + 1) b := by
          simp only [Set.mem_Ico]
          omega
        rw [hmem p, List.mem_cons, hsplit, or_assoc, or_left_comm]
      · simp only [Set.mem_Ico] at hp
        rw [hm p (by simp only [Set.mem_Ico]; omega), hm₁ p (by omega)]
    · refine ⟨s, free, ?_, h, fun p => ?_, fun p _ => rfl⟩
      · simp [freerangeFrom, hnext, hiff, hlt]
      · simp [Set.Ico_eq_empty hlt]

theorem kinit1_spec (m : Pages) :
    ∃ s' free', kinit1 L ⟨m, 0⟩ = .ret ((), s') ∧ Pool L s' free' ∧
      ∀ p, p ∈ free' ↔ p ∈ Set.Ico L.first 1024 := by
  obtain ⟨hup, hle, hiff⟩ := L.first_bounds
  have hnil : Pool L ⟨m, 0⟩ [] := ⟨rfl, List.nodup_nil, by simp⟩
  obtain ⟨s', free', hrun, hp, hmem, -⟩ := freerangeFrom_spec (a := L.first) (b := 1024)
    (n := allPages) (by simp only [allPages]; omega) (by omega) (by omega) hnil
    fun f hf => ⟨(hiff f).mpr ⟨hf.1, by have := hf.2; omega⟩, by simp⟩
  refine ⟨s', free', ?_, hp, fun p => by simp [hmem p]⟩
  rw [kinit1, freerange, hup]
  exact hrun

theorem kinit2_spec (h : Pool L s free) (hlow : ∀ p ∈ free, p < 1024) :
    ∃ s' free', kinit2 L s = .ret ((), s') ∧ Pool L s' free' ∧
      (∀ p, p ∈ free' ↔ p ∈ free ∨ p ∈ Set.Ico 1024 57344) ∧
      ∀ p < 1024, s'.mem p = s.mem p := by
  obtain ⟨-, hle, hiff⟩ := L.first_bounds
  obtain ⟨s', free', hrun, hp, hmem, hm⟩ := freerangeFrom_spec (a := 1024) (b := 57344)
    (n := allPages) (by simp only [allPages]; omega) (by omega) le_rfl h
    fun f hf => ⟨(hiff f).mpr ⟨by have := hf.1; omega, hf.2⟩,
      fun hin => by have := hlow f hin; have := hf.1; omega⟩
  refine ⟨s', free', hrun, hp, hmem, fun p hp => hm p fun hin => ?_⟩
  have := hin.1
  omega

/-- After `kinit1` and `kinit2` the free list holds each page from the end of the kernel
to `PHYSTOP`, once. -/
theorem kinit_spec (m : Pages) :
    ∃ s' free', (kinit1 L ⟨m, 0⟩).bind (fun r => kinit2 L r.2) = .ret ((), s') ∧
      Pool L s' free' ∧ ∀ p, p ∈ free' ↔ L.Page p := by
  obtain ⟨s₁, free₁, hrun₁, hp₁, hmem₁⟩ := kinit1_spec (L := L) m
  obtain ⟨s', free', hrun, hp, hmem, -⟩ := kinit2_spec hp₁ fun p hp => ((hmem₁ p).mp hp).2
  obtain ⟨-, hle, hiff⟩ := L.first_bounds
  refine ⟨s', free', by rw [hrun₁, Outcome.ret_bind, hrun], hp, fun p => ?_⟩
  rw [hmem p, hmem₁ p, hiff p]
  simp only [Set.mem_Ico]
  omega

theorem Wf.data {R : Set ℕ} (h : Wf L s free d) (hl : s'.freelist = s.freelist)
    (hm : ∀ p, (∀ v < UPAGES, v ∈ R → frm s.mem d v ≠ some p) → s'.mem p = s.mem p) :
    Wf L s' free d ∧ Moved R d s free s' free ∧
      (∀ v < 2 ^ 20, pte s'.mem d v = pte s.mem d v) := by
  have hinner : ∀ p, Inner s.mem d p → s'.mem p = s.mem p := fun p hp =>
    hm p fun v hv _ hf => h.tree.frm_not_inner hv hf hp
  have hfree : ∀ p ∈ free, s'.mem p = s.mem p := fun p hp =>
    hm p fun v hv _ hf => h.apart p hp (Tree.frm_own hv hf)
  obtain ⟨htab, hpte, htree, hown⟩ := h.tree.keep hinner
  exact ⟨⟨h.pool.congr hl hfree, htree, fun p hp ho => h.apart p hp ((hown p).mp ho)⟩,
    ⟨fun v hv _ => hpte v hv, fun p _ _ hp => hm p hp, fun p => or_congr_right (hown p),
      fun i _ t ht => (htab i).trans ht, fun v hv _ => Or.inr (hpte v (hv.trans UPAGES_lt))⟩, hpte⟩

theorem inituvm_spec (init : Bytes) {n : ℕ} (h : Wf L s free d) (hn : n < PGSIZE)
    (habs : present (pte s.mem d 0) = false) (hlen : 2 ≤ free.length) :
    ∃ s' free', inituvm (kva d) init n s = .ret ((), s') ∧ Wf L s' free' d ∧
      Moved {0} d s free s' free' ∧ present (pte s'.mem d 0) = true ∧
      free.length ≤ free'.length + 2 := by
  obtain ⟨f, g, free, rfl⟩ : ∃ f g l, free = f :: g :: l := by
    match free, hlen with
    | f :: g :: l, _ => exact ⟨f, g, l, rfl⟩
  obtain ⟨hk, hz⟩ := taken_run h.pool
  have hf : f < 2 ^ 19 := by have := (h.pool.page f (by simp)).lt; omega
  obtain ⟨s₁, free₁, hmap, hw, hm, hpte, -, -, -, hlen'⟩ := map_taken h (v := 0) (c := .zero)
    (show PTE_W ||| PTE_U < 4096 by decide) (by decide) (by decide) habs (by simp)
  have hfrm : frm s₁.mem d 0 = some f := by
    rw [frm, hpte, if_pos entry_present, entry_frame (by decide)]
  obtain ⟨c, hput⟩ := putBytes_kva (s := s₁) n init hf
  obtain ⟨hw₂, hm₂, hpte₂⟩ := @Wf.data L s₁ { s₁ with mem := Function.update s₁.mem f c } _ _
    {0} hw rfl fun p hp =>
      Function.update_of_ne (fun heq : p = f => hp 0 (by decide) rfl (heq ▸ hfrm)) _ _
  refine ⟨_, free₁, ?_, hw₂, hm.trans hw.tree.toBare hw.apart hm₂, ?_, ?_⟩
  · simp [inituvm, Nat.not_le.mpr hn, hk, hz, V2P_kva_zero hf, hmap, hput]
  · rw [hpte₂ 0 (by decide), hpte]
    exact entry_present
  · simp only [List.length_cons] at hlen' ⊢
    split_ifs at hlen' <;> omega

end Xv6.Vm
