import Xv6.Sys.Loader

/-!
# Giving pages back

`deallocuvm` skips the page tables that are not there, and does what visiting every page would.
`freevm` returns every page that was taken from the free list for its directory: by `setupkvm`,
by `allocuvm`, whether it succeeded or ran out of memory, and not yet returned by `deallocuvm`.
-/

namespace Xv6.Sys
open Lib Vm

variable {L : Link} {s s' : Kmem} {free free' : List ℕ} {d v p : ℕ}

section Dealloc

theorem mem_frames {m : Pages} {n : ℕ} : p ∈ frames m d v n ↔
    ∃ u, v ≤ u ∧ u < v + n ∧ frm m d u = some p := by
  simp only [frames, List.mem_filterMap, List.mem_range'_1, and_assoc]

/-- The present pages from the one above `newsz` to `oldsz` are unmapped and their frames freed,
each once, in order. -/
theorem deallocuvm_exact {oldsz newsz : ℕ} (h : Backed L s free d) (hold : oldsz ≤ KERNBASE)
    (hnew : newsz < oldsz) :
    ∃ s', deallocuvm L (kva d) oldsz newsz s = .ret (newsz, s') ∧
      visitAll L (kva d) (pages oldsz - pages newsz) (pages newsz) s = .ret ((), s') ∧
      Pool L s' ((frames s.mem d (pages newsz) (pages oldsz - pages newsz)).reverse ++ free) ∧
      (∀ u < 2 ^ 20, pte s'.mem d u =
        if PGROUNDUP newsz ≤ 4096 * u ∧ 4096 * u < oldsz ∧ present (pte s.mem d u) then 0
        else pte s.mem d u) ∧
      (∀ i, tab s'.mem d i = tab s.mem d i) ∧
      ∀ p, p ∉ free → ¬Inner s.mem d p →
        p ∉ frames s.mem d (pages newsz) (pages oldsz - pages newsz) → s'.mem p = s.mem p := by
  have hE := pages_le hold
  have hK : KERNBASE = 2 ^ 31 := rfl
  have hU : UPAGES = 2 ^ 19 := rfl
  have hle : pages newsz ≤ pages oldsz := by
    unfold pages
    omega
  have hup := PGROUNDUP_eq (show newsz < 2 ^ 31 by omega)
  obtain ⟨s', hrun, hb, hm, hpte, htab⟩ :=
    visitAll_spec h (v := pages newsz) (n := pages oldsz - pages newsz) (by omega)
  rw [Nat.add_sub_of_le hle] at hm hpte
  refine ⟨s', ?_, hrun, hb.pool, fun u hu => ?_, htab, fun p hpf hin hno => ?_⟩
  · have hfrom := deallocuvmFrom_visits hold h (n := allPages) (v := pages newsz)
      (by simp only [allPages]; omega) (by omega)
    rw [deallocuvm, if_neg (Nat.not_le.2 hnew), hup, Prog.bind_of_ret (hfrom.trans hrun)]
    rfl
  · rw [hup]
    by_cases hin : u ∈ Set.Ico (pages newsz) (pages oldsz)
    · rw [hpte u hin]
      refine if_congr ⟨fun hp => ⟨?_, lt_iff_pages.2 hin.2, hp⟩, fun hp => hp.2.2⟩ rfl rfl
      exact Nat.mul_le_mul_left _ hin.1
    · rw [hm.outside u hu hin, if_neg fun hp => hin ⟨?_, lt_iff_pages.1 hp.2.1⟩]
      exact Nat.le_of_mul_le_mul_left hp.1 (by decide)
  · refine hm.frame p hpf hin fun u _ hu hf => hno (mem_frames.2 ⟨u, hu.1, ?_, hf⟩)
    rw [Nat.add_sub_of_le hle]
    exact hu.2

/-- A heap of three pages and the stack at the top. -/
theorem deallocuvm_exact_heap : ∃ s free d s', Backed Link.sample s free d ∧
    Mapped s.mem d 10000 1 ∧ deallocuvm Link.sample (kva d) KERNBASE 4096 s = .ret (4096, s') ∧
    Pool Link.sample s' ((frames s.mem d 1 524287).reverse ++ free) := by
  obtain ⟨s, free, d, hw, -, hmap, -⟩ :=
    exists_space Link.sample (by decide : pages 10000 ≤ 40000)
  obtain ⟨s', hrun, -, hpool, -⟩ := deallocuvm_exact hw.backed le_rfl
    (show 4096 < KERNBASE by decide)
  exact ⟨s, free, d, s', hw.backed, hmap, hrun, hpool⟩

end Dealloc

section Load

def Clean (m : Pages) (d : ℕ) : Prop :=
  ∀ v < UPAGES, present (pte m d v) = false → pte m d v = 0

/-- Only user pages differ, and the first page of the memory: that is where `loaduvm` writes
when an entry is empty. -/
structure Spilled (d : ℕ) (s s' : Kmem) : Prop where
  freelist : s'.freelist = s.freelist
  other : ∀ p, p ≠ 0 → (∀ v < UPAGES, frm s.mem d v ≠ some p) → s'.mem p = s.mem p

theorem Spilled.wf (h : Spilled d s s') (hw : Wf L s free d) :
    Wf L s' free d ∧ (∀ v < 2 ^ 20, pte s'.mem d v = pte s.mem d v) ∧
      ∀ p, Own s'.mem d p ↔ Own s.mem d p := by
  have hinner : ∀ p, Inner s.mem d p → s'.mem p = s.mem p := fun p hp =>
    h.other p (by have := (hw.tree.page p hp.own).pos; omega) fun v hv hf =>
      hw.tree.frm_not_inner hv hf hp
  obtain ⟨-, hpte, htree, hown⟩ := hw.tree.keep hinner
  refine ⟨⟨hw.pool.congr h.freelist fun p hp => ?_, htree,
    fun p hp ho => hw.apart p hp ((hown p).1 ho)⟩, hpte, hown⟩
  exact h.other p (by have := (hw.pool.page p hp).pos; omega) fun v hv hf =>
    hw.apart p hp (Tree.frm_own hv hf)

theorem Spilled.trans {s'' : Kmem} (h : Spilled d s s') (hw : Wf L s free d)
    (h' : Spilled d s' s'') : Spilled d s s'' where
  freelist := h'.freelist.trans h.freelist
  other p hp hf := by
    refine (h'.other p hp fun v hv => ?_).trans (h.other p hp hf)
    rw [frm_congr ((h.wf hw).2.1 v (hv.trans UPAGES_lt))]
    exact hf v hv

theorem Clean.congr {m m' : Pages} (h : Clean m d)
    (hpte : ∀ v < UPAGES, pte m' d v = pte m d v) : Clean m' d := fun v hv hp => by
  rw [hpte v hv] at hp ⊢
  exact h v hv hp

theorem loaduvmFrom_spills (ip : Inode) (offset fuel j : ℕ) {v₀ sz : ℕ} (h : Wf L s free d)
    (hclean : Clean s.mem d) (hend : 4096 * v₀ + sz ≤ KERNBASE)
    (hfuel : pages sz - j < fuel) :
    Prog.Wp (loaduvmFrom (kva d) (4096 * v₀) ip offset sz fuel (4096 * j))
      (fun _ s' => Spilled d s s') (· = "loaduvm: address should exist") s := by
  have hK : KERNBASE = 2147483648 := rfl
  have hU : UPAGES = 524288 := rfl
  induction fuel generalizing j s with
  | zero => omega
  | succ fuel ih =>
    unfold Prog.Wp
    by_cases hlt : 4096 * j < sz
    swap
    · rw [loaduvmFrom, if_neg hlt]
      exact ⟨rfl, fun _ _ _ => rfl⟩
    have hj := lt_iff_pages.1 hlt
    have hv : v₀ + j < UPAGES := by omega
    cases ht : tab s.mem d ((v₀ + j) / 1024) with
    | none =>
      have haddr : add32 (4096 * v₀) (4096 * j) = 4096 * (v₀ + j) := by
        unfold add32
        omega
      have hwalk := walkpgdir_none h.tree.dir (show 4096 * (v₀ + j) < 2 ^ 32 by omega)
        (by rwa [Nat.mul_div_cancel_left _ (by decide)])
      rw [loaduvmFrom, if_pos hlt, haddr, Prog.bind_of_ret hwalk, if_pos rfl]
      rfl
    | some t =>
      -- the page is a frame of the directory, or the first of the memory
      have hpage : pte s.mem d (v₀ + j) / 4096 < 2 ^ 19 ∧ ∀ p, p ≠ 0 →
          (∀ v < UPAGES, frm s.mem d v ≠ some p) → p ≠ pte s.mem d (v₀ + j) / 4096 := by
        cases hp : present (pte s.mem d (v₀ + j)) with
        | true =>
          have hfrm : frm s.mem d (v₀ + j) = some (pte s.mem d (v₀ + j) / 4096) :=
            frm_eq_some.2 ⟨hp, rfl⟩
          have hlow := (h.tree.page _ (Tree.frm_own hv hfrm)).lt
          refine ⟨by omega, fun p _ hno heq => hno (v₀ + j) hv ?_⟩
          rw [heq, hfrm]
        | false =>
          rw [hclean (v₀ + j) hv hp]
          exact ⟨by decide, fun p hp _ => hp⟩
      rw [loaduvmFrom_page h hv hlt ht hpage.1]
      cases readi ip (add32 offset (4096 * j)) (min (sz - 4096 * j) 4096) with
      | none => exact ⟨rfl, fun _ _ _ => rfl⟩
      | some c =>
        have hspill : Spilled d s (startPut s (pte s.mem d (v₀ + j) / 4096) c
            fun a => ip.data (add32 offset (4096 * j) + a)) :=
          ⟨rfl, fun p hp hno => startPut_of_ne (hpage.2 p hp hno)⟩
        simp only
        split_ifs with hc
        · exact hspill
        · obtain ⟨hw₁, hpte₁, -⟩ := hspill.wf h
          refine Outcome.Post.mono (ih hw₁ (hclean.congr fun v hv =>
            hpte₁ v (hv.trans UPAGES_lt)) (j := j + 1) (by omega)) (fun r hr => hspill.trans h hr)
            fun _ hm => hm

end Load

section Runs

inductive VmCall
  | allocuvm (oldsz newsz : ℕ)
  | deallocuvm (oldsz newsz : ℕ)
  | loaduvm (addr : ℕ) (ip : Inode) (offset sz : ℕ)

namespace VmCall

def Fits : VmCall → Prop
  | .allocuvm oldsz newsz => oldsz ≤ KERNBASE ∧ newsz ≤ KERNBASE
  | .deallocuvm oldsz newsz => oldsz ≤ KERNBASE ∧ newsz ≤ KERNBASE
  | .loaduvm addr _ _ sz => addr + sz ≤ KERNBASE

def run (L : Link) (pgdir : ℕ) : VmCall → Prog Kmem Unit
  | .allocuvm oldsz newsz => do
    let _ ← Vm.allocuvm L pgdir oldsz newsz
    return ()
  | .deallocuvm oldsz newsz => do
    let _ ← Vm.deallocuvm L pgdir oldsz newsz
    return ()
  | .loaduvm addr ip offset sz => do
    let _ ← Sys.loaduvm pgdir addr ip offset sz
    return ()

end VmCall

/-- The directory in frame `d`, with the free list and the pages that were taken from it for the
directory and are not yet returned. Between its calls others use the memory that is not
taken. -/
inductive Uses (L : Link) (d : ℕ) : Kmem → List ℕ → Set ℕ → Prop
  | setup {s s' : Kmem} {free free' : List ℕ} : Pool L s free → setupkvm L s = .ret (kva d, s') →
      Pool L s' free' → Uses L d s' free' {p | p ∈ free ∧ p ∉ free'}
  | call {s s' : Kmem} {free free' : List ℕ} {taken : Set ℕ} (c : VmCall) :
      Uses L d s free taken → c.Fits →
      c.run L (kva d) s = .ret ((), s') → Pool L s' free' →
      Uses L d s' free' {p | (p ∈ taken ∨ p ∈ free) ∧ p ∉ free'}
  | other {s s' : Kmem} {free free' : List ℕ} {taken : Set ℕ} : Uses L d s free taken → Pool L s' free' →
      (∀ p ∈ taken, p ∉ free' ∧ s'.mem p = s.mem p) → Uses L d s' free' taken

theorem VmCall.step {c : VmCall} (h : Wf L s free d) (hclean : Clean s.mem d) (hfits : c.Fits)
    (hrun : c.run L (kva d) s = .ret ((), s')) :
    ∃ free', Wf L s' free' d ∧ Clean s'.mem d ∧
      ∀ p, (p ∈ free' ∨ Own s'.mem d p) ↔ (p ∈ free ∨ Own s.mem d p) := by
  have hmoved : ∀ {R : Set ℕ} {t : Kmem} {pages : List ℕ}, Wf L t pages d →
      Moved R d s free t pages → ∃ free', Wf L t free' d ∧ Clean t.mem d ∧
        ∀ p, (p ∈ free' ∨ Own t.mem d p) ↔ (p ∈ free ∨ Own s.mem d p) := by
    intro R t pages hw hm
    refine ⟨pages, hw, fun v hv hp => ?_, hm.conserve⟩
    rcases hm.cleared v hv hp with h0 | heq
    · exact h0
    · rw [heq] at hp ⊢
      exact hclean v hv hp
  have hsame : ∃ free', Wf L s free' d ∧ Clean s.mem d ∧
      ∀ p, (p ∈ free' ∨ Own s.mem d p) ↔ (p ∈ free ∨ Own s.mem d p) :=
    ⟨free, h, hclean, fun _ => Iff.rfl⟩
  cases c with
  | allocuvm oldsz newsz =>
    obtain ⟨r, t, hcall, hret⟩ := Prog.bind_ret hrun
    cases hret
    by_cases hnew : KERNBASE ≤ newsz
    · rw [Vm.allocuvm, if_pos hnew] at hcall
      cases hcall
      exact hsame
    by_cases hle : oldsz ≤ newsz
    · have hspec := allocuvm_spec h (Nat.lt_of_not_le hnew) hle
      rw [hcall] at hspec
      cases hspec with
      | mapped hw hm => exact hmoved hw hm
      | failed hw hm => exact hmoved hw hm
    · rw [Vm.allocuvm, if_neg hnew, if_pos (Nat.lt_of_not_le hle)] at hcall
      cases hcall
      exact hsame
  | deallocuvm oldsz newsz =>
    obtain ⟨r, t, hcall, hret⟩ := Prog.bind_ret hrun
    cases hret
    by_cases hle : oldsz ≤ newsz
    · rw [Vm.deallocuvm, if_pos hle] at hcall
      cases hcall
      exact hsame
    · obtain ⟨t', free', hcall', hw, hm, -, -⟩ :=
        deallocuvm_spec h hfits.1 (Nat.lt_of_not_le hle)
      cases hcall.symm.trans hcall'
      exact hmoved hw hm
  | loaduvm addr ip offset sz =>
    obtain ⟨r, t, hcall, hret⟩ := Prog.bind_ret hrun
    cases hret
    unfold Sys.loaduvm at hcall
    split_ifs at hcall with haligned
    · cases hcall
    · have hal : addr = 4096 * (addr / 4096) := by
        unfold PGSIZE at haligned
        omega
      have hfit : 4096 * (addr / 4096) + sz ≤ KERNBASE := by
        rw [← hal]
        exact hfits
      have hspill := loaduvmFrom_spills ip offset allPages 0 h hclean hfit (by
          have hK : KERNBASE = 2147483648 := rfl
          unfold pages allPages
          omega)
      rw [← hal] at hspill
      unfold Prog.Wp at hspill
      rw [hcall] at hspill
      obtain ⟨hw, hpte, hown⟩ := Spilled.wf hspill h
      exact ⟨free, hw, hclean.congr fun v hv => hpte v (hv.trans UPAGES_lt),
        fun p => or_congr_right (hown p)⟩

theorem Uses.held {taken : Set ℕ} (h : Uses L d s free taken) :
    Wf L s free d ∧ Clean s.mem d ∧ ∀ p, p ∈ taken ↔ Own s.mem d p := by
  induction h with
  | @setup s s' free free' hpool hrun hpool' =>
    have hspec := setupkvmAt_spec L.dataAt hpool
    change BuildOutcome L L.data s free (setupkvm L s) at hspec
    generalize setupkvm L s = o at hrun hspec
    cases hspec with
    | @built d' c s₁ hc hlen hw hpte hout htab hown hm =>
      obtain ⟨hd, rfl⟩ := Outcome.ret_inj hrun
      obtain rfl := kva_inj hd
      obtain rfl := hpool'.unique hw.pool
      refine ⟨hw, fun v hv _ => ?_, fun p => ?_⟩
      · exact hout v (hv.trans UPAGES_lt) fun k hk hkv =>
          Nat.not_lt.2 ((L.dataAt.whole k hk).high.trans hkv.1) hv
      · rw [Set.mem_ofPred_eq, ← hown p]
        exact ⟨fun hp => hp.1.resolve_left hp.2, fun hp => ⟨.inr hp, fun hin => hw.apart p hin hp⟩⟩
    | failed => exact absurd (Outcome.ret_inj hrun).1.symm (kva_ne_zero d)
  | @call s s' free free' taken c _ hfits hrun hpool' ih =>
    obtain ⟨hw, hclean, htaken⟩ := ih
    obtain ⟨free₁, hw₁, hclean₁, hmem⟩ := c.step hw hclean hfits hrun
    obtain rfl := hpool'.unique hw₁.pool
    refine ⟨hw₁, hclean₁, fun p => ?_⟩
    rw [Set.mem_ofPred_eq, htaken, or_comm, ← hmem p]
    exact ⟨fun hp => hp.1.resolve_left hp.2, fun hp => ⟨.inr hp, fun hin => hw₁.apart p hin hp⟩⟩
  | @other s s' free free' taken _ hpool' hkeep ih =>
    obtain ⟨hw, hclean, htaken⟩ := ih
    have hinner : ∀ p, Inner s.mem d p → s'.mem p = s.mem p := fun p hp =>
      (hkeep p ((htaken p).2 hp.own)).2
    obtain ⟨-, hpte, htree, hown⟩ := hw.tree.keep hinner
    refine ⟨⟨hpool', htree, fun p hp ho => ?_⟩, hclean.congr fun v hv =>
      hpte v (hv.trans UPAGES_lt), fun p => (htaken p).trans (hown p).symm⟩
    exact (hkeep p ((htaken p).2 ((hown p).1 ho))).1 hp

/-- At any time `freevm` returns what was taken and nothing else, and a `setupkvm` that fails has
returned everything. -/
theorem freevm_undoes (L : Link) :
    (∀ d s free taken, Uses L d s free taken →
      (∃ s' free', freevm L (kva d) s = .ret ((), s') ∧ Pool L s' free' ∧
        (∀ p, p ∈ free' ↔ p ∈ free ∨ p ∈ taken) ∧ ∀ p ∈ taken, p ∉ free) ∧
      ∀ c : VmCall, ∀ s', c.Fits → c.run L (kva d) s = .ret ((), s') →
        ∃ free', Pool L s' free' ∧ ∀ p ∈ free', p ∈ free ∨ p ∈ taken) ∧
    ∀ s free s', Pool L s free → setupkvm L s = .ret (0, s') →
      ∃ free', Pool L s' free' ∧ ∀ p, p ∈ free' ↔ p ∈ free := by
  refine ⟨fun d s free taken h => ⟨?_, fun c s' hfits hrun => ?_⟩, fun s free s' hpool hrun => ?_⟩
  · obtain ⟨hw, -, htaken⟩ := h.held
    obtain ⟨s', free', hrun, hpool, hmem, -⟩ := freevm_spec hw
    refine ⟨s', free', hrun, hpool, fun p => ?_, fun p hp hin => hw.apart p hin ((htaken p).1 hp)⟩
    rw [hmem p, htaken p]
  · obtain ⟨hw, hclean, htaken⟩ := h.held
    obtain ⟨free', hw', -, hmem⟩ := c.step hw hclean hfits hrun
    refine ⟨free', hw'.pool, fun p hp => ?_⟩
    rw [htaken p]
    exact (hmem p).1 (.inl hp)
  · have hspec := setupkvm_spec hpool
    generalize setupkvm L s = o at hrun hspec
    cases hspec with
    | @built d _ _ _ _ _ _ _ _ =>
      exact absurd (Outcome.ret_inj hrun).1 (kva_ne_zero d)
    | @failed s₁ free' hp hc _ _ =>
      obtain ⟨-, rfl⟩ := Outcome.ret_inj hrun
      exact ⟨free', hp, hc⟩

/-- A directory with a heap, from the memory at boot. -/
theorem freevm_undoes_heap : ∃ d s free taken s' free', Uses Link.sample d s free taken ∧
    d ∈ taken ∧ freevm Link.sample (kva d) s = .ret ((), s') ∧ Pool Link.sample s' free' ∧
    ∀ p, p ∈ free' ↔ p ∈ free ∨ p ∈ taken := by
  obtain ⟨s₀, free₀, -, hp₀, hmem₀⟩ := kinit_spec (L := Link.sample) fun _ => Bytes.zero
  have hlen₀ := length_of_page hp₀ hmem₀
  have hspec := setupkvm_spec hp₀
  generalize hrun₁ : setupkvm Link.sample s₀ = o at hspec
  cases hspec with
  | failed _ _ _ hlen => omega
  | @built d s₁ free₁ hw₁ _ hu₁ _ _ hlen₁ =>
    have huses := Uses.setup hp₀ hrun₁ hw₁.pool
    have hneed := need_le (m := s₁.mem) (d := d) (a := pages 0) (b := pages 10000)
    have hpages : pages 10000 = 3 ∧ pages 0 = 0 := by decide
    obtain ⟨s₂, free₂, hrun₂, hw₂, -, -, -⟩ := allocuvm_mapped hw₁
      (show 10000 < KERNBASE by decide) (Nat.zero_le _)
      (fun u hu => hu₁ u (Nat.lt_of_lt_of_le hu.2 (by rw [hpages.1]; decide)))
      (hneed.trans (by rw [hpages.1, hpages.2]; omega))
    have hcall := Uses.call (.allocuvm 0 10000) huses ⟨by decide, by decide⟩
      (by rw [VmCall.run, Prog.bind_of_ret hrun₂]; rfl) hw₂.pool
    obtain ⟨s', free', hrun, hpool, hmem, -⟩ :=
      ((freevm_undoes Link.sample).1 d s₂ free₂ _ hcall).1
    exact ⟨d, s₂, free₂, _, s', free', hcall, (hcall.held.2.2 d).2 ⟨.dir, rfl⟩, hrun, hpool, hmem⟩

end Runs

end Xv6.Sys
