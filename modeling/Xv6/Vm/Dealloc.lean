import Xv6.Vm.Map

/-!
# Unmapping user pages

`deallocuvm` returns the frames of a range of pages to the free list, skipping the
parts of the range without a page table; `freevm` returns every page of a directory.
-/

namespace Xv6.Vm
open Lib

def pages (sz : ℕ) : ℕ := (sz + 4095) / 4096

variable {L : Link} {s s' : Kmem} {free free' : List ℕ} {d v t p : ℕ}

theorem lt_iff_pages {sz : ℕ} : 4096 * v < sz ↔ v < pages sz := by
  simp only [pages]
  omega

theorem PGROUNDUP_eq {sz : ℕ} (h : sz < 2 ^ 31) : PGROUNDUP sz = 4096 * pages sz := by
  simp only [PGROUNDUP, add32, PGSIZE, pages]
  omega

theorem pages_le {sz : ℕ} (h : sz ≤ KERNBASE) : pages sz ≤ UPAGES := by
  simp only [pages, UPAGES, KERNBASE, PGSIZE] at *
  omega

theorem add32_page (hv : v < 2 ^ 19) : add32 (4096 * v) PGSIZE = 4096 * (v + 1) := by
  simp only [add32, PGSIZE]
  omega

theorem next_table (hv : v < 2 ^ 19) :
    add32 (sub32 (PGADDR (PDX (4096 * v) + 1) 0 0) PGSIZE) PGSIZE =
      4096 * ((v / 1024 + 1) * 1024) := by
  simp only [add32, sub32, PGADDR, PDX, PGSIZE]
  omega

theorem Link.Page.pos {L : Link} (h : L.Page p) : 256 < p := by
  have h1 := h.1
  have h2 := L.data_lt
  have h3 := L.text
  simp only [kva, KERNLINK, KERNBASE, EXTMEM, PGSIZE] at *
  omega

theorem unmap_page (h : Backed L s free d) (hv : v < UPAGES)
    (ht : tab s.mem d (v / 1024) = some t) (hp : frm s.mem d v = some p) :
    ∃ s₁ s', kfree L (kva p) s = .ret ((), s₁) ∧
      store (kva t + 4 * (v % 1024)) 0 s₁ = .ret ((), s') ∧ Backed L s' (p :: free) d ∧
      Moved {v} d s free s' (p :: free) ∧ pte s'.mem d v = 0 ∧
      ∀ i, tab s'.mem d i = tab s.mem d i := by
  have hv20 : v < 2 ^ 20 := hv.trans UPAGES_lt
  have hmod := Nat.mod_lt v (show 0 < 1024 by omega)
  have hown : Own s.mem d p := Tree.frm_own hv hp
  obtain ⟨s₁, hfree, hpool, hmem⟩ :=
    h.pool.kfree (h.bare.page p hown) fun hin => h.apart p hin hown
  -- the freed frame is no table, so every entry can still be read
  have hinner : ∀ q, Inner s.mem d q → s₁.mem q = s.mem q := fun q hq =>
    hmem q fun heq => h.bare.frm_not_inner hv hp (heq ▸ hq)
  obtain ⟨htab₁, hpte₁, hbare₁, hown₁⟩ := h.bare.keep hinner
  have ht₁ := (htab₁ (v / 1024)).trans ht
  obtain ⟨hbare, hown₂⟩ := hbare₁.clearPte ht₁ hv (p := p) (by rw [frm_congr (hpte₁ v hv20), hp])
  have htab₂ := fun i => tab_setPte (i := i) (w := 0) hbare₁.dir ht₁ hv20
  have hpte₂ := fun u (hu : u < 2 ^ 20) =>
    pte_setPte hbare₁.dir ht₁ hv20 (show 0 < 2 ^ 32 by decide) hu
  have htin : Inner s.mem d t := Or.inr ⟨v / 1024, by omega, ht⟩
  refine ⟨s₁, { s₁ with mem := s₁.mem.setWord t (v % 1024) 0 }, hfree,
    store_kva (hbare₁.dir.tab_lt (by omega) ht₁) hmod,
    ⟨hpool.congr rfl fun q hq => Pages.setWord_of_ne _ ?_, hbare, fun q hq ho => ?_⟩,
    ⟨fun u hu huv => ?_, fun q hq hin hR => ?_, fun q => ?_, fun i _ x hx => ?_,
      fun u hu _ => ?_⟩, ?_, fun i => (htab₂ i).trans (htab₁ i)⟩
  · rintro rfl
    rcases List.mem_cons.mp hq with rfl | hq
    · exact h.bare.frm_not_inner hv hp htin
    · exact h.apart q hq htin.own
  · obtain ⟨ho₁, hne⟩ := (hown₂ q).mp ho
    rcases List.mem_cons.mp hq with rfl | hq
    · exact hne rfl
    · exact h.apart q hq ((hown₁ q).mp ho₁)
  · exact ((hpte₂ u hu).trans (if_neg (by simpa using huv))).trans (hpte₁ u hu)
  · refine (Pages.setWord_of_ne _ fun heq : q = t => hin (heq ▸ htin)).trans (hmem q fun heq => ?_)
    exact hR v hv rfl (heq ▸ hp)
  · show q ∈ p :: free ∨ Own _ d q ↔ _
    rw [hown₂ q, hown₁ q, List.mem_cons]
    by_cases hqp : q = p
    · subst hqp
      simp [hown]
    · simp [hqp]
  · exact ((htab₂ i).trans (htab₁ i)).trans hx
  · have hpte := hpte₂ u (hu.trans UPAGES_lt)
    by_cases huv : u = v
    · exact Or.inl (hpte.trans (if_pos huv))
    · exact Or.inr ((hpte.trans (if_neg huv)).trans (hpte₁ u (hu.trans UPAGES_lt)))
  · exact (hpte₂ v hv20).trans (if_pos rfl)

section Visit

def visit (L : Link) (pgdir a : ℕ) : Prog Kmem Unit := do
  let pte ← walkpgdir pgdir a false
  if pte = 0 then return ()
  else do
    let w ← load pte
    if present w then do
      if PTE_ADDR w = 0 then .panic "kfree"
      else do
        kfree L (P2V (PTE_ADDR w))
        store pte 0
    else return ()

def visitAll (L : Link) (pgdir : ℕ) : ℕ → ℕ → Prog Kmem Unit
  | 0, _ => return ()
  | n + 1, v => do
    visit L pgdir (4096 * v)
    visitAll L pgdir n (v + 1)

theorem visit_absent (h : Dir L s.mem d) (hv : v < 2 ^ 20) (ht : tab s.mem d (v / 1024) = none) :
    visit L (kva d) (4096 * v) s = .ret ((), s) := by
  have hdiv : 4096 * v / 4096 = v := by omega
  have hwalk := walkpgdir_none h (a := 4096 * v) (by omega) (by rwa [hdiv])
  simp [visit, hwalk]

theorem visit_spec (h : Backed L s free d) (hv : v < UPAGES) :
    ∃ s', visit L (kva d) (4096 * v) s = .ret ((), s') ∧
      Backed L s' ((frm s.mem d v).toList ++ free) d ∧
      Moved {v} d s free s' ((frm s.mem d v).toList ++ free) ∧
      pte s'.mem d v = (if present (pte s.mem d v) then 0 else pte s.mem d v) ∧
      ∀ i, tab s'.mem d i = tab s.mem d i := by
  have hU : UPAGES = 2 ^ 19 := rfl
  have hdiv : 4096 * v / 4096 = v := by omega
  cases ht : tab s.mem d (v / 1024) with
  | none =>
    refine ⟨s, visit_absent h.bare.dir (by omega) ht, ?_, ?_, ?_, fun _ => rfl⟩
    · rwa [frm_of_tab_none ht]
    · rw [frm_of_tab_none ht]
      exact .refl _ _ _ _
    · rw [pte_of_tab_none ht, if_neg (by decide)]
  | some t =>
    have hwalk := walkpgdir_tab h.bare.dir (a := 4096 * v) (by omega) (by rwa [hdiv]) false
    rw [hdiv] at hwalk
    have hl := load_kva (s := s) (h.bare.dir.tab_lt (by omega) ht)
      (Nat.mod_lt v (show 0 < 1024 by omega))
    rw [← pte_of_tab ht] at hl
    by_cases hp : present (pte s.mem d v) = true
    · have hfrm : frm s.mem d v = some (pte s.mem d v / 4096) := frm_eq_some.mpr ⟨hp, rfl⟩
      have hpage := h.bare.page _ (Tree.frm_own hv hfrm)
      have hplt : pte s.mem d v / 4096 < 2 ^ 19 := by have := hpage.lt; omega
      obtain ⟨s₁, s', hfree, hstore, hw, hm, hpte, htab⟩ := unmap_page h hv ht hfrm
      rw [hfrm, if_pos hp]
      refine ⟨s', ?_, hw, hm, hpte, htab⟩
      have hne : ¬PTE_ADDR (pte s.mem d v) = 0 := by
        have := hpage.pos
        simp only [PTE_ADDR, PGSIZE]
        omega
      simp [visit, hwalk, hl, hp, kva_ne_zero, hne, P2V_PTE_ADDR hplt, hfree, hstore]
    · rw [frm_eq_none.2 (Bool.eq_false_iff.2 hp), if_neg hp]
      refine ⟨s, ?_, h, .refl _ _ _ _, rfl, fun _ => rfl⟩
      simp [visit, hwalk, hl, hp, kva_ne_zero]

def frames (m : Pages) (d v n : ℕ) : List ℕ := (List.range' v n).filterMap (frm m d)

theorem frames_succ (m : Pages) (d v n : ℕ) :
    frames m d v (n + 1) = (frm m d v).toList ++ frames m d (v + 1) n := by
  rw [frames, List.range'_succ, List.filterMap_cons]
  cases frm m d v <;> rfl

theorem visitAll_spec {n : ℕ} (h : Backed L s free d) (hvn : v + n ≤ UPAGES) :
    ∃ s', visitAll L (kva d) n v s = .ret ((), s') ∧
      Backed L s' ((frames s.mem d v n).reverse ++ free) d ∧
      Moved (Set.Ico v (v + n)) d s free s' ((frames s.mem d v n).reverse ++ free) ∧
      (∀ u ∈ Set.Ico v (v + n),
        pte s'.mem d u = if present (pte s.mem d u) then 0 else pte s.mem d u) ∧
      ∀ i, tab s'.mem d i = tab s.mem d i := by
  induction n generalizing v s free with
  | zero =>
    exact ⟨s, rfl, h, .refl _ _ _ _, fun u hu => absurd hu.2 (Nat.not_lt.2 hu.1), fun _ => rfl⟩
  | succ n ih =>
    obtain ⟨s₁, hrun₁, hb₁, hm₁, hpte₁, htab₁⟩ := visit_spec h (v := v) (by omega)
    obtain ⟨s', hrun, hb, hm, hpte, htab⟩ := ih hb₁ (v := v + 1) (by omega)
    have hkeep : ∀ u, u ≠ v → u < UPAGES → pte s₁.mem d u = pte s.mem d u := fun u hne hu =>
      hm₁.outside u (hu.trans UPAGES_lt) (by simpa using hne)
    have hframes : frames s₁.mem d (v + 1) n = frames s.mem d (v + 1) n := by
      refine List.filterMap_congr fun u hu => frm_congr (hkeep u ?_ ?_) <;>
        have := List.mem_range'_1.1 hu <;> omega
    have hlist : (frames s.mem d v (n + 1)).reverse ++ free =
        (frames s.mem d (v + 1) n).reverse ++ ((frm s.mem d v).toList ++ free) := by
      rw [frames_succ, List.reverse_append, List.append_assoc]
      cases frm s.mem d v <;> rfl
    rw [hframes, ← hlist] at hb hm
    refine ⟨s', ?_, hb, (hm₁.mono ?_).trans hb₁.bare hb₁.apart (hm.mono ?_), fun u hu => ?_,
      fun i => (htab i).trans (htab₁ i)⟩
    · rw [visitAll, Prog.bind_of_ret hrun₁, hrun]
    · exact Set.singleton_subset_iff.mpr ⟨le_rfl, by omega⟩
    · exact fun u hu => ⟨by have := hu.1; omega, by have := hu.2; omega⟩
    · by_cases huv : u = v
      · subst huv
        rw [hm.outside u (by have := UPAGES_lt; omega) fun hin => by have := hin.1; omega, hpte₁]
      · have h1 := hu.1
        have h2 := hu.2
        rw [hpte u ⟨by omega, by omega⟩, hkeep u huv (by omega)]

theorem visitAll_skip {n k : ℕ} (h : Dir L s.mem d) (hvn : v + n ≤ UPAGES) (hk : k ≤ n)
    (ht : tab s.mem d (v / 1024) = none) (hend : v + k ≤ (v / 1024 + 1) * 1024) :
    visitAll L (kva d) n v s = visitAll L (kva d) (n - k) (v + k) s := by
  induction k with
  | zero => rfl
  | succ k ih =>
    have hlt := UPAGES_lt
    rw [ih (by omega) (by omega), show n - k = n - (k + 1) + 1 by omega, visitAll,
      Prog.bind_of_ret (visit_absent h (by omega)
        (by rwa [show (v + k) / 1024 = v / 1024 by omega]))]
    rfl

theorem deallocuvmFrom_page {oldsz n : ℕ} (h : Dir L s.mem d) (hv : v < pages oldsz)
    (hvU : v < UPAGES) (ht : tab s.mem d (v / 1024) = some t) :
    deallocuvmFrom L (kva d) oldsz (n + 1) (4096 * v) s =
      (visit L (kva d) (4096 * v) >>= fun _ => deallocuvmFrom L (kva d) oldsz n (4096 * (v + 1)))
        s := by
  have hU : UPAGES = 2 ^ 19 := rfl
  have hdiv : 4096 * v / 4096 = v := by omega
  have hwalk := walkpgdir_tab h (a := 4096 * v) (by omega) (by rwa [hdiv]) false
  have hl := load_kva (s := s) (h.tab_lt (by omega) ht) (Nat.mod_lt v (show 0 < 1024 by omega))
  rw [hdiv] at hwalk
  have hne : ¬kva t + 4 * (v % 1024) = 0 := by have := kva_ne_zero t; omega
  rw [deallocuvmFrom, if_pos (lt_iff_pages.2 hv), visit, add32_page (by omega), Prog.bind_assoc,
    Prog.bind_of_ret hwalk, Prog.bind_of_ret hwalk, if_neg hne, if_neg hne, Prog.bind_assoc,
    Prog.bind_of_ret hl, Prog.bind_of_ret hl]
  split_ifs
  · rfl
  · rw [Prog.bind_assoc]
  · rfl

theorem deallocuvmFrom_visits {oldsz : ℕ} (hold : oldsz ≤ KERNBASE) {n : ℕ}
    (h : Backed L s free d) (hfuel : pages oldsz - v < n) (hv : v ≤ 2 ^ 19) :
    deallocuvmFrom L (kva d) oldsz n (4096 * v) s =
      visitAll L (kva d) (pages oldsz - v) v s := by
  have hE := pages_le hold
  have hU : UPAGES = 2 ^ 19 := rfl
  induction n generalizing v s free with
  | zero => omega
  | succ n ih =>
    by_cases hlt : v < pages oldsz
    swap
    · rw [deallocuvmFrom, if_neg (by rwa [lt_iff_pages]), show pages oldsz - v = 0 by omega]
      rfl
    have hdiv : 4096 * v / 4096 = v := by omega
    cases ht : tab s.mem d (v / 1024) with
    | none =>
      -- the whole table is missing: the loop goes on at the next one
      have hwalk := walkpgdir_none h.bare.dir (a := 4096 * v) (by omega) (by rwa [hdiv])
      rw [deallocuvmFrom, if_pos (lt_iff_pages.2 hlt), Prog.bind_of_ret hwalk, if_pos rfl,
        next_table (show v < 2 ^ 19 by omega), ih h (by omega) (by omega)]
      by_cases hend : (v / 1024 + 1) * 1024 ≤ pages oldsz
      · rw [visitAll_skip (k := (v / 1024 + 1) * 1024 - v) h.bare.dir (by omega) (by omega) ht
          (by omega)]
        congr 1 <;> omega
      · rw [visitAll_skip (k := pages oldsz - v) h.bare.dir (by omega) le_rfl ht (by omega),
          show pages oldsz - (v / 1024 + 1) * 1024 = 0 by omega, Nat.sub_self]
        rfl
    | some t =>
      obtain ⟨s₁, hrun₁, hb₁, -, -, -⟩ := visit_spec h (v := v) (by omega)
      rw [deallocuvmFrom_page h.bare.dir hlt (by omega) ht, Prog.bind_of_ret hrun₁,
        ih hb₁ (by omega) (by omega), show pages oldsz - v = pages oldsz - (v + 1) + 1 by omega,
        visitAll, Prog.bind_of_ret hrun₁]

end Visit

theorem deallocuvmFrom_spec {oldsz : ℕ} (hold : oldsz ≤ KERNBASE) {n : ℕ} (h : Wf L s free d)
    (hfuel : pages oldsz - v < n) (hv : v ≤ 2 ^ 19) :
    ∃ s' free', deallocuvmFrom L (kva d) oldsz n (4096 * v) s = .ret ((), s') ∧
      Wf L s' free' d ∧ Moved (Set.Ico v (pages oldsz)) d s free s' free' ∧
      (∀ u ∈ Set.Ico v (pages oldsz), present (pte s'.mem d u) = false) ∧
      ∀ i, tab s'.mem d i = tab s.mem d i := by
  have hE := pages_le hold
  have hU : UPAGES = 2 ^ 19 := rfl
  obtain ⟨s', hrun, hb, hm, hpte, htab⟩ :=
    visitAll_spec h.backed (v := v) (n := pages oldsz - v) (by omega)
  have hset : Set.Ico v (v + (pages oldsz - v)) = Set.Ico v (pages oldsz) := by
    ext u
    simp only [Set.mem_Ico]
    omega
  rw [hset] at hm hpte
  have habs : ∀ u ∈ Set.Ico v (pages oldsz), present (pte s'.mem d u) = false := fun u hu => by
    rw [hpte u hu]
    split_ifs with hp
    · rfl
    · exact Bool.eq_false_iff.2 hp
  refine ⟨s', _, (deallocuvmFrom_visits hold h.backed hfuel hv).trans hrun,
    ⟨hb.pool, ⟨hb.bare, fun u hu hp => ?_⟩, hb.apart⟩, hm, habs, htab⟩
  by_cases hin : u ∈ Set.Ico v (pages oldsz)
  · rw [habs u hin] at hp
    cases hp
  · rw [hm.outside u (hu.trans UPAGES_lt) hin] at hp ⊢
    exact h.tree.user u hu hp

theorem deallocuvm_spec {oldsz newsz : ℕ} (h : Wf L s free d) (hold : oldsz ≤ KERNBASE)
    (hnew : newsz < oldsz) :
    ∃ s' free', deallocuvm L (kva d) oldsz newsz s = .ret (newsz, s') ∧ Wf L s' free' d ∧
      Moved (Set.Ico (pages newsz) (pages oldsz)) d s free s' free' ∧
      (∀ u ∈ Set.Ico (pages newsz) (pages oldsz), present (pte s'.mem d u) = false) ∧
      ∀ i, tab s'.mem d i = tab s.mem d i := by
  have hE := pages_le hold
  have hU : UPAGES = 2 ^ 19 := rfl
  have hK : KERNBASE = 2 ^ 31 := rfl
  have hN := pages_le (show newsz ≤ KERNBASE by omega)
  obtain ⟨s', free', hrun, hw, hm, habs, htab⟩ := deallocuvmFrom_spec hold (n := allPages) h
    (v := pages newsz) (by simp only [allPages]; omega) (by omega)
  refine ⟨s', free', ?_, hw, hm, habs, htab⟩
  rw [← PGROUNDUP_eq (show newsz < 2 ^ 31 by omega)] at hrun
  simp [deallocuvm, Nat.not_le.mpr hnew, hrun]

theorem freeTables_spec {is : List ℕ} (hnd : is.Nodup) (his : ∀ i ∈ is, i < 1024)
    (hpool : Pool L s free) (htree : Tree L s.mem d) (hd : d ∉ free)
    (hout : ∀ i ∈ is, ∀ t, tab s.mem d i = some t → t ∉ free) :
    ∃ s' free', freeTables L (kva d) is s = .ret ((), s') ∧ Pool L s' free' ∧
      (∀ p, p ∈ free' ↔ p ∈ free ∨ ∃ i ∈ is, tab s.mem d i = some p) ∧
      ∀ p, p ∉ free → (∀ i ∈ is, tab s.mem d i ≠ some p) → s'.mem p = s.mem p := by
  -- the directory page stays as it is, so the entries still to be read do not change
  suffices hgen : ∀ {is : List ℕ} {s₁ : Kmem} {free₁ : List ℕ}, is.Nodup → (∀ i ∈ is, i < 1024) →
      s₁.mem d = s.mem d → Pool L s₁ free₁ → d ∉ free₁ →
      (∀ i ∈ is, ∀ t, tab s.mem d i = some t → t ∉ free₁) →
      ∃ s' free', freeTables L (kva d) is s₁ = .ret ((), s') ∧ Pool L s' free' ∧
        (∀ p, p ∈ free' ↔ p ∈ free₁ ∨ ∃ i ∈ is, tab s.mem d i = some p) ∧
        ∀ p, p ∉ free₁ → (∀ i ∈ is, tab s.mem d i ≠ some p) → s'.mem p = s₁.mem p from
    hgen hnd his rfl hpool hd hout
  intro is
  induction is with
  | nil =>
    intro s₁ free₁ _ _ _ hp _ _
    exact ⟨s₁, free₁, rfl, hp, by simp, fun _ _ _ => rfl⟩
  | cons i is ih =>
    intro s₁ free₁ hnd his hsame hp hd hout
    obtain ⟨hi, hnd⟩ := List.nodup_cons.mp hnd
    have hilt := his i (by simp)
    have hl := load_kva (s := s₁) htree.dir.dir_lt hilt
    rw [Pages.word_congr hsame] at hl
    cases ht : tab s.mem d i with
    | none =>
      obtain ⟨s', free', hrun, hp', hmem, hframe⟩ := ih hnd (fun j hj => his j (by simp [hj]))
        hsame hp hd fun j hj => hout j (by simp [hj])
      refine ⟨s', free', ?_, hp', fun p => by simp [hmem, ht], fun p hpf hpt =>
        hframe p hpf fun j hj => hpt j (by simp [hj])⟩
      simp only [tab] at ht
      split_ifs at ht with hpres
      simp [freeTables, hl, hpres, hrun]
    | some t =>
      have hown := Tree.tab_own hilt ht
      have htd := htree.dir.tab_ne_dir hilt ht
      obtain ⟨s₂, hfree, hp₂, hmem₂⟩ :=
        hp.kfree (htree.page t hown) (hout i (by simp) t ht)
      obtain ⟨s', free', hrun, hp', hmem, hframe⟩ := @ih s₂ (t :: free₁) hnd
        (fun j hj => his j (by simp [hj])) ((hmem₂ d htd.symm).trans hsame) hp₂
        (by simp [htd.symm, hd]) (by
          intro j hj t' ht' hin
          rcases List.mem_cons.mp hin with rfl | hin
          · exact hi (htree.dir.tab_inj (his j (by simp [hj])) hilt ht' ht ▸ hj)
          · exact hout j (by simp [hj]) t' ht' hin)
      refine ⟨s', free', ?_, hp', fun p => ?_, fun p hpf hpt => ?_⟩
      · have hlt := htree.dir.tab_lt hilt ht
        simp only [tab] at ht
        split_ifs at ht with hpres
        rw [← Option.some.inj ht] at hlt hfree
        simp [freeTables, hl, hpres, P2V_PTE_ADDR hlt, hfree, hrun]
      · rw [hmem p]
        simp only [List.mem_cons, exists_eq_or_imp, ht, Option.some.injEq]
        rw [eq_comm (a := t)]
        tauto
      · have hne : p ≠ t := fun heq => hpt i (by simp) (heq ▸ ht)
        exact (hframe p (by simp [hne, hpf]) fun j hj => hpt j (by simp [hj])).trans (hmem₂ p hne)

/-- `freevm` gives back every page of the directory and touches nothing else. -/
theorem freevm_spec (h : Wf L s free d) :
    ∃ s' free', freevm L (kva d) s = .ret ((), s') ∧ Pool L s' free' ∧
      (∀ p, p ∈ free' ↔ p ∈ free ∨ Own s.mem d p) ∧
      ∀ p, p ∉ free → ¬Own s.mem d p → s'.mem p = s.mem p := by
  obtain ⟨s₁, free₁, hrun₁, hw₁, hm₁, habs, -⟩ :=
    deallocuvm_spec h le_rfl (show 0 < KERNBASE by decide)
  have hinner : ∀ p, Own s₁.mem d p ↔ Inner s₁.mem d p := by
    intro p
    refine ⟨fun ho => (own_inner_or_frm ho).resolve_right ?_, Inner.own⟩
    rintro ⟨v, hv, hf⟩
    have := habs v ⟨by simp [pages], by simpa [pages, UPAGES, KERNBASE, PGSIZE] using hv⟩
    simp [(frm_eq_some.mp hf).1] at this
  have hd₁ : d ∉ free₁ := fun hin => hw₁.apart d hin ⟨.dir, rfl⟩
  obtain ⟨s₂, free₂, hrun₂, hp₂, hmem₂, hframe₂⟩ := freeTables_spec
    (List.nodup_range (n := 1024)) (by simp) hw₁.pool hw₁.tree hd₁ fun i hi t ht hin =>
      hw₁.apart t hin (Tree.tab_own (by simpa using hi) ht)
  have hd₂ : d ∉ free₂ := by
    rw [hmem₂]
    rintro (hin | ⟨i, hi, ht⟩)
    · exact hd₁ hin
    · exact hw₁.tree.dir.tab_ne_dir (by simpa using hi) ht rfl
  obtain ⟨s₃, hrun₃, hp₃, hmem₃⟩ := hp₂.kfree (h.tree.page d ⟨.dir, rfl⟩) hd₂
  have hall : ∀ p, p ∈ d :: free₂ ↔ p ∈ free ∨ Own s.mem d p := by
    intro p
    rw [← hm₁.conserve p, hinner p, Inner, List.mem_cons, hmem₂ p]
    simp only [List.mem_range]
    exact or_left_comm
  refine ⟨s₃, d :: free₂, ?_, hp₃, hall, fun p hpf hpo => ?_⟩
  · simp [freevm, kva_ne_zero, hrun₁, NPDENTRIES, hrun₂, hrun₃]
  · have hn : ¬(p ∈ d :: free₂) := by
      rw [hall p]
      exact fun hor => hor.elim hpf hpo
    have hn₁ : ¬(p ∈ free₁ ∨ Own s₁.mem d p) := by
      rw [hm₁.conserve p]
      exact fun hor => hor.elim hpf hpo
    rw [hmem₃ p fun heq => hn (by simp [heq]),
      hframe₂ p (fun hin => hn₁ (Or.inl hin)) fun i hi ht =>
        hn₁ (Or.inr (Tree.tab_own (by simpa using hi) ht)),
      hm₁.other hpf hpo]

end Xv6.Vm
