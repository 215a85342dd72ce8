import Xv6.Vm.Build

/-!
# What a directory translates

`mappages` changes the translation of the pages from its first to its last, and of no other
page, whatever tables there are. With it `setupkvm` maps each range of `kmap` to its physical
addresses, the last of them up to the end of the address space, and nothing else.
-/

namespace Xv6.Vm
open Lib

/-- The physical address and the flags that the tables have for `va`. -/
def translate (m : Pages) (d va : ℕ) : Option (ℕ × ℕ) :=
  let w := pte m d (va / PGSIZE)
  if present w then some (PTE_ADDR w + va % PGSIZE, PTE_FLAGS w) else none

variable {L : Link} {s s' : Kmem} {free : List ℕ} {d v e u t w b perm : ℕ}

theorem translate_congr {m m' : Pages} {va : ℕ}
    (h : pte m' d (va / PGSIZE) = pte m d (va / PGSIZE)) :
    translate m' d va = translate m d va := by
  rw [translate, translate, h]

section Mappages

theorem Based.setPte (h : Based L s free d) (ht : tab s.mem d (v / 1024) = some t)
    (hv : v < 2 ^ 20) :
    Based L { s with mem := s.mem.setWord t (v % 1024) w } free d := by
  have htab := fun i => tab_setPte (i := i) (w := w) h.dir ht hv
  have hinner : ∀ p, Inner (s.mem.setWord t (v % 1024) w) d p → Inner s.mem d p := by
    rintro p (hp | ⟨i, hi, hp⟩)
    · exact Or.inl hp
    · exact Or.inr ⟨i, hi, (htab i).symm.trans hp⟩
  refine ⟨h.pool.congr rfl fun p hp => Pages.setWord_of_ne _ fun heq => ?_,
    ⟨fun {i x} hi hx => ?_, fun {i j x} hi hj hx hy => ?_, fun p hp => h.dir.page p (hinner p hp)⟩,
    fun p hp hin => h.apart p hp (hinner p hin)⟩
  · exact h.apart p hp (Or.inr ⟨v / 1024, by omega, heq ▸ ht⟩)
  · exact h.dir.tab_ne_dir hi ((htab i).symm.trans hx)
  · exact h.dir.tab_inj hi hj ((htab i).symm.trans hx) ((htab j).symm.trans hy)

theorem mappagesFrom_tables (last fuel : ℕ) (h : Based L s free d) (hv : v < 2 ^ 20)
    (hb : b < 2 ^ 32) (hperm : perm < 2 ^ 32) :
    mappagesFrom (kva d) last perm (fuel + 1) (4096 * v) b s = .ret (-1, s) ∨
    mappagesFrom (kva d) last perm (fuel + 1) (4096 * v) b s = .panic "remap" ∨
    ∃ s₂ free₂, Based L s₂ free₂ d ∧ (∀ u < 2 ^ 20, u ≠ v → pte s₂.mem d u = pte s.mem d u) ∧
      mappagesFrom (kva d) last perm (fuel + 1) (4096 * v) b s =
        if 4096 * v = last then .ret (0, s₂)
        else mappagesFrom (kva d) last perm fuel (add32 (4096 * v) PGSIZE) (add32 b PGSIZE) s₂ := by
  have hdiv : 4096 * v / 4096 = v := by omega
  have hw : (b ||| perm ||| PTE_P) < 2 ^ 32 :=
    Nat.or_lt_two_pow (Nat.or_lt_two_pow hb hperm) (by decide)
  by_cases hp : present (pte s.mem d v) = true
  · exact Or.inr (Or.inl (mappagesFrom_remap h hv hp))
  have hp := Bool.eq_false_iff.2 hp
  -- the table is there, or the first free page becomes it
  obtain hfail | ⟨t, s₁, free₁, hb₁, htab, hpte, hwalk⟩ :
      mappagesFrom (kva d) last perm (fuel + 1) (4096 * v) b s = .ret (-1, s) ∨
      ∃ t s₁ free₁, Based L s₁ free₁ d ∧ tab s₁.mem d (v / 1024) = some t ∧
        (∀ u < 2 ^ 20, pte s₁.mem d u = pte s.mem d u) ∧
        walkpgdir (kva d) (4096 * v) true s = .ret (kva t + 4 * (v % 1024), s₁) := by
    cases ht : tab s.mem d (v / 1024) with
    | some t =>
      have hwalk := walkpgdir_tab h.dir (a := 4096 * v) (by omega) (by rwa [hdiv]) true
      rw [hdiv] at hwalk
      exact Or.inr ⟨t, s, free, h, ht, fun _ _ => rfl, hwalk⟩
    | none =>
      cases free with
      | nil => exact Or.inl (mappagesFrom_full h hv rfl ht)
      | cons t free =>
        have hwalk := walkpgdir_take h (a := 4096 * v) (by omega) (by rwa [hdiv])
        rw [hdiv] at hwalk
        exact Or.inr ⟨t, _, free, h.withTable ht, (h.tab_withTable _).trans (if_pos rfl),
          fun u hu => h.pte_withTable ht hu, hwalk⟩
  · exact Or.inl hfail
  · refine Or.inr (Or.inr ⟨_, free₁, hb₁.setPte htab hv, fun u hu hne => ?_,
      mappagesFrom_entry (hb₁.dir.tab_lt (by omega) htab) hwalk ?_⟩)
    · exact ((pte_setPte hb₁.dir htab hv hw hu).trans (if_neg hne)).trans (hpte u hu)
    · rw [← pte_of_tab htab, hpte v hv]
      exact hp

def Between (v e u : ℕ) : Prop := (u + 2 ^ 20 - v) % 2 ^ 20 ≤ (e + 2 ^ 20 - v) % 2 ^ 20

theorem mappagesFrom_only {fuel : ℕ} (h : Based L s free d) (hv : v < 2 ^ 20) (he : e < 2 ^ 20)
    (hb : b < 2 ^ 32) (hperm : perm < 2 ^ 32) (hfuel : (e + 2 ^ 20 - v) % 2 ^ 20 < fuel) :
    Prog.Wp (mappagesFrom (kva d) (4096 * e) perm fuel (4096 * v) b)
      (fun _ s' => ∀ u < 2 ^ 20, ¬Between v e u → pte s'.mem d u = pte s.mem d u)
      (· = "remap") s := by
  induction fuel generalizing v b s free with
  | zero => omega
  | succ fuel ih =>
    unfold Prog.Wp
    rcases mappagesFrom_tables (4096 * e) fuel h hv hb hperm with
      hrun | hrun | ⟨s₂, free₂, hb₂, hpte, hrun⟩
    · rw [hrun]
      exact fun u _ _ => rfl
    · rw [hrun]
      exact rfl
    · rw [hrun]
      have hself : ∀ u, ¬Between v e u → u ≠ v := by
        rintro u hu rfl
        unfold Between at hu
        omega
      by_cases hve : v = e
      · rw [if_pos (by rw [hve])]
        exact fun u hu hno => hpte u hu (hself u hno)
      · have hnext : add32 (4096 * v) PGSIZE = 4096 * ((v + 1) % 2 ^ 20) := by
          simp only [add32, PGSIZE]
          omega
        rw [if_neg (by omega), hnext]
        refine Outcome.Post.mono (ih hb₂ (v := (v + 1) % 2 ^ 20) (Nat.mod_lt _ (by decide))
          (Nat.mod_lt _ (by decide)) (by omega)) (fun r hr u hu hno => ?_) fun _ hm => hm
        rw [hr u hu (by unfold Between at hno ⊢; omega), hpte u hu (hself u hno)]

/-- The pages that `mappages` is to map: from that of `va` to that of `va + size - 1`. -/
def InRange (va size x : ℕ) : Prop :=
  Between (va / PGSIZE) (sub32 (add32 va size) 1 / PGSIZE) (x / PGSIZE)

theorem InRange.byte {va size x : ℕ} (h : InRange va size x) (hva : va < 2 ^ 32)
    (hpos : 0 < size) (hsize : size < 2 ^ 32) (hx : x < 2 ^ 32) :
    ∃ i < size, (va + i) % 2 ^ 32 / PGSIZE = x / PGSIZE := by
  unfold InRange Between at h
  simp only [sub32, add32, PGSIZE] at h ⊢
  by_cases h0 : va / 4096 = x / 4096
  · exact ⟨0, hpos, by omega⟩
  · refine ⟨4096 * ((x / 4096 + 2 ^ 20 - va / 4096) % 2 ^ 20) - va % 4096, ?_, ?_⟩ <;> omega

theorem mappages_only {va size pa : ℕ} (h : Based L s free d) (hva : va < 2 ^ 32)
    (hpa : pa < 2 ^ 32) (hperm : perm < 2 ^ 32) :
    Prog.Wp (mappages (kva d) va size pa perm)
      (fun _ s' => ∀ x < 2 ^ 32, ¬InRange va size x → translate s'.mem d x = translate s.mem d x)
      (· = "remap") s := by
  have hlast : PGROUNDDOWN (sub32 (add32 va size) 1) =
      4096 * (sub32 (add32 va size) 1 / PGSIZE) := Nat.mul_comm _ _
  have hfirst : PGROUNDDOWN va = 4096 * (va / PGSIZE) := Nat.mul_comm _ _
  have hlt : sub32 (add32 va size) 1 < 2 ^ 32 := Nat.mod_lt _ (by decide)
  rw [mappages, hlast, hfirst]
  refine (mappagesFrom_only h (by unfold PGSIZE; omega) (by unfold PGSIZE; omega) hpa hperm
    (Nat.mod_lt _ (by decide))).mono (fun _ s' hs x hx hno => ?_) fun _ hm => hm
  exact translate_congr (hs _ (by unfold PGSIZE; omega) hno)

end Mappages

section Kernel

variable {data : ℕ}

/-- The directory translates the ranges of `kmap` and nothing else. -/
structure KernelMapped (data : ℕ) (m : Pages) (d : ℕ) : Prop where
  range : ∀ k ∈ kmapAt data, ∀ o < sub32 k.phys_end k.phys_start,
    translate m d (k.virt + o) = some (k.phys_start + o, k.perm ||| PTE_P) ∧
      user (k.perm ||| PTE_P) = false
  other : ∀ va < 2 ^ 32,
    (∀ k ∈ kmapAt data, ¬(k.virt ≤ va ∧ va < k.virt + sub32 k.phys_end k.phys_start)) →
      translate m d va = none

theorem Kmap.Whole.has {k : Kmap} (h : k.Whole) {va : ℕ} :
    k.Has (va / PGSIZE) ↔ k.virt ≤ va ∧ va < k.virt + sub32 k.phys_end k.phys_start := by
  rw [h.virt, h.size, Kmap.Has, PGSIZE]
  omega

theorem translate_entry {m : Pages} {va f : ℕ} (hperm : perm < 4096)
    (h : pte m d (va / PGSIZE) = (4096 * f ||| perm ||| PTE_P)) :
    translate m d va = some (4096 * f + va % PGSIZE, perm ||| PTE_P) := by
  have hflags := entry_lt hperm
  simp only [translate, h, entry_present, if_true]
  rw [PTE_ADDR, PTE_FLAGS, entry_eq hperm, PGSIZE]
  congr 2 <;> omega

theorem setupkvmAt_mapped (hdata : DataAt data) (h : Pool L s free) :
    (setupkvmAt L data s).Post
      (fun r => r.1 = 0 ∧ free.length < 65 ∨ ∃ d, r.1 = kva d ∧ KernelMapped data r.2.mem d)
      fun _ => False := by
  have hspec := setupkvmAt_spec hdata h
  generalize setupkvmAt L data s = o at hspec
  cases hspec with
  | failed _ _ _ hlen => exact Or.inl ⟨rfl, hlen⟩
  | @built d c s' hc hlen hw hpte hout htab hown hm =>
    refine Or.inr ⟨d, rfl, fun k hk o ho => ⟨?_, ?_⟩, fun va hva hno => ?_⟩
    · have hwhole := hdata.whole k hk
      have hhas : k.Has ((k.virt + o) / PGSIZE) := hwhole.has.2 ⟨Nat.le_add_right _ _, by omega⟩
      rw [translate_entry hwhole.perm (hpte k hk _ hhas)]
      have h1 := hwhole.virt
      have h2 := hwhole.phys
      rw [PGSIZE]
      congr 2
      omega
    · rcases hdata.cases hk with ⟨-, -, -, hp⟩ | ⟨-, -, -, hp⟩ | ⟨-, -, -, hp⟩ | ⟨-, -, -, hp⟩ <;>
        rw [hp] <;> decide
    · have h0 := hout (va / PGSIZE) (by unfold PGSIZE; omega) fun k hk hhas =>
        hno k hk ((hdata.whole k hk).has.1 hhas)
      simp [translate, h0]

/-- The kernel's mappings, wherever its data is, and what `mappages` changes in general. -/
theorem kernel_mappings (hdata : DataAt data) (h : Pool L s free) :
    (setupkvmAt L data s).Post
      (fun r => r.1 = 0 ∧ free.length < 65 ∨ ∃ d, r.1 = kva d ∧ KernelMapped data r.2.mem d)
      (fun _ => False) ∧
    ∀ {t : Kmem} {pages : List ℕ} {d va size pa perm : ℕ}, Based L t pages d → va < 2 ^ 32 →
      size < 2 ^ 32 → pa < 2 ^ 32 → perm < 2 ^ 32 →
      Prog.Wp (mappages (kva d) va size pa perm)
        (fun _ t' => ∀ x < 2 ^ 32, ¬InRange va size x →
          translate t'.mem d x = translate t.mem d x) (· = "remap") t ∧
      (0 < size → ∀ x < 2 ^ 32, InRange va size x →
        ∃ i < size, (va + i) % 2 ^ 32 / PGSIZE = x / PGSIZE) :=
  ⟨setupkvmAt_mapped hdata h, fun hb hva hsize hpa hperm =>
    ⟨mappages_only hb hva hpa hperm, fun hpos _ hx hin => hin.byte hva hpos hsize hx⟩⟩

/-- For a kernel of 1.1 MB at boot, and for the directory it builds. -/
theorem kernel_mappings_sample : ∃ (s : Kmem) (free : List ℕ) (d va : ℕ), 65 ≤ free.length ∧
    (setupkvmAt Link.sample 0x80108000 s).Post
      (fun r => r.1 = 0 ∧ free.length < 65 ∨
        ∃ d, r.1 = kva d ∧ KernelMapped 0x80108000 r.2.mem d) (fun _ => False) ∧
    Prog.Wp (mappages (kva d) va 4096 0 0)
      (fun _ t => ∀ x < 2 ^ 32, ¬InRange va 4096 x →
        translate t.mem d x = translate s.mem d x) (· = "remap") s := by
  obtain ⟨s, free, d, hw, -, -, hlen⟩ := exists_space Link.sample (by decide : pages 0 ≤ 40000)
  have hdata : DataAt 0x80108000 := ⟨by decide, by decide, by decide⟩
  have hboth := kernel_mappings hdata hw.pool
  exact ⟨s, free, d, 0x1000, by omega, hboth.1,
    (hboth.2 hw.based (by decide) (by decide) (by decide) (by decide)).1⟩

end Kernel

end Xv6.Vm
