import Xv6.Vm.Boot
import Xv6.Vm.Kernel

/-!
# Building an address space

After boot there is memory for a directory with a heap and a stack of one page. The entries of
the user part of a new directory are empty.
-/

namespace Xv6.Vm
open Lib

variable {L : Link} {s s' : Kmem} {free free' : List ℕ} {d v n q perm sz : ℕ}

section Tables

theorem setupkvm_order (h : Pool L s free) (hrun : setupkvm L s = .ret (kva d, s')) :
    ∃ c, Wf L s' (free.drop c) d ∧
      ∀ i, i < 512 ∨ 568 ≤ i ∧ i < 1016 → tab s'.mem d i = none := by
  have hspec := setupkvmAt_spec L.dataAt h
  change BuildOutcome L L.data s free (setupkvm L s) at hspec
  generalize setupkvm L s = o at hrun hspec
  cases hspec with
  | @built d' c s₁ hc hlen hw hpte hout htab hown hm =>
    obtain ⟨hd, rfl⟩ := Outcome.ret_inj hrun
    obtain rfl := kva_inj hd
    refine ⟨c, hw, fun i hi => htab i fun k hk hki => ?_⟩
    have := L.dataAt.table hk hki
    omega
  | failed => exact absurd (Outcome.ret_inj hrun).1.symm (kva_ne_zero d)

theorem setupkvm_tables (h : Pool L s free) (hrun : setupkvm L s = .ret (kva d, s')) :
    ∀ i < UPAGES / 1024, tab s'.mem d i = none := by
  obtain ⟨c, -, htab⟩ := setupkvm_order h hrun
  exact fun i hi => htab i (Or.inl hi)

end Tables

section Space

def Mapped (m : Pages) (g sz n : ℕ) : Prop :=
  ∀ v < UPAGES, present (pte m g v) = true ↔ v < pages sz ∨ UPAGES - n ≤ v

theorem Kern.moved {R : Set ℕ} (h : Kern L s.mem d) (hm : Moved R d s free s' free')
    (hR : ∀ v ∈ R, v < UPAGES) : Kern L s'.mem d := by
  intro v hv hlt
  rw [hm.outside v hlt fun hin => Nat.not_lt.2 hv (hR v hin)]
  exact h v hv hlt

theorem length_of_page (h : Pool L s free) (hmem : ∀ p, p ∈ free ↔ L.Page p) :
    56576 ≤ free.length := by
  obtain ⟨-, hle, hiff⟩ := L.first_bounds
  have hset : free.toFinset = Finset.Ico L.first 57344 := by
    ext p
    rw [List.mem_toFinset, hmem, hiff, Finset.mem_Ico]
  rw [← List.toFinset_card_of_nodup h.nodup, hset, Nat.card_Ico]
  omega

theorem allocuvm_mapped {oldsz newsz : ℕ} (h : Wf L s free d) (hnew : newsz < KERNBASE)
    (hle : oldsz ≤ newsz)
    (habs : ∀ u ∈ Set.Ico (pages oldsz) (pages newsz), present (pte s.mem d u) = false)
    (hroom : need s.mem d (pages oldsz) (pages newsz) ≤ free.length) :
    ∃ s' free', allocuvm L (kva d) oldsz newsz s = .ret (newsz, s') ∧ Wf L s' free' d ∧
      Moved (Set.Ico (pages oldsz) (pages newsz)) d s free s' free' ∧
      (∀ u ∈ Set.Ico (pages oldsz) (pages newsz), Zeroed s'.mem d u) ∧
      free'.length + need s.mem d (pages oldsz) (pages newsz) = free.length := by
  have hspec := allocuvm_spec h hnew hle
  generalize hrun : allocuvm L (kva d) oldsz newsz s = o at hspec
  cases hspec with
  | mapped hw hm _ hz hneed => exact ⟨_, _, rfl, hw, hm, hz, hneed⟩
  | failed hw hm _ hneed => exact absurd (hneed habs) (Nat.not_lt.2 hroom)
  | remap hu hp =>
    rw [habs _ hu] at hp
    cases hp

theorem need_le {m : Pages} {a b : ℕ} : need m d a b ≤ (b - a) + ((b + 1023) / 1024 - a / 1024) := by
  unfold need
  split_ifs
  · have := missing_le (m := m) (d := d) (a := a) (b := b)
    omega
  · exact Nat.zero_le _

theorem Pool.space {s₀ : Kmem} {free₀ : List ℕ} (hp₀ : Pool L s₀ free₀) (hsz : pages sz ≤ 40000)
    (hlen₀ : pages sz + 200 ≤ free₀.length) :
    ∃ s free g, Wf L s free g ∧ Kern L s.mem g ∧ Mapped s.mem g sz 1 ∧
      free₀.length ≤ free.length + pages sz + 120 ∧
      ∀ p, (p ∈ free ∨ Own s.mem g p) ↔ p ∈ free₀ := by
  have hU : UPAGES = 524288 := rfl
  generalize hrun : setupkvm L s₀ = o
  have hsetup := setupkvm_spec hp₀
  rw [hrun] at hsetup
  cases hsetup with
  | failed _ _ _ hlen => omega
  | @built g s₁ free₁ hw₁ hk₁ hu₁ hc₁ _ hlen₁ =>
    have hzero : pages 0 = 0 := rfl
    have hneed₁ := need_le (m := s₁.mem) (d := g) (a := pages 0) (b := pages sz)
    have hKB : sz < KERNBASE := by
      have : KERNBASE = 2147483648 := by decide
      unfold pages at hsz
      omega
    obtain ⟨s₂, free₂, -, hw₂, hm₂, hz₂, hlen₂⟩ := allocuvm_mapped hw₁ hKB (Nat.zero_le sz)
      (fun u hu => hu₁ u (Nat.lt_of_lt_of_le hu.2 (by omega))) (by omega)
    have hlen₂' : free₀.length ≤ free₂.length + pages sz + 110 ∧ 2 ≤ free₂.length := by omega
    have hlow : ∀ v ∈ Set.Ico (pages 0) (pages sz), v < UPAGES := fun v hv =>
      Nat.lt_of_lt_of_le hv.2 (by omega)
    have hpres₂ : ∀ v < UPAGES, present (pte s₂.mem g v) = true ↔ v < pages sz := by
      intro v hv
      by_cases hin : v < pages sz
      · exact iff_of_true (hz₂ v ⟨Nat.zero_le v, hin⟩).present hin
      · rw [hm₂.outside v (Nat.lt_trans hv UPAGES_lt) fun h => hin h.2, hu₁ v hv]
        exact iff_of_false Bool.false_ne_true hin
    have hold : pages (sub32 STACK_TOP PGSIZE) = UPAGES - 1 := by decide
    have hnew : pages STACK_TOP = UPAGES := by decide
    have hneed₂ : need s₂.mem g (UPAGES - 1) UPAGES ≤ 2 := need_le
    obtain ⟨s₃, free₃, -, hw₃, hm₃, hz₃, hlen₃⟩ := allocuvm_mapped hw₂
      (show STACK_TOP < KERNBASE by decide) (show sub32 STACK_TOP PGSIZE ≤ STACK_TOP by decide)
      (fun u hu => by
        rw [hold, hnew] at hu
        refine Bool.eq_false_iff.2 fun hp => ?_
        have h1 := (hpres₂ u hu.2).1 hp
        have h2 := hu.1
        omega)
      (by rw [hold, hnew]; exact Nat.le_trans hneed₂ hlen₂'.2)
    rw [hold, hnew] at hm₃ hz₃ hlen₃
    have hlen₃' : free₀.length ≤ free₃.length + pages sz + 120 := by
      generalize need s₂.mem g (UPAGES - 1) UPAGES = c at hneed₂ hlen₃
      omega
    refine ⟨s₃, free₃, g, hw₃, (hk₁.moved hm₂ hlow).moved hm₃ fun v hv => hv.2, fun v hv => ?_,
      hlen₃', fun p => (hm₃.conserve p).trans ((hm₂.conserve p).trans (hc₁ p))⟩
    by_cases hin : UPAGES - 1 ≤ v
    · exact iff_of_true (hz₃ v ⟨hin, hv⟩).present (.inr hin)
    · rw [hm₃.outside v (Nat.lt_trans hv UPAGES_lt) fun h => hin h.1, hpres₂ v hv]
      exact (or_iff_left hin).symm

theorem exists_space (L : Link) (hsz : pages sz ≤ 40000) :
    ∃ s free g, Wf L s free g ∧ Kern L s.mem g ∧ Mapped s.mem g sz 1 ∧ 1000 ≤ free.length := by
  obtain ⟨s₀, free₀, -, hp₀, hmem₀⟩ := kinit_spec (L := L) fun _ => Bytes.zero
  have hlen₀ := length_of_page hp₀ hmem₀
  obtain ⟨s, free, g, hw, hk, hmap, hlen, -⟩ := hp₀.space hsz (by omega)
  exact ⟨s, free, g, hw, hk, hmap, by omega⟩

end Space

def Link.sample : Link where
  data := 0x80108000
  kend := 0x80110000
  data_aligned := by decide
  text := by decide
  data_lt := by decide
  room := by decide

end Xv6.Vm
