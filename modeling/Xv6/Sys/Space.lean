import Xv6.Vm.Copy

/-!
# Address spaces

The memory of a process as the lab means it: a heap that grows up from `0`, and a stack
of `stackSize` pages that grows down from `KERNBASE`. `Space` forgets page tables and
frames and keeps the two sizes and the set of mapped pages. `Sbrk`, `Fault`, `Exec` and
`Fork` are all that the calls can do to it, errors included.
-/

namespace Xv6.Sys
open Vm

@[ext] structure Space where
  sz : ℕ
  stackSize : ℕ
  mapped : Set ℕ

namespace Space

variable {x y : Space}

def heap (x : Space) : Set ℕ := {v | v < pages x.sz}

def stack (x : Space) : Set ℕ := {v | UPAGES - x.stackSize ≤ v ∧ v < UPAGES}

/-- Heap and stack are apart, and nothing else is mapped. -/
structure Laid (x : Space) : Prop where
  mapped : x.mapped = x.heap ∪ x.stack
  apart : pages x.sz + x.stackSize ≤ UPAGES

/-- `growproc` by `n` bytes. Growth that runs out of memory unmaps the whole range it was
to map. Shrinking to nothing unmaps the heap, but takes the new size for an error. -/
inductive Sbrk (n : ℤ) (x : Space) : Space → Prop
  | same : Sbrk n x x
  | grown (hn : 0 < n) (hK : x.sz + n.toNat < KERNBASE)
      (habs : ∀ v ∈ Set.Ico (pages x.sz) (pages (x.sz + n.toNat)), v ∉ x.mapped) :
      Sbrk n x ⟨x.sz + n.toNat, x.stackSize,
        x.mapped ∪ Set.Ico (pages x.sz) (pages (x.sz + n.toNat))⟩
  | full (hn : 0 < n) (hK : x.sz + n.toNat < KERNBASE) :
      Sbrk n x ⟨x.sz, x.stackSize, x.mapped \ Set.Ico (pages x.sz) (pages (x.sz + n.toNat))⟩
  | shrunk (hn : n < 0) (hlt : (-n).toNat < x.sz) :
      Sbrk n x ⟨x.sz - (-n).toNat, x.stackSize,
        x.mapped \ Set.Ico (pages (x.sz - (-n).toNat)) (pages x.sz)⟩
  | emptied (hn : n < 0) (heq : (-n).toNat = x.sz) :
      Sbrk n x ⟨x.sz, x.stackSize, x.mapped \ Set.Ico 0 (pages x.sz)⟩

/-- A page fault at `addr`: nothing at or above the page of the stack's bottom, or all
pages from `addr` to the stack. -/
inductive Fault (addr : ℕ) (x : Space) : Space → Prop
  | ignored (h : bottom x.stackSize < PGROUNDDOWN addr) : Fault addr x x
  | grown (hle : PGROUNDDOWN addr ≤ bottom x.stackSize) (hK : bottom x.stackSize < KERNBASE)
      (habs : ∀ v ∈ Set.Ico (addr / PGSIZE) (pages (bottom x.stackSize)), v ∉ x.mapped) :
      Fault addr x ⟨x.sz, (x.stackSize + 1) % 2 ^ 32,
        x.mapped ∪ Set.Ico (addr / PGSIZE) (pages (bottom x.stackSize))⟩

inductive Exec (x : Space) : Space → Prop
  | failed : Exec x x
  | done {sz : ℕ} (h : pages sz < UPAGES) :
      Exec x ⟨sz, 1, {v | v < pages sz} ∪ {UPAGES - 1}⟩

def copy (x : Space) : Space := ⟨x.sz, x.stackSize, x.heap ∪ stackPages x.stackSize⟩

theorem Laid.mem (h : x.Laid) {v : ℕ} :
    v ∈ x.mapped ↔ v < pages x.sz ∨ UPAGES - x.stackSize ≤ v ∧ v < UPAGES := by
  rw [h.mapped]
  rfl

theorem laid_of_mem (hm : ∀ v, v ∈ x.mapped ↔
    v < pages x.sz ∨ UPAGES - x.stackSize ≤ v ∧ v < UPAGES)
    (ha : pages x.sz + x.stackSize ≤ UPAGES) : x.Laid :=
  ⟨Set.ext hm, ha⟩

theorem pages_mono {a b : ℕ} (h : a ≤ b) : pages a ≤ pages b := by
  simp only [pages]
  omega

theorem Laid.sbrk {n : ℤ} (h : x.Laid) (hs : Sbrk n x y)
    (hgrow : 0 < n → x.sz + n.toNat < KERNBASE →
      x.sz + n.toNat ≤ KERNBASE - x.stackSize * PGSIZE)
    (hshrink : n < 0 → 0 < x.sz → (-n).toNat ≠ x.sz) : y.Laid := by
  have hap := h.apart
  have hroom : 0 < n → x.sz + n.toNat < KERNBASE →
      pages (x.sz + n.toNat) + x.stackSize ≤ UPAGES := by
    intro hn hK
    have := hgrow hn hK
    simp only [pages, KERNBASE, PGSIZE, UPAGES] at *
    omega
  cases hs with
  | same => exact h
  | grown hn hK habs =>
    have hle := pages_mono (Nat.le_add_right x.sz n.toNat)
    refine laid_of_mem (fun v => ?_) (hroom hn hK)
    simp only [Set.mem_union, h.mem, Set.mem_Ico]
    omega
  | full hn hK =>
    have := hroom hn hK
    refine laid_of_mem (fun v => ?_) hap
    simp only [Set.mem_sdiff, h.mem, Set.mem_Ico]
    omega
  | shrunk hn hlt =>
    have hle := pages_mono (Nat.sub_le x.sz (-n).toNat)
    refine laid_of_mem (fun v => ?_) (by simp only; omega)
    simp only [Set.mem_sdiff, h.mem, Set.mem_Ico]
    omega
  | emptied hn heq =>
    have : 0 < x.sz := by omega
    exact absurd heq (hshrink hn this)

theorem Laid.fault {addr : ℕ} (h : x.Laid) (hf : Fault addr x y)
    (hnext : bottom x.stackSize < PGROUNDDOWN addr ∨
      PGROUNDDOWN addr = PGROUNDDOWN (bottom x.stackSize)) : y.Laid := by
  cases hf with
  | ignored => exact h
  | grown hle hK habs =>
    have hap := h.apart
    have hU : UPAGES = 2 ^ 19 := rfl
    have hn : x.stackSize % 2 ^ 20 < UPAGES := by
      by_contra hn
      have := lt_bottom hn
      omega
    have hmod : x.stackSize % 2 ^ 20 = x.stackSize := Nat.mod_eq_of_lt (by omega)
    have hb := bottom_eq hn
    have heq := hnext.resolve_left (by omega)
    rw [hmod] at hn hb
    -- the one new page is the one below the stack
    have hpage : addr / PGSIZE = UPAGES - 1 - x.stackSize := by
      simp only [PGROUNDDOWN, hb, PGSIZE] at heq
      simp only [PGSIZE]
      omega
    have htop : pages (bottom x.stackSize) = UPAGES - x.stackSize := by
      simp only [pages, hb]
      omega
    rw [hpage, htop] at habs ⊢
    have hfree := habs (UPAGES - 1 - x.stackSize) ⟨le_rfl, by omega⟩
    rw [h.mem] at hfree
    rw [Nat.mod_eq_of_lt (show x.stackSize + 1 < 2 ^ 32 by omega)]
    refine laid_of_mem (fun v => ?_) (by simp only; omega)
    simp only [Set.mem_union, h.mem, Set.mem_Ico]
    omega

theorem Laid.exec (h : x.Laid) (he : Exec x y) : y.Laid := by
  cases he with
  | failed => exact h
  | done hsz =>
    refine laid_of_mem (fun v => ?_) (by simp only; omega)
    have hU : 0 < UPAGES := by decide
    simp only [Set.mem_union, Set.mem_ofPred_eq, Set.mem_singleton_iff]
    omega

theorem Laid.copy_eq (h : x.Laid) (hlt : x.stackSize < UPAGES) : x.copy = x := by
  have hU : UPAGES = 2 ^ 19 := rfl
  refine Space.ext rfl rfl (Set.ext fun v => ?_)
  rw [h.mem]
  simp only [copy, heap, stackPages, Set.mem_union, Set.mem_ofPred_eq,
    Nat.mod_eq_of_lt (show x.stackSize < 2 ^ 20 by omega)]
  omega

end Space

end Xv6.Sys
