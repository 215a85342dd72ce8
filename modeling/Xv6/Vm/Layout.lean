import Mathlib.Data.Nat.Bitwise
import Mathlib.Tactic.NormNum

/-!
# Addresses and page-table entries

The constants and macros of `memlayout.h` and `mmu.h`. Addresses are `uint`s: every
sum and difference is taken modulo `2 ^ 32`. A physical page is named by its frame
number; `kva f` is the address at which the kernel sees frame `f`.
-/

namespace Xv6.Vm

def PGSIZE : ℕ := 4096
def NPDENTRIES : ℕ := 1024
def EXTMEM : ℕ := 0x100000
def PHYSTOP : ℕ := 0xE000000
def DEVSPACE : ℕ := 0xFE000000
def KERNBASE : ℕ := 0x80000000
def KERNLINK : ℕ := KERNBASE + EXTMEM
def STACK_TOP : ℕ := KERNBASE - 4

def PTE_P : ℕ := 1
def PTE_W : ℕ := 2
def PTE_U : ℕ := 4

def add32 (a b : ℕ) : ℕ := (a + b) % 2 ^ 32
def sub32 (a b : ℕ) : ℕ := (a + 2 ^ 32 - b) % 2 ^ 32
def V2P (a : ℕ) : ℕ := sub32 a KERNBASE
def P2V (a : ℕ) : ℕ := add32 a KERNBASE
def PGROUNDUP (a : ℕ) : ℕ := add32 a (PGSIZE - 1) / PGSIZE * PGSIZE
def PGROUNDDOWN (a : ℕ) : ℕ := a / PGSIZE * PGSIZE
def PDX (va : ℕ) : ℕ := va / 2 ^ 22 % 1024
def PTX (va : ℕ) : ℕ := va / 2 ^ 12 % 1024
def PGADDR (d t o : ℕ) : ℕ := (d * 2 ^ 22 + t * 2 ^ 12 + o) % 2 ^ 32
def PTE_ADDR (pte : ℕ) : ℕ := pte / PGSIZE * PGSIZE
def PTE_FLAGS (pte : ℕ) : ℕ := pte % PGSIZE

def UPAGES : ℕ := KERNBASE / PGSIZE

/-- What the linker script leaves open: the start of the kernel's data and the end of
the kernel. The first 4 MB hold the kernel and the pages the boot code takes. -/
structure Link where
  data : ℕ
  kend : ℕ
  data_aligned : data % PGSIZE = 0
  text : KERNLINK < data
  data_lt : data < kend
  room : kend + 0x100000 ≤ KERNBASE + 0x400000

def kva (f : ℕ) : ℕ := KERNBASE + PGSIZE * f

def Link.Page (L : Link) (f : ℕ) : Prop := L.kend ≤ kva f ∧ f < PHYSTOP / PGSIZE

def present (w : ℕ) : Bool := w &&& PTE_P ≠ 0
def user (w : ℕ) : Bool := w &&& PTE_U ≠ 0

theorem Link.Page.lt {L : Link} {f : ℕ} (h : L.Page f) : f < 57344 := h.2

theorem kva_ne_zero (f : ℕ) : kva f ≠ 0 := by
  simp [kva, KERNBASE]

theorem kva_inj {f g : ℕ} (h : kva f = kva g) : f = g := by
  simp only [kva, PGSIZE] at h
  omega

theorem V2P_kva {f o : ℕ} (hf : f < 2 ^ 19) (ho : o < 4096) : V2P (kva f + o) = 4096 * f + o := by
  simp only [V2P, sub32, kva, KERNBASE, PGSIZE]
  omega

theorem kva_aligned (f : ℕ) : kva f % PGSIZE = 0 := by
  simp only [kva, KERNBASE, PGSIZE]
  omega

theorem P2V_PTE_ADDR {w : ℕ} (h : w / 4096 < 2 ^ 19) : P2V (PTE_ADDR w) = kva (w / 4096) := by
  simp only [P2V, PTE_ADDR, add32, kva, KERNBASE, PGSIZE]
  omega

theorem PDX_eq {va : ℕ} (h : va < 2 ^ 32) : PDX va = va / 4096 / 1024 := by
  simp only [PDX]
  omega

theorem PTX_eq (va : ℕ) : PTX va = va / 4096 % 1024 := rfl

theorem present_iff {w : ℕ} : present w = true ↔ w.testBit 0 = true := by
  have h := Nat.and_two_pow w 0
  simp only [present, PTE_P]
  cases hb : w.testBit 0 <;> simp_all

theorem user_iff {w : ℕ} : user w = true ↔ w.testBit 2 = true := by
  have h := Nat.and_two_pow w 2
  simp only [user, PTE_U]
  cases hb : w.testBit 2 <;> simp_all

@[simp] theorem present_zero : present 0 = false := rfl

section Entry

variable {f perm : ℕ}

theorem entry_eq (hperm : perm < 4096) :
    4096 * f ||| perm ||| PTE_P = 4096 * f + (perm ||| PTE_P) := by
  have h : perm ||| PTE_P < 2 ^ 12 := Nat.or_lt_two_pow (by simpa using hperm) (by decide)
  rw [Nat.or_assoc, show 4096 = 2 ^ 12 from rfl, Nat.two_pow_add_eq_or_of_lt h]

theorem entry_lt (hperm : perm < 4096) : perm ||| PTE_P < 4096 :=
  Nat.or_lt_two_pow (n := 12) (by simpa using hperm) (by decide)

theorem entry_frame (hperm : perm < 4096) : (4096 * f ||| perm ||| PTE_P) / 4096 = f := by
  have := entry_lt hperm
  rw [entry_eq hperm]
  omega

theorem entry_present : present (4096 * f ||| perm ||| PTE_P) = true := by
  rw [present_iff, Nat.testBit_or]
  simp [PTE_P]

theorem entry_user (hu : user perm = true) : user (4096 * f ||| perm ||| PTE_P) = true := by
  rw [user_iff] at hu ⊢
  rw [Nat.testBit_or, Nat.testBit_or, hu]
  simp

end Entry

end Xv6.Vm
