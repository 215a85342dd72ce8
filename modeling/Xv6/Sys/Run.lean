import Xv6.Lib.Trace
import Xv6.Sys.Exec

/-!
# Booting, and runs of the kernel

`boot` is `main` up to the first user process. From there any process that has not
exited may run: user code, page faults and system calls, in any order and with any
arguments. A run ends when a call panics or never returns.
-/

namespace Xv6.Sys
open Lib Vm

def noProc : Proc := ⟨0, 0, 0, 0, 0, .unused, 0, none, ⟨0, 0, 0⟩, false, fun _ => none⟩

def loaded (m : Pages) : Kernel where
  kmem := ⟨m, 0⟩
  kpgdir := 0
  apstacks := []
  proc _ := noProc
  initproc := 0
  nextpid := 1
  file _ := ⟨.none, 0, false, false, 0⟩
  pipe _ := ⟨0, 0, false, false⟩

variable (L : Link)

def kvmalloc : Prog Kernel Unit := do
  let pgdir ← onMem (setupkvm L)
  .modify fun k => { k with kpgdir := pgdir }

def startothers : ℕ → Prog Kernel Unit
  | 0 => return ()
  | n + 1 => do
    let stack ← onMem kalloc
    .modify fun k => { k with apstacks := stack :: k.apstacks }
    startothers n

def boot (ncpu : ℕ) (initcode : Bytes) (n : ℕ) : Prog Kernel Unit := do
  onMem (kinit1 L)
  kvmalloc L
  startothers (ncpu - 1)
  onMem (kinit2 L)
  userinit L initcode n

inductive Event
  | user (p : ℕ) (m : Pages)
  | fault (p addr : ℕ)
  | sbrk (p : ℕ) (n : ℤ)
  | fork (p : ℕ)
  | exec (p : ℕ) (ip : Inode) (argv : List (List UInt8))
  | exit (p : ℕ)
  | wait (p : ℕ)
  | pipe (p : ℕ)
  | dup (p fd : ℕ)
  | close (p fd : ℕ)

namespace Event

def proc : Event → ℕ
  | user p _ | fault p _ | sbrk p _ | fork p | exec p _ _ | exit p | wait p | pipe p | dup p _
  | close p _ => p

def run : Event → Prog Kernel Unit
  | user _ m => .modify fun k => { k with kmem := { k.kmem with mem := m } }
  | fault p addr => trap L p addr
  | sbrk p n => do let _ ← growproc L p n
  | fork p => do let _ ← Sys.fork L p
  | exec p ip argv => do let _ ← Sys.exec L p ip argv
  | exit p => Sys.exit L p
  | wait p => do let _ ← Sys.wait L p
  | pipe p => do let _ ← sysPipe L p
  | dup p fd => do let _ ← sysDup p fd
  | close p fd => do let _ ← sysClose L p fd

end Event

def Active (k : Kernel) (p : ℕ) : Prop :=
  p < NPROC ∧ (k.proc p).state ≠ .unused ∧ (k.proc p).state ≠ .embryo ∧
    (k.proc p).state ≠ .zombie

def userFrame (k : Kernel) (p va : ℕ) : Option ℕ :=
  let w := pte k.kmem.mem (V2P (k.proc p).pgdir / PGSIZE) (va / PGSIZE)
  if present w ∧ user w then some (w / PGSIZE) else none

def StringAt (k : Kernel) (p va : ℕ) (s : List UInt8) : Prop :=
  va + s.length < STACK_TOP ∧ ∀ i ≤ s.length,
    ∃ f, userFrame k p (va + i) = some f ∧
      k.kmem.mem f ((va + i) % PGSIZE) = (s ++ [0]).getD i 0

def Event.Valid (k : Kernel) : Event → Prop
  | .user p m => Active k p ∧ ∀ f, (∀ va < 2 ^ 32, userFrame k p va ≠ some f) →
      m f = k.kmem.mem f
  | .fault p addr => Active k p ∧ addr < 2 ^ 32
  | .sbrk p n => Active k p ∧ -2 ^ 31 ≤ n ∧ n < 2 ^ 31
  | .exec p _ argv => Active k p ∧ ∀ s ∈ argv, 0 ∉ s ∧ ∃ va, StringAt k p va s
  | .fork p | .exit p | .wait p | .pipe p | .dup p _ | .close p _ => Active k p

structure Step (k : Kernel) (e : Event) (k' : Kernel) : Prop where
  valid : e.Valid k
  run : e.run L k = .ret ((), k')

/-- The kernel when the first process starts, on a machine with any memory contents. -/
def Booted (k : Kernel) : Prop :=
  ∃ m ncpu initcode n, 0 < ncpu ∧ ncpu ≤ NCPU ∧ n < PGSIZE ∧
    boot L ncpu initcode n (loaded m) = .ret ((), k)

end Xv6.Sys
