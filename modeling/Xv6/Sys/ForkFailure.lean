import Xv6.Sys.Fork
import Xv6.Vm.Build

/-!
# What a failed `fork` leaves behind

`allocproc` gives the slot it has found a new `pid` before anything can fail, and neither it nor
`fork` takes the `pid` back. So a `fork` that fails for want of memory shows in the process table.
-/

namespace Xv6.Sys
open Lib Vm

variable {L : Link} {k k' : Kernel} {p : ℕ}

structure SameSlot (x y : Proc) : Prop where
  state : y.state = x.state
  pid : y.pid = x.pid
  parent : y.parent = x.parent
  kstack : y.kstack = x.kstack
  killed : y.killed = x.killed
  ofile : y.ofile = x.ofile

structure NothingLeft (L : Link) (k k' : Kernel) : Prop where
  pages : ∀ free free', Pool L k.kmem free → Pool L k'.kmem free' → ∀ q, q ∈ free ↔ q ∈ free'
  slots : ∀ i < NPROC, SameSlot (k.proc i) (k'.proc i)

def PidsBelow (k : Kernel) : Prop := ∀ i < NPROC, (k.proc i).pid < k.nextpid

theorem fork_fails (h : fork L p k = .ret (-1, k')) :
    (k' = k ∧ ∀ i < NPROC, (k.proc i).state ≠ .unused) ∨
      ∃ i < NPROC, (k.proc i).state = .unused ∧ (k'.proc i).pid = k.nextpid := by
  rcases fork_cases h with ⟨halloc, -⟩ | ⟨i, k₁, pgdir, s, halloc, -, hcase⟩ <;>
    rcases allocproc_cases halloc with ⟨hr, rfl, hfull⟩ | ⟨j, hj, hu, kstack, s₁, -, htaken⟩
  · exact .inl ⟨rfl, hfull⟩
  · rcases htaken with ⟨-, -, rfl⟩ | ⟨-, hr, -⟩
    · exact .inr ⟨j, hj, hu, by simp [slotTaken]⟩
    · cases hr
  · cases hr
  · rcases htaken with ⟨-, hr, -⟩ | ⟨-, hr, rfl⟩ <;> cases hr
    rcases hcase with ⟨-, s', -, rfl⟩ | ⟨-, hr, -⟩
    · exact .inr ⟨i, hj, hu, by simp [unforked, slotTaken]⟩
    · -- the answer would be a `pid`
      omega

theorem fork_failure_iff (hpid : PidsBelow k) (h : fork L p k = .ret (-1, k')) :
    NothingLeft L k k' ↔ ∀ i < NPROC, (k.proc i).state ≠ .unused := by
  constructor
  · intro hleft
    rcases fork_fails h with ⟨-, hfull⟩ | ⟨i, hi, -, hnext⟩
    · exact hfull
    · have := (hleft.slots i hi).pid
      have := hpid i hi
      omega
  · intro hfull
    rcases fork_fails h with ⟨rfl, -⟩ | ⟨i, hi, hu, -⟩
    · refine ⟨fun free free' hp hp' q => ?_, fun i _ => ⟨rfl, rfl, rfl, rfl, rfl, rfl⟩⟩
      rw [hp.unique hp']
    · exact absurd hu (hfull i hi)

def exhausted : Kernel :=
  { loaded fun _ => Bytes.zero with
    proc := fun i => if i = 0 then { noProc with state := .running, pid := 1 } else noProc
    nextpid := 2 }

theorem exhausted_pids : PidsBelow exhausted := by
  intro i hi
  by_cases h0 : i = 0
  · subst h0
    decide
  · have hnone : exhausted.proc i = noProc := if_neg h0
    rw [hnone]
    decide

theorem fork_failure_iff_exhausted : ∃ k', fork Link.sample 0 exhausted = .ret (-1, k') ∧
    (NothingLeft Link.sample exhausted k' ↔ ∀ i < NPROC, (exhausted.proc i).state ≠ .unused) := by
  obtain ⟨k', h⟩ : ∃ k', fork Link.sample 0 exhausted = .ret (-1, k') := ⟨_, rfl⟩
  exact ⟨k', h, fork_failure_iff exhausted_pids h⟩

/-- There is a slot, and no page for its kernel stack. -/
theorem exhausted_fork_leaves_pid : PidsBelow exhausted ∧
    ∃ k', fork Link.sample 0 exhausted = .ret (-1, k') ∧
      ¬NothingLeft Link.sample exhausted k' := by
  refine ⟨exhausted_pids, _, rfl, fun h => ?_⟩
  have hpid := (h.slots 1 (by decide)).pid
  exact absurd hpid (by decide)

end Xv6.Sys
