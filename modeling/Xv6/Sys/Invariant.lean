import Xv6.Sys.Ledger
import Xv6.Sys.Run

/-!
# The page invariant of the kernel

`ledger k free` reads the roles of the pages off the kernel's own tables. `Inv` says that
this ledger is sound, and what the calls need of the tables to keep it so. Each end of a
pipe has one file, so a pipe page is freed once, when its second end is closed.
-/

namespace Xv6.Sys
open Lib Vm

def hasSpace (x : Proc) : Prop := x.state ≠ .unused ∧ x.state ≠ .embryo

instance (x : Proc) : Decidable (hasSpace x) := inferInstanceAs (Decidable (_ ∧ _))

def dirOf (k : Kernel) : Owner → Option ℕ
  | .kernel => some (V2P k.kpgdir / PGSIZE)
  | .proc i =>
    if i < NPROC ∧ hasSpace (k.proc i) then some (V2P (k.proc i).pgdir / PGSIZE) else none
  | .fresh => none

def wholeOf (k : Kernel) : Whole → ℕ → Prop
  | .apstack i, p => k.apstacks[i]? = some (kva p)
  | .kstack i, p => i < NPROC ∧ (k.proc i).kstack = kva p
  | .pipe, p => (k.pipe (kva p)).readopen = true ∨ (k.pipe (kva p)).writeopen = true

def ledger (k : Kernel) (free : List ℕ) : Ledger := ⟨free, dirOf k, wholeOf k⟩

structure Pipes (k : Kernel) : Prop where
  unused : ∀ f, (k.file f).ref = 0 → (k.file f).type = .none
  page : ∀ f, (k.file f).type = .pipe → ∃ q, (k.file f).pipe = kva q
  opened : ∀ f, (k.file f).type = .pipe →
    (if (k.file f).writable then (k.pipe (k.file f).pipe).writeopen
      else (k.pipe (k.file f).pipe).readopen) = true
  ends : ∀ f f', (k.file f).type = .pipe → (k.file f').type = .pipe →
    (k.file f).pipe = (k.file f').pipe → (k.file f).writable = (k.file f').writable → f = f'

structure Inv (L : Link) (k : Kernel) (free : List ℕ) : Prop where
  sound : Sound L k.kmem (ledger k free)
  pgdir : ∀ i < NPROC, hasSpace (k.proc i) → ∃ d < 2 ^ 19, (k.proc i).pgdir = kva d
  kstack : ∀ i < NPROC, hasSpace (k.proc i) → ∃ f, (k.proc i).kstack = kva f
  idle : ∀ i < NPROC, (k.proc i).state = .unused → (k.proc i).kstack = 0
  sz : ∀ i < NPROC, hasSpace (k.proc i) → (k.proc i).sz ≤ KERNBASE
  pipes : Pipes k

structure SameSpace (x y : Proc) : Prop where
  state : y.state = x.state
  pgdir : y.pgdir = x.pgdir
  kstack : y.kstack = x.kstack
  sz : y.sz = x.sz
  stackSize : y.stackSize = x.stackSize

structure Keeps (k k' : Kernel) : Prop where
  proc : ∀ i, SameSpace (k.proc i) (k'.proc i)
  pte : ∀ o d, dirOf k o = some d → ∀ v < 2 ^ 20, pte k'.kmem.mem d v = pte k.kmem.mem d v
  kpgdir : k'.kpgdir = k.kpgdir
  apstacks : k'.apstacks = k.apstacks
  initproc : k'.initproc = k.initproc

variable {L : Link} {k k' k'' : Kernel} {free free' : List ℕ} {p f : ℕ}

theorem onMem_ret {α : Type} {x : Prog Kmem α} {r : α × Kernel} (h : onMem x k = .ret r) :
    ∃ a s, x k.kmem = .ret (a, s) ∧ r = (a, { k with kmem := s }) := by
  obtain ⟨⟨a, s⟩, hx, hr⟩ := Outcome.bind_eq_ret.mp h
  exact ⟨a, s, hx, (Outcome.ret.inj hr).symm⟩

theorem onMem_bind_ret {α β : Type} {x : Prog Kmem α} {g : α → Prog Kernel β} {r : β × Kernel}
    (h : (onMem x >>= g) k = .ret r) :
    ∃ a s, x k.kmem = .ret (a, s) ∧ g a { k with kmem := s } = .ret r := by
  obtain ⟨a, k₁, hmem, hg⟩ := Prog.bind_ret h
  obtain ⟨_, s, hx, hk₁⟩ := onMem_ret hmem
  obtain ⟨rfl, rfl⟩ := Prod.mk.inj hk₁
  exact ⟨a, s, hx, hg⟩

theorem onMem_of_ret {α : Type} {x : Prog Kmem α} {a : α} {s : Kmem}
    (h : x k.kmem = .ret (a, s)) : onMem x k = .ret (a, { k with kmem := s }) := by
  rw [onMem, h]
  rfl

theorem SameSpace.refl (x : Proc) : SameSpace x x := ⟨rfl, rfl, rfl, rfl, rfl⟩

theorem SameSpace.trans {x y z : Proc} (h : SameSpace x y) (h' : SameSpace y z) :
    SameSpace x z :=
  ⟨h'.state.trans h.state, h'.pgdir.trans h.pgdir, h'.kstack.trans h.kstack, h'.sz.trans h.sz,
    h'.stackSize.trans h.stackSize⟩

theorem SameSpace.hasSpace {x y : Proc} (h : SameSpace x y) : hasSpace y ↔ hasSpace x := by
  simp [Sys.hasSpace, h.state]

namespace Keeps

theorem refl (k : Kernel) : Keeps k k :=
  ⟨fun _ => .refl _, fun _ _ _ _ _ => rfl, rfl, rfl, rfl⟩

theorem dirOf_eq (h : Keeps k k') : dirOf k' = dirOf k := by
  funext o
  cases o with
  | kernel => simp [dirOf, h.kpgdir]
  | proc i => simp [dirOf, (h.proc i).hasSpace, (h.proc i).pgdir]
  | fresh => rfl

theorem trans (h : Keeps k k') (h' : Keeps k' k'') : Keeps k k'' where
  proc i := (h.proc i).trans (h'.proc i)
  pte o d hd v hv := (h'.pte o d (by rw [h.dirOf_eq]; exact hd) v hv).trans (h.pte o d hd v hv)
  kpgdir := h'.kpgdir.trans h.kpgdir
  apstacks := h'.apstacks.trans h.apstacks
  initproc := h'.initproc.trans h.initproc

theorem inv (hk : Keeps k k') (h : Inv L k free) (hs : Sound L k'.kmem (ledger k' free'))
    (hp : Pipes k') : Inv L k' free' where
  sound := hs
  pgdir i hi hsp := by
    rw [(hk.proc i).pgdir]
    exact h.pgdir i hi ((hk.proc i).hasSpace.mp hsp)
  kstack i hi hsp := by
    rw [(hk.proc i).kstack]
    exact h.kstack i hi ((hk.proc i).hasSpace.mp hsp)
  idle i hi hu := by
    rw [(hk.proc i).kstack]
    exact h.idle i hi ((hk.proc i).state.symm.trans hu)
  sz i hi hsp := by
    rw [(hk.proc i).sz]
    exact h.sz i hi ((hk.proc i).hasSpace.mp hsp)
  pipes := hp

theorem sound (hk : Keeps k k') (h : Inv L k free) (hm : k'.kmem = k.kmem)
    (hpipe : ∀ q, wholeOf k' .pipe q ↔ wholeOf k .pipe q) : Sound L k'.kmem (ledger k' free) := by
  have hl : ledger k' free = ledger k free := by
    have hw : wholeOf k' = wholeOf k := by
      funext x q
      cases x with
      | apstack i => simp [wholeOf, hk.apstacks]
      | kstack i => simp [wholeOf, (hk.proc i).kstack]
      | pipe => exact propext (hpipe q)
    simp [ledger, hk.dirOf_eq, hw]
  rw [hl, hm]
  exact h.sound

end Keeps

end Xv6.Sys
