import Xv6.Lib.Outcome
import Xv6.Lib.Pages
import Xv6.Vm.Layout

/-!
# The page allocator and the two-level page tables

`kalloc.c` and `vm.c` over physical memory. The free list is threaded through the
first words of the free pages and page tables are words of ordinary pages, so a
page put to two uses shows. Pointers are kernel addresses, `0` is the null pointer.

A loop that moves by pages runs with as much fuel as there are pages; without a
return by then it never ends.
-/

namespace Xv6.Vm
open Lib

structure Kmem where
  mem : Pages
  freelist : ℕ

def allPages : ℕ := 2 ^ 20

def load (v : ℕ) : Prog Kmem ℕ :=
  .read fun s => (s.mem (V2P v / PGSIZE)).read32 (V2P v % PGSIZE)

def store (v w : ℕ) : Prog Kmem Unit := .modify fun s =>
  let f := V2P v / PGSIZE
  { s with mem := Function.update s.mem f ((s.mem f).write32 (V2P v % PGSIZE) w) }

def memset (v : ℕ) (b : UInt8) : Prog Kmem Unit :=
  .modify fun s => { s with mem := s.mem.fill (V2P v / PGSIZE) b }

def copyPage (dst src : ℕ) : Prog Kmem Unit := .modify fun s =>
  { s with mem := Function.update s.mem (V2P dst / PGSIZE) (s.mem (V2P src / PGSIZE)) }

def putBytes (v n : ℕ) (src : Bytes) : Prog Kmem Unit := .modify fun s =>
  let f := V2P v / PGSIZE
  let o := V2P v % PGSIZE
  { s with mem := Function.update s.mem f fun a =>
      if o ≤ a ∧ a < o + n then src (a - o) else s.mem f a }

section Kalloc

variable (L : Link)

def kfree (v : ℕ) : Prog Kmem Unit :=
  if v % PGSIZE ≠ 0 ∨ v < L.kend ∨ PHYSTOP ≤ V2P v then .panic "kfree"
  else do
    memset v 1
    let r ← .read Kmem.freelist
    store v r
    .modify fun s => { s with freelist := v }

def kalloc : Prog Kmem ℕ := do
  let r ← .read Kmem.freelist
  if r ≠ 0 then do
    let next ← load r
    .modify fun s => { s with freelist := next }
    return r
  else return r

def freerangeFrom (vend : ℕ) : ℕ → ℕ → Prog Kmem Unit
  | 0, _ => .hang
  | fuel + 1, p =>
    if add32 p PGSIZE ≤ vend then do
      kfree L p
      freerangeFrom vend fuel (add32 p PGSIZE)
    else return ()

def freerange (vstart vend : ℕ) : Prog Kmem Unit :=
  freerangeFrom L vend allPages (PGROUNDUP vstart)

def kinit1 : Prog Kmem Unit := freerange L L.kend (P2V 0x400000)

def kinit2 : Prog Kmem Unit := freerange L (P2V 0x400000) (P2V PHYSTOP)

end Kalloc

def walkpgdir (pgdir va : ℕ) (alloc : Bool) : Prog Kmem ℕ := do
  let pde := pgdir + 4 * PDX va
  let w ← load pde
  if present w then return P2V (PTE_ADDR w) + 4 * PTX va
  else if alloc = false then return 0
  else do
    let pgtab ← kalloc
    if pgtab = 0 then return 0
    else do
      memset pgtab 0
      store pde (V2P pgtab ||| PTE_P ||| PTE_W ||| PTE_U)
      return pgtab + 4 * PTX va

def mappagesFrom (pgdir last perm : ℕ) : ℕ → ℕ → ℕ → Prog Kmem ℤ
  | 0, _, _ => .hang
  | fuel + 1, a, pa => do
    let pte ← walkpgdir pgdir a true
    if pte = 0 then return -1
    else do
      let w ← load pte
      if present w then .panic "remap"
      else do
        store pte (pa ||| perm ||| PTE_P)
        if a = last then return 0
        else mappagesFrom pgdir last perm fuel (add32 a PGSIZE) (add32 pa PGSIZE)

def mappages (pgdir va size pa perm : ℕ) : Prog Kmem ℤ :=
  mappagesFrom pgdir (PGROUNDDOWN (sub32 (add32 va size) 1)) perm allPages (PGROUNDDOWN va) pa

section Pgdir

variable (L : Link)

def deallocuvmFrom (pgdir oldsz : ℕ) : ℕ → ℕ → Prog Kmem Unit
  | 0, _ => .hang
  | fuel + 1, a =>
    if a < oldsz then do
      let pte ← walkpgdir pgdir a false
      if pte = 0 then
        deallocuvmFrom pgdir oldsz fuel
          (add32 (sub32 (PGADDR (PDX a + 1) 0 0) PGSIZE) PGSIZE)
      else do
        let w ← load pte
        if present w then do
          if PTE_ADDR w = 0 then .panic "kfree"
          else do
            kfree L (P2V (PTE_ADDR w))
            store pte 0
            deallocuvmFrom pgdir oldsz fuel (add32 a PGSIZE)
        else deallocuvmFrom pgdir oldsz fuel (add32 a PGSIZE)
    else return ()

def deallocuvm (pgdir oldsz newsz : ℕ) : Prog Kmem ℕ :=
  if oldsz ≤ newsz then return oldsz
  else do
    deallocuvmFrom L pgdir oldsz allPages (PGROUNDUP newsz)
    return newsz

def allocuvmFrom (pgdir oldsz newsz : ℕ) : ℕ → ℕ → Prog Kmem ℕ
  | 0, _ => .hang
  | fuel + 1, a =>
    if a < newsz then do
      let mem ← kalloc
      if mem = 0 then do
        let _ ← deallocuvm L pgdir newsz oldsz
        return 0
      else do
        memset mem 0
        let r ← mappages pgdir a PGSIZE (V2P mem) (PTE_W ||| PTE_U)
        if r < 0 then do
          let _ ← deallocuvm L pgdir newsz oldsz
          kfree L mem
          return 0
        else allocuvmFrom pgdir oldsz newsz fuel (add32 a PGSIZE)
    else return newsz

def allocuvm (pgdir oldsz newsz : ℕ) : Prog Kmem ℕ :=
  if KERNBASE ≤ newsz then return 0
  else if newsz < oldsz then return oldsz
  else allocuvmFrom L pgdir oldsz newsz allPages (PGROUNDUP oldsz)

def freeTables (pgdir : ℕ) : List ℕ → Prog Kmem Unit
  | [] => return ()
  | i :: is => do
    let w ← load (pgdir + 4 * i)
    if present w then do
      kfree L (P2V (PTE_ADDR w))
      freeTables pgdir is
    else freeTables pgdir is

def freevm (pgdir : ℕ) : Prog Kmem Unit :=
  if pgdir = 0 then .panic "freevm: no pgdir"
  else do
    let _ ← deallocuvm L pgdir KERNBASE 0
    freeTables L pgdir (List.range NPDENTRIES)
    kfree L pgdir

structure Kmap where
  virt : ℕ
  phys_start : ℕ
  phys_end : ℕ
  perm : ℕ

def kmapAt (data : ℕ) : List Kmap :=
  [⟨KERNBASE, 0, EXTMEM, PTE_W⟩,
   ⟨KERNLINK, V2P KERNLINK, V2P data, 0⟩,
   ⟨data, V2P data, PHYSTOP, PTE_W⟩,
   ⟨DEVSPACE, DEVSPACE, 0, PTE_W⟩]

def kmap : List Kmap := kmapAt L.data

def mapKernel (pgdir : ℕ) : List Kmap → Prog Kmem ℕ
  | [] => return pgdir
  | k :: ks => do
    let r ← mappages pgdir k.virt (sub32 k.phys_end k.phys_start) k.phys_start k.perm
    if r < 0 then do
      freevm L pgdir
      return 0
    else mapKernel pgdir ks

def setupkvmAt (data : ℕ) : Prog Kmem ℕ := do
  let pgdir ← kalloc
  if pgdir = 0 then return 0
  else do
    memset pgdir 0
    if DEVSPACE < P2V PHYSTOP then .panic "PHYSTOP too high"
    else mapKernel L pgdir (kmapAt data)

def setupkvm : Prog Kmem ℕ := setupkvmAt L L.data

def inituvm (pgdir : ℕ) (init : Bytes) (sz : ℕ) : Prog Kmem Unit :=
  if PGSIZE ≤ sz then .panic "inituvm: more than a page"
  else do
    let mem ← kalloc
    memset mem 0
    let _ ← mappages pgdir 0 PGSIZE (V2P mem) (PTE_W ||| PTE_U)
    putBytes mem sz init

/-- One round of the loops of `copyuvm`: copy the page at `i` of `pgdir` to the page
at `va` of `d`. The answer is `false` where the source jumps to `bad`. -/
def copyuvmPage (pgdir d i va : ℕ) : Prog Kmem Bool := do
  let pte ← walkpgdir pgdir i false
  if pte = 0 then .panic "copyuvm: pte should exist"
  else do
    let w ← load pte
    if present w = false then .panic "copyuvm: page not present"
    else do
      let mem ← kalloc
      if mem = 0 then return false
      else do
        copyPage mem (P2V (PTE_ADDR w))
        let r ← mappages d va PGSIZE (V2P mem) (PTE_FLAGS w)
        return decide (0 ≤ r)

def copyHeap (pgdir d sz : ℕ) : ℕ → ℕ → Prog Kmem Bool
  | 0, _ => .hang
  | fuel + 1, i =>
    if i < sz then do
      let ok ← copyuvmPage pgdir d i i
      if ok then copyHeap pgdir d sz fuel (add32 i PGSIZE) else return false
    else return true

def copyStack (pgdir d bound : ℕ) : ℕ → ℕ → Prog Kmem Bool
  | 0, _ => .hang
  | fuel + 1, i =>
    if bound < i then do
      let ok ← copyuvmPage pgdir d i (PGROUNDDOWN i)
      if ok then copyStack pgdir d bound fuel (sub32 i PGSIZE) else return false
    else return true

def bottom (stackSize : ℕ) : ℕ := sub32 STACK_TOP (stackSize * PGSIZE % 2 ^ 32)

def copyuvm (pgdir sz stackSize : ℕ) : Prog Kmem ℕ := do
  let d ← setupkvm L
  if d = 0 then return 0
  else do
    let ok ← copyHeap pgdir d sz allPages 0
    if ok then do
      let ok' ← copyStack pgdir d (bottom stackSize) allPages STACK_TOP
      if ok' then return d
      else do
        freevm L d
        return 0
    else do
      freevm L d
      return 0

end Pgdir

end Xv6.Vm
