import Xv6.Sys.Machine
import Xv6.Vm.Space

/-!
# `exec`, and the system-call arguments

The kernel reads user memory through the page table of the running process, and so does
`uva2ka` when it follows the null pointer `walkpgdir` answers for a missing page table. A
kernel access to an unmapped page goes through the same page-fault handler as a user
access; it is taken again, and again for ever when the handler changes nothing.

`exec` gets the file and the argument strings that `sys_exec` has fetched.
-/

namespace Xv6.Sys
open Lib Vm

structure Inode where
  size : ℕ
  data : Bytes

/-- The number of bytes `readi` copies from a regular file, `none` for `-1`. -/
def readi (ip : Inode) (off n : ℕ) : Option ℕ :=
  if ip.size < off ∨ add32 off n < off then none else some (min n (ip.size - off))

structure Elfhdr where
  magic : ℕ
  entry : ℕ
  phoff : ℕ
  phnum : ℕ

def ELF_MAGIC : ℕ := 0x464C457F
def ELFHDR_SIZE : ℕ := 52
def ELF_PROG_LOAD : ℕ := 1
def PROGHDR_SIZE : ℕ := 32

def elfhdr (ip : Inode) : Elfhdr :=
  ⟨ip.data.read32 0, ip.data.read32 24, ip.data.read32 28, ip.data.read16 44⟩

structure Proghdr where
  type : ℕ
  off : ℕ
  vaddr : ℕ
  filesz : ℕ
  memsz : ℕ

def proghdr (ip : Inode) (off : ℕ) : Proghdr :=
  ⟨ip.data.read32 off, ip.data.read32 (off + 4), ip.data.read32 (off + 8),
    ip.data.read32 (off + 16), ip.data.read32 (off + 20)⟩

def loaduvmFrom (pgdir addr : ℕ) (ip : Inode) (offset sz : ℕ) : ℕ → ℕ → Prog Kmem ℤ
  | 0, _ => .hang
  | fuel + 1, i =>
    if i < sz then do
      let pte ← walkpgdir pgdir (add32 addr i) false
      if pte = 0 then .panic "loaduvm: address should exist"
      else do
        let w ← load pte
        let n := if sz - i < PGSIZE then sz - i else PGSIZE
        match readi ip (add32 offset i) n with
        | none => return -1
        | some c => do
          putBytes (P2V (PTE_ADDR w)) c fun a => ip.data (add32 offset i + a)
          if c ≠ n then return -1
          else loaduvmFrom pgdir addr ip offset sz fuel (add32 i PGSIZE)
    else return 0

def loaduvm (pgdir addr : ℕ) (ip : Inode) (offset sz : ℕ) : Prog Kmem ℤ :=
  if addr % PGSIZE ≠ 0 then .panic "loaduvm: addr must be page aligned"
  else loaduvmFrom pgdir addr ip offset sz allPages 0

variable (L : Link)

def loadSegments (pgdir : ℕ) (ip : Inode) : ℕ → ℕ → ℕ → Prog Kmem (Option ℕ)
  | 0, _, sz => return some sz
  | n + 1, off, sz =>
    let ph := proghdr ip off
    if readi ip off PROGHDR_SIZE ≠ some PROGHDR_SIZE then return none
    else if ph.type ≠ ELF_PROG_LOAD then loadSegments pgdir ip n (add32 off PROGHDR_SIZE) sz
    else if ph.memsz < ph.filesz then return none
    else if add32 ph.vaddr ph.memsz < ph.vaddr then return none
    else do
      let sz ← allocuvm L pgdir sz (add32 ph.vaddr ph.memsz)
      if sz = 0 then return none
      else if ph.vaddr % PGSIZE ≠ 0 then return none
      else do
        let r ← loaduvm pgdir ph.vaddr ip ph.off ph.filesz
        if r < 0 then return none
        else loadSegments pgdir ip n (add32 off PROGHDR_SIZE) sz

def writable (w : ℕ) : Bool := w &&& PTE_W ≠ 0

/-- The frame a kernel access to `va` reaches; `CR0_WP` is set. -/
def translate (k : Kernel) (p va : ℕ) (write : Bool) : Option ℕ :=
  let w := pte k.kmem.mem (V2P (k.proc p).pgdir / PGSIZE) (va / PGSIZE)
  if present w ∧ (write → writable w) then some (w / PGSIZE) else none

def touch (p va : ℕ) (write : Bool) : Prog Kernel ℕ := do
  let k ← .get
  match translate k p va write with
  | some f => return f
  | none => do
    pgflt L p va
    let k ← .get
    match translate k p va write with
    | some f => return f
    | none => .hang

def readByte (p va : ℕ) : Prog Kernel UInt8 := do
  let f ← touch L p va false
  .read fun k => k.kmem.mem f (va % PGSIZE)

def readWord (p va : ℕ) : Prog Kernel ℕ := do
  let b₀ ← readByte L p va
  let b₁ ← readByte L p (va + 1)
  let b₂ ← readByte L p (va + 2)
  let b₃ ← readByte L p (va + 3)
  return b₀.toNat + 2 ^ 8 * b₁.toNat + 2 ^ 16 * b₂.toNat + 2 ^ 24 * b₃.toNat

def writeBytes (p va : ℕ) (src : List UInt8) : Prog Kernel Unit := do
  let f ← touch L p va true
  onMem (.modify fun s => { s with mem := Function.update s.mem f fun a =>
    if va % PGSIZE ≤ a then (src[a - va % PGSIZE]?).getD (s.mem f a) else s.mem f a })

def uva2ka (p pgdir uva : ℕ) : Prog Kernel ℕ := do
  let pte ← onMem (walkpgdir pgdir uva false)
  let w ← (if pte = 0 then readWord L p 0 else onMem (load pte) : Prog Kernel ℕ)
  if present w = false then return 0
  else if user w = false then return 0
  else return P2V (PTE_ADDR w)

def copyoutFrom (p pgdir : ℕ) : ℕ → ℕ → List UInt8 → Prog Kernel ℤ
  | _, _, [] => return 0
  | 0, _, _ :: _ => .hang
  | fuel + 1, va, b :: bs => do
    let va0 := PGROUNDDOWN va
    let pa0 ← uva2ka L p pgdir va0
    if pa0 = 0 then return -1
    else do
      let n := PGSIZE - (va - va0)
      writeBytes L p (pa0 + (va - va0)) ((b :: bs).take n)
      copyoutFrom p pgdir fuel (add32 va0 PGSIZE) ((b :: bs).drop n)

/-- Each round copies at least one byte, so the length of the data is fuel enough. -/
def copyout (p pgdir va : ℕ) (src : List UInt8) : Prog Kernel ℤ :=
  copyoutFrom L p pgdir src.length va src

/-- Push the argument strings. The answer is the stack pointer and the addresses of the
strings, `none` where the source jumps to `bad`. -/
def pushArgs (p pgdir : ℕ) : List (List UInt8) → ℕ → List ℕ → Prog Kernel (Option (ℕ × List ℕ))
  | [], sp, args => return some (sp, args)
  | s :: argv, sp, args =>
    if MAXARG ≤ args.length then return none
    else do
      let sp := sub32 sp ((s.length + 1) % 2 ^ 32) / 4 * 4
      let r ← copyout L p pgdir sp (s ++ [0])
      if r < 0 then return none else pushArgs p pgdir argv sp (args ++ [sp])

def wordBytes (w : ℕ) : List UInt8 :=
  [.ofNat w, .ofNat (w / 2 ^ 8), .ofNat (w / 2 ^ 16), .ofNat (w / 2 ^ 24)]

def execBad (pgdir : ℕ) : Prog Kernel ℤ := do
  onMem (freevm L pgdir)
  return -1

def execCommit (p pgdir sz entry sp : ℕ) : Prog Kernel ℤ := do
  let k ← .get
  setProc p fun x =>
    { x with pgdir := pgdir, sz := sz, tf := { x.tf with eip := entry, esp := sp },
             stacktop := STACK_TOP, stackSize := 1 }
  switchuvm p
  onMem (freevm L (k.proc p).pgdir)
  return 0

def exec (p : ℕ) (ip : Inode) (argv : List (List UInt8)) : Prog Kernel ℤ :=
  let elf := elfhdr ip
  if readi ip 0 ELFHDR_SIZE ≠ some ELFHDR_SIZE then return -1
  else if elf.magic ≠ ELF_MAGIC then return -1
  else do
    let pgdir ← onMem (setupkvm L)
    if pgdir = 0 then return -1
    else
      match ← onMem (loadSegments L pgdir ip elf.phnum elf.phoff 0) with
      | none => execBad L pgdir
      | some sz => do
        let r ← onMem (allocuvm L pgdir (sub32 STACK_TOP PGSIZE) STACK_TOP)
        if r = 0 then execBad L pgdir
        else
          match ← pushArgs L p pgdir argv STACK_TOP [] with
          | none => execBad L pgdir
          | some (sp, args) => do
            let argc := args.length
            let ustack := [0xffffffff, argc, sub32 sp ((argc + 1) * 4)] ++ args ++ [0]
            let sp := sub32 sp ((3 + argc + 1) * 4)
            let r ← copyout L p pgdir sp (ustack.flatMap wordBytes)
            if r < 0 then execBad L pgdir
            else execCommit L p pgdir (PGROUNDUP sz) elf.entry sp

section Arguments

def fetchint (p addr : ℕ) : Prog Kernel (Option ℕ) :=
  if STACK_TOP ≤ addr ∨ STACK_TOP < add32 addr 4 then return none
  else do
    let w ← readWord L p addr
    return some w

def fetchstrFrom (p addr : ℕ) : ℕ → ℕ → Prog Kernel (Option ℕ)
  | 0, _ => return none
  | n + 1, s => do
    let b ← readByte L p s
    if b = 0 then return some (s - addr) else fetchstrFrom p addr n (s + 1)

def fetchstr (p addr : ℕ) : Prog Kernel (Option ℕ) :=
  if STACK_TOP ≤ addr then return none
  else fetchstrFrom L p addr (STACK_TOP - addr) addr

def argint (p n : ℕ) : Prog Kernel (Option ℕ) := do
  let k ← .get
  fetchint L p (((k.proc p).tf.esp + 4 + 4 * n) % 2 ^ 32)

def argptr (p n : ℕ) (size : ℤ) : Prog Kernel (Option ℕ) := do
  match ← argint L p n with
  | none => return none
  | some i =>
    if size < 0 ∨ STACK_TOP ≤ i ∨ STACK_TOP < add32 i size.toNat then return none
    else return some i

def argstr (p n : ℕ) : Prog Kernel (Option (ℕ × ℕ)) := do
  match ← argint L p n with
  | none => return none
  | some addr =>
    match ← fetchstr L p addr with
    | none => return none
    | some len => return some (addr, len)

end Arguments

end Xv6.Sys
