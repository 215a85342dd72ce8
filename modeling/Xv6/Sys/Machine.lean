import Xv6.Param
import Xv6.Vm.Machine

/-!
# Processes, files and pipes

`proc.c`, the page-fault case of `trap.c`, `pipe.c` and the file table over the memory of
`Vm`. A process is its index in `ptable`, a file its index in `ftable`, a pipe the
address of its page; `p` stands for `myproc()`. System calls run one at a time.

The trap frame stands beside the process instead of in the pages of its kernel stack.
-/

namespace Xv6.Sys
open Lib Vm

inductive State
  | unused
  | embryo
  | sleeping
  | runnable
  | running
  | zombie
  deriving DecidableEq

structure Trapframe where
  eax : ℕ
  eip : ℕ
  esp : ℕ

structure Proc where
  sz : ℕ
  stacktop : ℕ
  stackSize : ℕ
  pgdir : ℕ
  kstack : ℕ
  state : State
  pid : ℕ
  parent : Option ℕ
  tf : Trapframe
  killed : Bool
  ofile : ℕ → Option ℕ

inductive FileType
  | none
  | pipe
  | inode
  deriving DecidableEq

structure File where
  type : FileType
  ref : ℕ
  readable : Bool
  writable : Bool
  pipe : ℕ

structure Pipe where
  nread : ℕ
  nwrite : ℕ
  readopen : Bool
  writeopen : Bool

structure Kernel where
  kmem : Kmem
  kpgdir : ℕ
  apstacks : List ℕ
  proc : ℕ → Proc
  initproc : ℕ
  nextpid : ℕ
  file : ℕ → File
  pipe : ℕ → Pipe

def onMem {α : Type} (x : Prog Kmem α) : Prog Kernel α := fun k =>
  (x k.kmem).bind fun r => .ret (r.1, { k with kmem := r.2 })

def setProc (i : ℕ) (f : Proc → Proc) : Prog Kernel Unit :=
  .modify fun k => { k with proc := Function.update k.proc i (f (k.proc i)) }

def setFile (i : ℕ) (f : File → File) : Prog Kernel Unit :=
  .modify fun k => { k with file := Function.update k.file i (f (k.file i)) }

def setPipe (a : ℕ) (f : Pipe → Pipe) : Prog Kernel Unit :=
  .modify fun k => { k with pipe := Function.update k.pipe a (f (k.pipe a)) }

variable (L : Link)

section Files

def filealloc : Prog Kernel (Option ℕ) := do
  let k ← .get
  match (List.range NFILE).find? fun i => (k.file i).ref = 0 with
  | some f => do
    setFile f fun x => { x with ref := 1 }
    return some f
  | none => return none

def filedup (f : ℕ) : Prog Kernel Unit := do
  let k ← .get
  if (k.file f).ref < 1 then .panic "filedup"
  else setFile f fun x => { x with ref := x.ref + 1 }

def pipeclose (a : ℕ) (writable : Bool) : Prog Kernel Unit := do
  if writable then setPipe a fun x => { x with writeopen := false }
  else setPipe a fun x => { x with readopen := false }
  let k ← .get
  if (k.pipe a).readopen = false ∧ (k.pipe a).writeopen = false then onMem (kfree L a)
  else return ()

/-- Closing an inode file leaves the memory alone: its `iput` is not modelled here. -/
def fileclose (f : ℕ) : Prog Kernel Unit := do
  let k ← .get
  if (k.file f).ref < 1 then .panic "fileclose"
  else if 1 < (k.file f).ref then setFile f fun x => { x with ref := x.ref - 1 }
  else do
    setFile f fun x => { x with ref := 0, type := .none }
    if (k.file f).type = .pipe then pipeclose L (k.file f).pipe (k.file f).writable
    else return ()

def pipealloc : Prog Kernel (Option (ℕ × ℕ)) := do
  match ← filealloc with
  | none => return none
  | some f0 =>
    match ← filealloc with
    | none => do
      fileclose L f0
      return none
    | some f1 => do
      let p ← onMem kalloc
      if p = 0 then do
        fileclose L f0
        fileclose L f1
        return none
      else do
        setPipe p fun _ => ⟨0, 0, true, true⟩
        setFile f0 fun x =>
          { x with type := .pipe, readable := true, writable := false, pipe := p }
        setFile f1 fun x =>
          { x with type := .pipe, readable := false, writable := true, pipe := p }
        return some (f0, f1)

def fdalloc (p f : ℕ) : Prog Kernel (Option ℕ) := do
  let k ← .get
  match (List.range NOFILE).find? fun fd => (k.proc p).ofile fd = none with
  | some fd => do
    setProc p fun x => { x with ofile := Function.update x.ofile fd (some f) }
    return some fd
  | none => return none

/-- `sys_pipe` up to the two stores into user memory. -/
def sysPipe (p : ℕ) : Prog Kernel (Option (ℕ × ℕ)) := do
  match ← pipealloc L with
  | none => return none
  | some (rf, wf) =>
    match ← fdalloc p rf with
    | none => do
      fileclose L rf
      fileclose L wf
      return none
    | some fd0 =>
      match ← fdalloc p wf with
      | none => do
        setProc p fun x => { x with ofile := Function.update x.ofile fd0 none }
        fileclose L rf
        fileclose L wf
        return none
      | some fd1 => return some (fd0, fd1)

def argfd (p fd : ℕ) : Prog Kernel (Option ℕ) :=
  .read fun k => if fd < NOFILE then (k.proc p).ofile fd else none

def sysDup (p fd : ℕ) : Prog Kernel (Option ℕ) := do
  match ← argfd p fd with
  | none => return none
  | some f =>
    match ← fdalloc p f with
    | none => return none
    | some fd' => do
      filedup f
      return some fd'

def sysClose (p fd : ℕ) : Prog Kernel ℤ := do
  match ← argfd p fd with
  | none => return -1
  | some f => do
    setProc p fun x => { x with ofile := Function.update x.ofile fd none }
    fileclose L f
    return 0

end Files

section Processes

def allocproc : Prog Kernel (Option ℕ) := do
  let k ← .get
  match (List.range NPROC).find? fun i => (k.proc i).state = .unused with
  | none => return none
  | some i => do
    setProc i fun x => { x with state := .embryo, pid := k.nextpid }
    .modify fun k => { k with nextpid := k.nextpid + 1 }
    let kstack ← onMem kalloc
    setProc i fun x => { x with kstack := kstack }
    if kstack = 0 then do
      setProc i fun x => { x with state := .unused }
      return none
    else return some i

/-- `initcode` is `n` bytes long. Without a process slot the source runs into the null
pointer. -/
def userinit (initcode : Bytes) (n : ℕ) : Prog Kernel Unit := do
  match ← allocproc with
  | none => .hang
  | some p => do
    .modify fun k => { k with initproc := p }
    let pgdir ← onMem (setupkvm L)
    setProc p fun x => { x with pgdir := pgdir }
    if pgdir = 0 then .panic "userinit: out of memory?"
    else do
      onMem (inituvm pgdir initcode n)
      setProc p fun x => { x with sz := PGSIZE, tf := ⟨0, 0, PGSIZE⟩, state := .runnable }

def switchuvm (p : ℕ) : Prog Kernel Unit := do
  let k ← .get
  if (k.proc p).kstack = 0 then .panic "switchuvm: no kstack"
  else if (k.proc p).pgdir = 0 then .panic "switchuvm: no pgdir"
  else return ()

def resize (x : Proc) (n : ℤ) : Prog Kernel ℕ :=
  if 0 < n then onMem (allocuvm L x.pgdir x.sz (add32 x.sz n.toNat))
  else if n < 0 then onMem (deallocuvm L x.pgdir x.sz (sub32 x.sz (-n).toNat))
  else pure x.sz

def growproc (p : ℕ) (n : ℤ) : Prog Kernel ℤ := do
  let k ← .get
  let sz ← resize L (k.proc p) n
  if n ≠ 0 ∧ sz = 0 then return -1
  else do
    setProc p fun x => { x with sz := sz }
    switchuvm p
    return 0

def dupFiles (p np : ℕ) : List ℕ → Prog Kernel Unit
  | [] => return ()
  | fd :: fds => do
    let k ← .get
    match (k.proc p).ofile fd with
    | some f => do
      filedup f
      setProc np fun x => { x with ofile := Function.update x.ofile fd (some f) }
      dupFiles p np fds
    | none => dupFiles p np fds

def fork (p : ℕ) : Prog Kernel ℤ := do
  match ← allocproc with
  | none => return -1
  | some np => do
    let k ← .get
    let cur := k.proc p
    let pgdir ← onMem (copyuvm L cur.pgdir cur.sz cur.stackSize)
    setProc np fun x => { x with pgdir := pgdir }
    if pgdir = 0 then do
      onMem (kfree L (k.proc np).kstack)
      setProc np fun x => { x with kstack := 0, state := .unused }
      return -1
    else do
      setProc np fun x =>
        { x with sz := cur.sz, stackSize := cur.stackSize, parent := some p,
                 tf := { cur.tf with eax := 0 } }
      dupFiles p np (List.range NOFILE)
      setProc np fun x => { x with state := .runnable }
      return (k.proc np).pid

def closeFiles (p : ℕ) : List ℕ → Prog Kernel Unit
  | [] => return ()
  | fd :: fds => do
    let k ← .get
    match (k.proc p).ofile fd with
    | some f => do
      fileclose L f
      setProc p fun x => { x with ofile := Function.update x.ofile fd none }
      closeFiles p fds
    | none => closeFiles p fds

def reparent (p : ℕ) : Prog Kernel Unit := .modify fun k =>
  { k with proc := fun i =>
      if i < NPROC ∧ (k.proc i).parent = some p then
        { k.proc i with parent := some k.initproc }
      else k.proc i }

def exit (p : ℕ) : Prog Kernel Unit := do
  let k ← .get
  if p = k.initproc then .panic "init exiting"
  else do
    closeFiles L p (List.range NOFILE)
    reparent p
    setProc p fun x => { x with state := .zombie }

/-- The answer is `none` where the caller goes to sleep. -/
def wait (p : ℕ) : Prog Kernel (Option ℤ) := do
  let k ← .get
  match (List.range NPROC).find? fun i =>
      (k.proc i).parent = some p ∧ (k.proc i).state = .zombie with
  | some i => do
    onMem (kfree L (k.proc i).kstack)
    setProc i fun x => { x with kstack := 0 }
    onMem (freevm L (k.proc i).pgdir)
    setProc i fun x => { x with pid := 0, parent := none, killed := false, state := .unused }
    return some (k.proc i).pid
  | none =>
    if (∀ i < NPROC, (k.proc i).parent ≠ some p) ∨ (k.proc p).killed then return some (-1)
    else return none

def pgflt (p addr : ℕ) : Prog Kernel Unit := do
  let k ← .get
  let x := k.proc p
  if PGROUNDDOWN addr ≤ bottom x.stackSize then do
    let r ← onMem (allocuvm L x.pgdir (PGROUNDDOWN addr) (bottom x.stackSize))
    if r = 0 then .panic "Messed Up\n"
    else setProc p fun x => { x with stackSize := (x.stackSize + 1) % 2 ^ 32 }
  else return ()

/-- `trap` for a page fault taken in user mode. -/
def trap (p addr : ℕ) : Prog Kernel Unit := do
  pgflt L p addr
  let k ← .get
  if (k.proc p).killed then exit L p else return ()

end Processes

end Xv6.Sys
