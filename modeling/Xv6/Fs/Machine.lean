import Mathlib.Data.List.FinRange
import Xv6.Lib.Bytes
import Xv6.Lib.Thread
import Xv6.Param

/-!
# Inodes, files and pipes shared by processes

The inode cache over the inodes on disk, the file table, the pipes, and the descriptors of
processes `P`. Each operation below is what one process does in one go: under
`icache.lock`, `ftable.lock` or `p->lock`, or to an inode whose sleep lock it holds.

An inode on disk is its fields and its contents; blocks, the log and its waiting are not
seen here. `iupdate` follows every change of a cached field at once, so the two are one
operation. There is one device. Link counts do not wrap: a disk of `FSSIZE` blocks has no
room for `2 ^ 15` directory entries.
-/

namespace Xv6.Fs
open Lib

abbrev Slot := Fin NINODE
abbrev FileId := Fin NFILE
abbrev Fd := Fin NOFILE

/-- At most `DIRSIZ` bytes, none of them zero. -/
abbrev Name := List UInt8

inductive IType
  | free
  | dir
  | file
  | dev
  deriving DecidableEq

structure Dinode where
  type : IType
  major : ℤ
  minor : ℤ
  nlink : ℤ
  size : ℕ
  deriving DecidableEq

structure Inode (P : Type) where
  inum : ℕ
  ref : ℕ
  lock : Option P
  valid : Bool
  copy : Dinode

inductive FileType
  | none
  | pipe
  | inode
  deriving DecidableEq

structure File where
  type : FileType
  ref : ℕ
  readable : Bool
  writable : Bool
  pipe : ℕ
  ip : Slot
  off : ℕ

structure Pipe where
  readopen : Bool
  writeopen : Bool
  /-- How often `kalloc` has returned the page, and how often `kfree` has got it. -/
  kallocs : ℕ
  kfrees : ℕ

inductive ProcState
  | unused
  | embryo
  | live
  deriving DecidableEq

structure Proc where
  state : ProcState
  cwd : Option Slot
  ofile : Fd → Option FileId

structure State (P : Type) where
  disk : ℕ → Dinode
  data : ℕ → Bytes
  inode : Slot → Inode P
  file : FileId → File
  pipe : ℕ → Pipe
  proc : P → Proc
  /-- The directory in which a process makes or removes an entry; no code reads it. -/
  dir : P → Option Slot

section Directories

structure Dirent where
  inum : ℕ
  name : Name
  deriving DecidableEq

def DIRENT : ℕ := 16

def dirent (m : Bytes) (off : ℕ) : Dirent :=
  ⟨m.read16 off, ((List.range DIRSIZ).map fun i => m (off + 2 + i)).takeWhile (· ≠ 0)⟩

def Dirent.bytes (de : Dirent) : List UInt8 :=
  [.ofNat de.inum, .ofNat (de.inum / 256)] ++ (de.name ++ List.replicate DIRSIZ 0).take DIRSIZ

def scan (p : Dirent → Bool) (message : String) (m : Bytes) (size : ℕ) :
    ℕ → ℕ → Outcome (Option ℕ)
  | 0, _ => .ret none
  | fuel + 1, off =>
    if off < size then
      if size < off + DIRENT then .panic message
      else if p (dirent m off) then .ret (some off)
      else scan p message m size fuel (off + DIRENT)
    else .ret none

def dot : Name := [46]
def dotdot : Name := [46, 46]

end Directories

variable {P : Type} [DecidableEq P]

def first {n : ℕ} (f : Fin n → Bool) : Option (Fin n) := (List.finRange n).find? f

namespace State

def setInode (s : State P) (ip : Slot) (f : Inode P → Inode P) : State P :=
  { s with inode := Function.update s.inode ip (f (s.inode ip)) }

def setFile (s : State P) (f : FileId) (g : File → File) : State P :=
  { s with file := Function.update s.file f (g (s.file f)) }

def setPipe (s : State P) (a : ℕ) (f : Pipe → Pipe) : State P :=
  { s with pipe := Function.update s.pipe a (f (s.pipe a)) }

def setProc (s : State P) (p : P) (f : Proc → Proc) : State P :=
  { s with proc := Function.update s.proc p (f (s.proc p)) }

def update (s : State P) (ip : Slot) (f : Dinode → Dinode) : State P :=
  let d := f (s.inode ip).copy
  { s.setInode ip fun x => { x with copy := d } with
    disk := Function.update s.disk (s.inode ip).inum d }

def iget (s : State P) (inum : ℕ) : Outcome (Slot × State P) :=
  match first fun i => 0 < (s.inode i).ref ∧ (s.inode i).inum = inum with
  | some ip => .ret (ip, s.setInode ip fun x => { x with ref := x.ref + 1 })
  | none =>
    match first fun i => (s.inode i).ref = 0 with
    | some ip =>
      .ret (ip, s.setInode ip fun x => { x with inum := inum, ref := 1, valid := false })
    | none => .panic "iget: no inodes"

def load (s : State P) (ip : Slot) : Outcome (Unit × State P) :=
  if (s.inode ip).valid then .ret ((), s)
  else
    let d := s.disk (s.inode ip).inum
    if d.type = .free then .panic "ilock: no type"
    else .ret ((), s.setInode ip fun x => { x with copy := d, valid := true })

def ifree (s : State P) (ip : Slot) : State P :=
  (s.update ip fun d => { d with size := 0, type := .free }).setInode ip
    fun x => { x with valid := false }

/-- The inode that `ialloc` finds depends on what others free meanwhile. -/
def ialloc (s : State P) (ninodes inum : ℕ) (type : IType) : Outcome (ℕ × State P) :=
  if ∀ i < ninodes, 0 < i → (s.disk i).type ≠ .free then .panic "ialloc: no inodes"
  else if 0 < inum ∧ inum < ninodes ∧ (s.disk inum).type = .free then
    .ret (inum, { s with disk := Function.update s.disk inum ⟨type, 0, 0, 0, 0⟩ })
  else .hang

def dirlookup (s : State P) (dp : Slot) (name : Name) :
    Outcome (Option (Slot × ℕ) × State P) :=
  let x := s.inode dp
  let m := s.data x.inum
  if x.copy.type ≠ .dir then .panic "dirlookup not DIR"
  else (scan (fun de => de.inum ≠ 0 ∧ de.name = name) "dirlookup read" m x.copy.size
      x.copy.size 0).bind fun r =>
    match r with
    | some off => (s.iget (dirent m off).inum).bind fun r => .ret (some (r.1, off), r.2)
    | none => .ret (none, s)

def dirslot (s : State P) (dp : Slot) : Outcome (ℕ × State P) :=
  let x := s.inode dp
  (scan (fun de => de.inum = 0) "dirlink read" (s.data x.inum) x.copy.size x.copy.size 0).bind
    fun r => .ret (r.getD x.copy.size, s)

def isdirempty (s : State P) (ip : Slot) : Outcome (Bool × State P) :=
  let x := s.inode ip
  (scan (fun de => de.inum ≠ 0) "isdirempty: readi" (s.data x.inum) x.copy.size x.copy.size
    (2 * DIRENT)).bind fun r => .ret (r.isNone, s)

def readData (s : State P) (ip : Slot) (off n : ℕ) : Option (List UInt8) :=
  let x := s.inode ip
  if x.copy.size < off ∨ 2 ^ 32 ≤ off + n then none
  else some ((List.range (min n (x.copy.size - off))).map fun i => s.data x.inum (off + i))

def MAXFILESIZE : ℕ := (12 + BSIZE / 4) * BSIZE

def writeData (s : State P) (ip : Slot) (off : ℕ) (src : List UInt8) : ℤ × State P :=
  let x := s.inode ip
  let n := src.length
  if x.copy.size < off ∨ 2 ^ 32 ≤ off + n ∨ MAXFILESIZE < off + n then (-1, s)
  else
    let m := s.data x.inum
    let t : State P := { s with data := Function.update s.data x.inum fun a =>
      if off ≤ a then (src[a - off]?).getD (m a) else m a }
    (n, if 0 < n ∧ x.copy.size < off + n then t.update ip fun d => { d with size := off + n }
      else t)

def filealloc (s : State P) : Option FileId × State P :=
  match first fun f => (s.file f).ref = 0 with
  | some f => (some f, s.setFile f fun x => { x with ref := 1 })
  | none => (none, s)

def filedup (s : State P) (f : FileId) : Outcome (Unit × State P) :=
  if (s.file f).ref < 1 then .panic "filedup"
  else .ret ((), s.setFile f fun x => { x with ref := x.ref + 1 })

/-- `fileclose` under the lock. The answer is the file if this was its last reference. -/
def filedrop (s : State P) (f : FileId) : Outcome (Option File × State P) :=
  if (s.file f).ref < 1 then .panic "fileclose"
  else if 0 < (s.file f).ref - 1 then
    .ret (none, s.setFile f fun x => { x with ref := x.ref - 1 })
  else .ret (some (s.file f), s.setFile f fun x => { x with ref := 0, type := .none })

def fdalloc (s : State P) (p : P) (f : FileId) : Option Fd × State P :=
  match first fun fd => ((s.proc p).ofile fd).isNone with
  | some fd =>
    (some fd, s.setProc p fun x => { x with ofile := Function.update x.ofile fd (some f) })
  | none => (none, s)

/-- `kalloc` of the page for a pipe, any page that is not in use, or none. -/
def pipeKalloc (s : State P) (a : ℕ) : Outcome (Option ℕ × State P) :=
  if a = 0 then .ret (none, s)
  else if (s.pipe a).kallocs = (s.pipe a).kfrees then
    .ret (some a, s.setPipe a fun x =>
      { x with readopen := true, writeopen := true, kallocs := x.kallocs + 1 })
  else .hang

/-- `pipeclose` up to `kfree`. The answer says whether both ends are closed. -/
def pipeclose (s : State P) (a : ℕ) (writable : Bool) : Bool × State P :=
  let x := s.pipe a
  let x' := if writable then { x with writeopen := false } else { x with readopen := false }
  (!x'.readopen && !x'.writeopen, s.setPipe a fun _ => x')

end State

inductive Op (P : Type)
  | panic (message : String)
  | beginOp
  | endOp
  -- the inode cache
  | iget (inum : ℕ)
  | idup (ip : Slot)
  | refOf (ip : Slot)
  | holdingsleep (ip : Slot)
  | acquiresleep (ip : Slot)
  | releasesleep (ip : Slot)
  | load (ip : Slot)
  | lastRef (ip : Slot)
  | ifree (ip : Slot)
  | unref (ip : Slot)
  -- an inode whose lock is held
  | fields (ip : Slot)
  | inumOf (ip : Slot)
  | ialloc (type : IType)
  | setup (ip : Slot) (major minor : ℤ)
  | addLink (ip : Slot) (n : ℤ)
  | dirlookup (dp : Slot) (name : Name)
  | dirslot (dp : Slot)
  | isdirempty (ip : Slot)
  | readData (ip : Slot) (off n : ℕ)
  | writeData (ip : Slot) (off : ℕ) (src : List UInt8)
  | enterDir (dp : Slot)
  | leaveDir
  -- files and pipes
  | console (n : ℕ)
  | pipeio
  | filealloc
  | filedup (f : FileId)
  | filedrop (f : FileId)
  | file (f : FileId)
  | openInode (f : FileId) (ip : Slot) (readable writable : Bool)
  | openPipe (f : FileId) (a : ℕ) (writable : Bool)
  | addOff (f : FileId) (n : ℕ)
  | pipeKalloc
  | pipeclose (a : ℕ) (writable : Bool)
  | kfree (a : ℕ)
  -- processes
  | ofile (fd : Fd)
  | setOfile (fd : Fd) (f : Option FileId)
  | fdalloc (f : FileId)
  | cwd
  | setCwd (ip : Option Slot)
  | allocproc (c : P)
  | childFile (c : P) (fd : Fd) (f : FileId)
  | childCwd (c : P) (ip : Slot)
  | spawn (c : P)
  | die
  deriving DecidableEq

@[reducible] def Ans : Op P → Type
  | .panic _ => Empty
  | .iget _ => Slot
  | .refOf _ => ℕ
  | .holdingsleep _ | .lastRef _ | .isdirempty _ | .pipeclose _ _ | .allocproc _ => Bool
  | .fields _ => Dinode
  | .inumOf _ | .ialloc _ | .dirslot _ => ℕ
  | .dirlookup _ _ => Option (Slot × ℕ)
  | .readData _ _ _ => Option (List UInt8)
  | .writeData _ _ _ | .console _ | .pipeio => ℤ
  | .filealloc | .ofile _ => Option FileId
  | .filedrop _ => Option File
  | .file _ => File
  | .pipeKalloc => Option ℕ
  | .fdalloc _ => Option Fd
  | .cwd => Slot
  | _ => Unit

def NINODES : ℕ := 200

open State in
def exec (p : P) (n : ℕ) (o : Op P) (s : State P) : Outcome (Ans o × State P) :=
  match o with
  | .panic m => .panic m
  | .beginOp | .endOp => .ret ((), s)
  | .iget inum => s.iget inum
  | .idup ip => .ret ((), s.setInode ip fun x => { x with ref := x.ref + 1 })
  | .refOf ip => .ret ((s.inode ip).ref, s)
  | .holdingsleep ip => .ret ((s.inode ip).lock.isSome, s)
  | .acquiresleep ip =>
    if (s.inode ip).lock = none then
      .ret ((), s.setInode ip fun x => { x with lock := some p })
    else .hang
  | .releasesleep ip => .ret ((), s.setInode ip fun x => { x with lock := none })
  | .load ip => s.load ip
  | .lastRef ip =>
    let x := s.inode ip
    .ret (x.valid && decide (x.copy.nlink = 0) && decide (x.ref = 1), s)
  | .ifree ip => .ret ((), s.ifree ip)
  | .unref ip => .ret ((), s.setInode ip fun x => { x with ref := x.ref - 1 })
  | .fields ip => .ret ((s.inode ip).copy, s)
  | .inumOf ip => .ret ((s.inode ip).inum, s)
  | .ialloc type => s.ialloc NINODES n type
  | .setup ip major minor =>
    .ret ((), s.update ip fun d => { d with major := major, minor := minor, nlink := 1 })
  | .addLink ip k => .ret ((), s.update ip fun d => { d with nlink := d.nlink + k })
  | .dirlookup dp name => s.dirlookup dp name
  | .dirslot dp => s.dirslot dp
  | .isdirempty ip => s.isdirempty ip
  | .readData ip off k => .ret (s.readData ip off k, s)
  | .writeData ip off src => .ret (s.writeData ip off src)
  | .enterDir dp => .ret ((), { s with dir := Function.update s.dir p (some dp) })
  | .leaveDir => .ret ((), { s with dir := Function.update s.dir p none })
  | .console k => .ret (if n ≤ k then n else -1, s)
  | .pipeio => .ret ((n : ℤ) - 1, s)
  | .filealloc => .ret s.filealloc
  | .filedup f => s.filedup f
  | .filedrop f => s.filedrop f
  | .file f => .ret (s.file f, s)
  | .openInode f ip r w =>
    .ret ((), s.setFile f fun x =>
      { x with type := .inode, ip := ip, off := 0, readable := r, writable := w })
  | .openPipe f a w =>
    .ret ((), s.setFile f fun x =>
      { x with type := .pipe, readable := !w, writable := w, pipe := a })
  | .addOff f k => .ret ((), s.setFile f fun x => { x with off := (x.off + k) % 2 ^ 32 })
  | .pipeKalloc => s.pipeKalloc n
  | .pipeclose a w => .ret (s.pipeclose a w)
  | .kfree a => .ret ((), s.setPipe a fun x => { x with kfrees := x.kfrees + 1 })
  | .ofile fd => .ret ((s.proc p).ofile fd, s)
  | .setOfile fd f =>
    .ret ((), s.setProc p fun x => { x with ofile := Function.update x.ofile fd f })
  | .fdalloc f => .ret (s.fdalloc p f)
  | .cwd =>
    match (s.proc p).cwd with
    | some ip => .ret (ip, s)
    | none => .hang
  | .setCwd ip => .ret ((), s.setProc p fun x => { x with cwd := ip })
  | .allocproc c =>
    -- without a free slot, or without memory for `copyuvm`
    if n = 0 ∨ (s.proc c).state ≠ .unused then .ret (false, s)
    else .ret (true, s.setProc c fun x => { x with state := .embryo })
  | .childFile c fd f =>
    .ret ((), s.setProc c fun x => { x with ofile := Function.update x.ofile fd (some f) })
  | .childCwd c ip => .ret ((), s.setProc c fun x => { x with cwd := some ip })
  | .spawn c => .ret ((), s.setProc c fun x => { x with state := .live })
  | .die => .ret ((), s.setProc p fun x => { x with state := .unused })

end Xv6.Fs
