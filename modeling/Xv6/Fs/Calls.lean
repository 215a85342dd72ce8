import Xv6.Fs.Machine

/-!
# The file-system calls

`fs.c`, `file.c` and `sysfile.c` as threads over the operations of `Machine`, with `fork`
and `exit` of `proc.c` and what `exec` does to files. A path is the bytes of a string;
`none` stands for a string that `argstr` does not accept. A descriptor that `argfd` does
not accept is `none` too.

`enterDir` and `leaveDir` mark the calls that make or remove an entry.
-/

namespace Xv6.Fs
open Lib

section Paths

def slash : UInt8 := 47

def skipelem (path : List UInt8) : Option (Name × List UInt8) :=
  let path := path.dropWhile (· = slash)
  if path = [] then none
  else
    let s := path.takeWhile (· ≠ slash)
    some (s.take DIRSIZ, (path.drop s.length).dropWhile (· = slash))

def elemsFrom : ℕ → List UInt8 → List Name
  | 0, _ => []
  | fuel + 1, path =>
    match skipelem path with
    | some (name, path) => name :: elemsFrom fuel path
    | none => []

def elems (path : List UInt8) : List Name := elemsFrom path.length (path.takeWhile (· ≠ 0))

def absolute (path : List UInt8) : Bool := path.head? = some slash

end Paths

variable {P : Type}

abbrev Thread (P α : Type) := Code (Op P) Ans α

abbrev perform (o : Op P) : Thread P (Ans o) := Code.perform o

def panic {α : Type} (m : String) : Thread P α := .op (.panic m) Empty.elim

section Inodes

def ilock (ip : Slot) : Thread P Unit := do
  let r ← perform (.refOf ip)
  if r < 1 then panic "ilock"
  else do
    perform (.acquiresleep ip)
    perform (.load ip)

def iunlock (ip : Slot) : Thread P Unit := do
  let held ← perform (.holdingsleep ip)
  let r ← perform (.refOf ip)
  if held = false ∨ r < 1 then panic "iunlock"
  else perform (.releasesleep ip)

def iput (ip : Slot) : Thread P Unit := do
  perform (.acquiresleep ip)
  let last ← perform (.lastRef ip)
  Code.when last (perform (.ifree ip))
  perform (.releasesleep ip)
  perform (.unref ip)

def iunlockput (ip : Slot) : Thread P Unit := do
  iunlock ip
  iput ip

def ialloc (type : IType) : Thread P Slot := do
  let inum ← perform (.ialloc type)
  perform (.iget inum)

def CONSOLE : ℤ := 1

/-- `consoleread` and `consolewrite` give up the lock of the inode. -/
def device (ip : Slot) (io : Thread P ℤ) : Thread P ℤ := do
  iunlock ip
  let r ← io
  ilock ip
  return r

def readi (ip : Slot) (off n : ℕ) : Thread P ℤ := do
  let d ← perform (.fields ip)
  if d.type = .dev then
    if d.major ≠ CONSOLE then return -1
    else device ip (perform (.console n))
  else do
    let r ← perform (.readData ip off n)
    return (match r with | some bs => (bs.length : ℤ) | none => -1)

def writei (ip : Slot) (off : ℕ) (src : List UInt8) : Thread P ℤ := do
  let d ← perform (.fields ip)
  if d.type = .dev then
    if d.major ≠ CONSOLE then return -1
    else device ip (pure src.length)
  else perform (.writeData ip off src)

end Inodes

section Directories

def dirlink (dp : Slot) (name : Name) (inum : ℕ) : Thread P ℤ := do
  match ← perform (.dirlookup dp name) with
  | some (ip, _) => do
    iput ip
    return -1
  | none => do
    let off ← perform (.dirslot dp)
    let r ← writei dp off (Dirent.bytes ⟨inum, name⟩)
    if r ≠ DIRENT then panic "dirlink" else return 0

/-- `namex` from the inode `ip` on, with the elements that are left. -/
def namexFrom (nameiparent : Bool) : List Name → Slot → Thread P (Option (Slot × Name))
  | [], ip =>
    if nameiparent then do
      iput ip
      return none
    else return some (ip, [])
  | name :: path, ip => do
    ilock ip
    let d ← perform (.fields ip)
    if d.type ≠ .dir then do
      iunlockput ip
      return none
    else if nameiparent ∧ path = [] then do
      iunlock ip
      return some (ip, name)
    else
      match ← perform (.dirlookup ip name) with
      | none => do
        iunlockput ip
        return none
      | some (next, _) => do
        iunlockput ip
        namexFrom nameiparent path next

def namex (path : List UInt8) (nameiparent : Bool) : Thread P (Option (Slot × Name)) := do
  if absolute path then do
    let ip ← perform (.iget ROOTINO)
    namexFrom nameiparent (elems path) ip
  else do
    let ip ← perform .cwd
    perform (.idup ip)
    namexFrom nameiparent (elems path) ip

def namei (path : List UInt8) : Thread P (Option Slot) := do
  let r ← namex path false
  return r.map (·.1)

def nameiparent (path : List UInt8) : Thread P (Option (Slot × Name)) := namex path true

def createDots (dp ip : Slot) (dinum inum : ℕ) : Thread P Unit := do
  perform (.addLink dp 1)
  let r ← dirlink ip dot inum
  if r < 0 then panic "create dots"
  else do
    let r ← dirlink ip dotdot dinum
    if r < 0 then panic "create dots" else return ()

/-- The part of `create` that makes the inode, with `dp` locked. -/
def createIn (dp : Slot) (name : Name) (type : IType) (major minor : ℤ) : Thread P Slot := do
  let dinum ← perform (.inumOf dp)
  let ip ← ialloc type
  ilock ip
  perform (.setup ip major minor)
  let inum ← perform (.inumOf ip)
  Code.when (type = .dir) (createDots dp ip dinum inum)
  let r ← dirlink dp name inum
  if r < 0 then panic "create: dirlink"
  else do
    iunlockput dp
    return ip

def create (path : List UInt8) (type : IType) (major minor : ℤ) : Thread P (Option Slot) := do
  match ← nameiparent path with
  | none => return none
  | some (dp, name) => do
    perform (.enterDir dp)
    ilock dp
    match ← perform (.dirlookup dp name) with
    | some (ip, _) => do
      iunlockput dp
      perform .leaveDir
      ilock ip
      let d ← perform (.fields ip)
      if type = .file ∧ d.type = .file then return some ip
      else do
        iunlockput ip
        return none
    | none => do
      let ip ← createIn dp name type major minor
      perform .leaveDir
      return some ip

end Directories

section Files

def pipeclose (a : ℕ) (writable : Bool) : Thread P Unit := do
  let both ← perform (.pipeclose a writable)
  Code.when both (perform (.kfree a))

def fileclose (f : FileId) : Thread P Unit := do
  match ← perform (.filedrop f) with
  | none => return ()
  | some ff =>
    match ff.type with
    | .pipe => pipeclose ff.pipe ff.writable
    | .inode => do
      perform .beginOp
      iput ff.ip
      perform .endOp
    | .none => return ()

def filestat (f : FileId) : Thread P ℤ := do
  let x ← perform (.file f)
  if x.type = .inode then do
    ilock x.ip
    let _ ← perform (.fields x.ip)
    iunlock x.ip
    return 0
  else return -1

def fileread (f : FileId) (n : ℕ) : Thread P ℤ := do
  let x ← perform (.file f)
  if x.readable = false then return -1
  else
    match x.type with
    | .pipe => perform .pipeio
    | .inode => do
      ilock x.ip
      let y ← perform (.file f)
      let r ← readi x.ip y.off n
      Code.when (0 < r) (perform (.addOff f r.toNat))
      iunlock x.ip
      return r
    | .none => panic "fileread"

def MAXWRITE : ℕ := (LOGSIZE - 1 - 1 - 2) / 2 * 512

/-- The loop of `filewrite`, over the bytes that are left. -/
def filewriteFrom (f : FileId) (ip : Slot) : ℕ → List UInt8 → Thread P Bool
  | 0, _ => return true
  | fuel + 1, src =>
    if src = [] then return true
    else do
      let n1 := src.take MAXWRITE
      perform .beginOp
      ilock ip
      let y ← perform (.file f)
      let r ← writei ip y.off n1
      Code.when (0 < r) (perform (.addOff f r.toNat))
      iunlock ip
      perform .endOp
      if r < 0 then return false
      else if r ≠ n1.length then panic "short filewrite"
      else filewriteFrom f ip fuel (src.drop n1.length)

def filewrite (f : FileId) (src : List UInt8) : Thread P ℤ := do
  let x ← perform (.file f)
  if x.writable = false then return -1
  else
    match x.type with
    | .pipe => perform .pipeio
    | .inode => do
      let ok ← filewriteFrom f x.ip src.length src
      return if ok then (src.length : ℤ) else -1
    | .none => panic "filewrite"

def pipealloc : Thread P (Option (FileId × FileId)) := do
  match ← perform .filealloc with
  | none => return none
  | some f0 =>
    match ← perform .filealloc with
    | none => do
      fileclose f0
      return none
    | some f1 =>
      match ← perform .pipeKalloc with
      | none => do
        fileclose f0
        fileclose f1
        return none
      | some a => do
        perform (.openPipe f0 a false)
        perform (.openPipe f1 a true)
        return some (f0, f1)

end Files

section Calls

def argfd (fd : Option Fd) : Thread P (Option FileId) :=
  match fd with
  | some fd => perform (.ofile fd)
  | none => return none

def sysDup (fd : Option Fd) : Thread P ℤ := do
  match ← argfd fd with
  | none => return -1
  | some f =>
    match ← perform (.fdalloc f) with
    | none => return -1
    | some fd' => do
      perform (.filedup f)
      return fd'.val

def sysRead (fd : Option Fd) (n : ℕ) : Thread P ℤ := do
  match ← argfd fd with
  | none => return -1
  | some f => fileread f n

def sysWrite (fd : Option Fd) (src : List UInt8) : Thread P ℤ := do
  match ← argfd fd with
  | none => return -1
  | some f => filewrite f src

def sysClose (fd : Option Fd) : Thread P ℤ := do
  match fd with
  | none => return -1
  | some fd =>
    match ← perform (.ofile fd) with
    | none => return -1
    | some f => do
      perform (.setOfile fd none)
      fileclose f
      return 0

def sysFstat (fd : Option Fd) : Thread P ℤ := do
  match ← argfd fd with
  | none => return -1
  | some f => filestat f

def linkBad (ip : Slot) : Thread P ℤ := do
  ilock ip
  perform (.addLink ip (-1))
  iunlockput ip
  perform .endOp
  return -1

def sysLink (old new : List UInt8) : Thread P ℤ := do
  perform .beginOp
  match ← namei old with
  | none => do
    perform .endOp
    return -1
  | some ip => do
    ilock ip
    let d ← perform (.fields ip)
    if d.type = .dir then do
      iunlockput ip
      perform .endOp
      return -1
    else do
      perform (.addLink ip 1)
      iunlock ip
      match ← nameiparent new with
      | none => linkBad ip
      | some (dp, name) => do
        perform (.enterDir dp)
        ilock dp
        -- there is one device, so `dp->dev` is `ip->dev`
        let inum ← perform (.inumOf ip)
        let r ← dirlink dp name inum
        if r < 0 then do
          iunlockput dp
          perform .leaveDir
          linkBad ip
        else do
          iunlockput dp
          perform .leaveDir
          iput ip
          perform .endOp
          return 0

def unlinkBad (dp : Slot) : Thread P ℤ := do
  iunlockput dp
  perform .leaveDir
  perform .endOp
  return -1

def unlinkEntry (dp ip : Slot) (off : ℕ) (type : IType) : Thread P ℤ := do
  let r ← writei dp off (List.replicate DIRENT 0)
  if r ≠ DIRENT then panic "unlink: writei"
  else do
    Code.when (type = .dir) (perform (.addLink dp (-1)))
    iunlockput dp
    perform .leaveDir
    perform (.addLink ip (-1))
    iunlockput ip
    perform .endOp
    return 0

def sysUnlink (path : List UInt8) : Thread P ℤ := do
  perform .beginOp
  match ← nameiparent path with
  | none => do
    perform .endOp
    return -1
  | some (dp, name) => do
    perform (.enterDir dp)
    ilock dp
    if name = dot ∨ name = dotdot then unlinkBad dp
    else
      match ← perform (.dirlookup dp name) with
      | none => unlinkBad dp
      | some (ip, off) => do
        ilock ip
        let d ← perform (.fields ip)
        if d.nlink < 1 then panic "unlink: nlink < 1"
        else if d.type = .dir then do
          let empty ← perform (.isdirempty ip)
          if empty then unlinkEntry dp ip off d.type
          else do
            iunlockput ip
            unlinkBad dp
        else unlinkEntry dp ip off d.type

def O_WRONLY : ℕ := 1
def O_RDWR : ℕ := 2
def O_CREATE : ℕ := 0x200

def openFile (ip : Slot) (omode : ℕ) : Thread P ℤ := do
  match ← perform .filealloc with
  | none => do
    iunlockput ip
    perform .endOp
    return -1
  | some f =>
    match ← perform (.fdalloc f) with
    | none => do
      fileclose f
      iunlockput ip
      perform .endOp
      return -1
    | some fd => do
      iunlock ip
      perform .endOp
      perform (.openInode f ip (omode &&& O_WRONLY = 0)
        (omode &&& O_WRONLY ≠ 0 ∨ omode &&& O_RDWR ≠ 0))
      return fd.val

def sysOpen (path : List UInt8) (omode : ℕ) : Thread P ℤ := do
  perform .beginOp
  if omode &&& O_CREATE ≠ 0 then
    match ← create path .file 0 0 with
    | none => do
      perform .endOp
      return -1
    | some ip => openFile ip omode
  else
    match ← namei path with
    | none => do
      perform .endOp
      return -1
    | some ip => do
      ilock ip
      let d ← perform (.fields ip)
      if d.type = .dir ∧ omode ≠ 0 then do
        iunlockput ip
        perform .endOp
        return -1
      else openFile ip omode

def sysMake (path : Option (List UInt8)) (type : IType) (major minor : ℤ) : Thread P ℤ := do
  perform .beginOp
  match path with
  | none => do
    perform .endOp
    return -1
  | some path =>
    match ← create path type major minor with
    | none => do
      perform .endOp
      return -1
    | some ip => do
      iunlockput ip
      perform .endOp
      return 0

def sysMkdir (path : Option (List UInt8)) : Thread P ℤ := sysMake path .dir 0 0

def sysMknod (path : Option (List UInt8)) (major minor : ℤ) : Thread P ℤ :=
  sysMake path .dev major minor

def sysChdir (path : Option (List UInt8)) : Thread P ℤ := do
  perform .beginOp
  match path with
  | none => do
    perform .endOp
    return -1
  | some path =>
    match ← namei path with
    | none => do
      perform .endOp
      return -1
    | some ip => do
      ilock ip
      let d ← perform (.fields ip)
      if d.type ≠ .dir then do
        iunlockput ip
        perform .endOp
        return -1
      else do
        iunlock ip
        let c ← perform .cwd
        iput c
        perform .endOp
        perform (.setCwd (some ip))
        return 0

/-- Reads of `exec`: the ELF header, program headers and segments. -/
def readAll (ip : Slot) : List (ℕ × ℕ) → Thread P Unit
  | [] => return ()
  | (off, n) :: rs => do
    let _ ← readi ip off n
    readAll ip rs

/-- `exec` up to the end of its transaction; both the way on and `bad` come there after
some of the reads. -/
def sysExec (path : List UInt8) (reads : List (ℕ × ℕ)) : Thread P ℤ := do
  perform .beginOp
  match ← namei path with
  | none => do
    perform .endOp
    return -1
  | some ip => do
    ilock ip
    readAll ip reads
    iunlockput ip
    perform .endOp
    return 0

def sysPipe : Thread P ℤ := do
  match ← pipealloc with
  | none => return -1
  | some (rf, wf) =>
    match ← perform (.fdalloc rf) with
    | none => do
      fileclose rf
      fileclose wf
      return -1
    | some fd0 =>
      match ← perform (.fdalloc wf) with
      | none => do
        perform (.setOfile fd0 none)
        fileclose rf
        fileclose wf
        return -1
      | some _ => return 0

def dupFiles (c : P) : List Fd → Thread P Unit
  | [] => return ()
  | fd :: fds => do
    match ← perform (.ofile fd) with
    | some f => do
      perform (.filedup f)
      perform (.childFile c fd f)
      dupFiles c fds
    | none => dupFiles c fds

/-- `fork`, with `c` for the slot that `allocproc` finds. -/
def fork (c : P) : Thread P ℤ := do
  let ok ← perform (.allocproc c)
  if ok then do
    dupFiles c (List.finRange NOFILE)
    let ip ← perform .cwd
    perform (.idup ip)
    perform (.childCwd c ip)
    perform (.spawn c)
    return 0
  else return -1

def closeFiles : List Fd → Thread P Unit
  | [] => return ()
  | fd :: fds => do
    match ← perform (.ofile fd) with
    | some f => do
      fileclose f
      perform (.setOfile fd none)
      closeFiles fds
    | none => closeFiles fds

/-- `exit`, together with the `wait` that frees the slot. -/
def exit : Thread P Unit := do
  closeFiles (List.finRange NOFILE)
  perform .beginOp
  let c ← perform .cwd
  iput c
  perform .endOp
  perform (.setCwd none)
  perform .die

end Calls

inductive Call (P : Type)
  | open (path : Option (List UInt8)) (omode : ℕ)
  | mkdir (path : Option (List UInt8))
  | mknod (path : Option (List UInt8)) (major minor : ℤ)
  | link (old new : Option (List UInt8))
  | unlink (path : Option (List UInt8))
  | chdir (path : Option (List UInt8))
  | exec (path : List UInt8) (reads : List (ℕ × ℕ))
  | read (fd : Option Fd) (n : ℕ)
  | write (fd : Option Fd) (src : List UInt8)
  | fstat (fd : Option Fd)
  | close (fd : Option Fd)
  | dup (fd : Option Fd)
  | pipe
  | fork (c : P)
  | exit

def Call.code : Call P → Thread P ℤ
  | .open (some path) omode => sysOpen path omode
  | .link (some old) (some new) => sysLink old new
  | .unlink (some path) => sysUnlink path
  | .open none _ | .link _ _ | .unlink none => return -1
  | .mkdir path => sysMkdir path
  | .mknod path major minor => sysMknod path major minor
  | .chdir path => sysChdir path
  | .exec path reads => sysExec path reads
  | .read fd n => sysRead fd n
  | .write fd src => sysWrite fd src
  | .fstat fd => sysFstat fd
  | .close fd => sysClose fd
  | .dup fd => sysDup fd
  | .pipe => sysPipe
  | .fork c => Fs.fork c
  | .exit => do
    Fs.exit
    return 0

def machine (P : Type) [DecidableEq P] : Machine P (State P) (Call P) (Op P) Ans where
  exec := Fs.exec
  enabled s p _ := (s.proc p).state = .live
  entry c := do let _ ← c.code

end Xv6.Fs
