import Xv6.Disk.Format
import Xv6.Lib.Outcome

/-!
# mkfs

The program that makes the image of a file system out of some files. A failing assertion, seek
or read ends it. What it reads of each input file comes in the chunks that `read` answers.

A field that goes through `xint` or `xshort` is in the byte order of the kernel's machine, so
the numbers here are those that the kernel reads.
-/

namespace Xv6.Mkfs
open Lib Disk

def NINODES : ℕ := 200
def nbitmap : ℕ := FSSIZE / (BSIZE * 8) + 1
def ninodeblocks : ℕ := NINODES / IPB + 1
def nlog : ℕ := LOGSIZE
def nmeta : ℕ := 2 + nlog + ninodeblocks + nbitmap
def nblocks : ℕ := FSSIZE - nmeta

def sb : Superblock :=
  ⟨FSSIZE, nblocks, NINODES, nlog, 2, 2 + nlog, 2 + nlog + ninodeblocks⟩

/-- The image, its length in sectors, and the variables of `mkfs.c`. -/
structure St where
  disk : Sectors
  sectors : ℕ
  freeinode : ℕ
  freeblock : ℕ

abbrev M := Prog St

def assert (c : Prop) [Decidable c] : M Unit := if c then pure () else .panic "assert"

/-- A write behind the end makes the image longer. -/
def wsect (sec : ℕ) (buf : Bytes) : M Unit :=
  .modify fun s => { s with
    disk := Function.update s.disk sec buf, sectors := max s.sectors (sec + 1) }

/-- There is nothing to read behind the end. -/
def rsect (sec : ℕ) : M Bytes := fun s =>
  if sec < s.sectors then .ret (s.disk sec, s) else .panic "read"

def IBLOCK (inum : ℕ) : ℕ := inum / IPB + sb.inodestart

def winode (inum : ℕ) (ip : Dinode) : M Unit := do
  let buf ← rsect (IBLOCK inum)
  wsect (IBLOCK inum) (ip.encode buf (dinodeSize * (inum % IPB)))

def rinode (inum : ℕ) : M Dinode := do
  let buf ← rsect (IBLOCK inum)
  return Dinode.decode buf (dinodeSize * (inum % IPB))

def ialloc (type : ℕ) : M ℕ := do
  let inum ← .read (·.freeinode)
  .modify fun s => { s with freeinode := s.freeinode + 1 }
  winode inum { Dinode.zero with type := type, nlink := 1 }
  return inum

def nextBlock : M ℕ := do
  let b ← .read (·.freeblock)
  .modify fun s => { s with freeblock := s.freeblock + 1 }
  return b

def bitmap (used : ℕ) : Bytes :=
  (List.range used).foldl
    (fun buf i => Function.update buf (i / 8) (buf (i / 8) ||| 1 <<< UInt8.ofNat (i % 8)))
    Bytes.zero

def balloc (used : ℕ) : M Unit := do
  assert (used < BSIZE * 8)
  wsect sb.bmapstart (bitmap used)

def setAddr (din : Dinode) (k b : ℕ) : Dinode :=
  { din with addrs := Function.update din.addrs k b }

/-- `if(xint(din.addrs[k]) == 0) din.addrs[k] = xint(freeblock++)` -/
def ensure (din : Dinode) (k : ℕ) : M Dinode :=
  if din.addrs k = 0 then do
    let b ← nextBlock
    return setAddr din k b
  else return din

/-- The block of a file with an index, which it gets when it has none: the inode then, and the
block. -/
def getBlock (din : Dinode) (fbn : ℕ) : M (Dinode × ℕ) :=
  if fbn < NDIRECT then do
    let din ← ensure din fbn
    return (din, din.addrs fbn)
  else do
    let din ← ensure din NDIRECT
    let indirect ← rsect (din.addrs NDIRECT)
    if indirect.read32 (4 * (fbn - NDIRECT)) = 0 then do
      let b ← nextBlock
      let indirect := indirect.write32 (4 * (fbn - NDIRECT)) b
      wsect (din.addrs NDIRECT) indirect
      return (din, indirect.read32 (4 * (fbn - NDIRECT)))
    else return (din, indirect.read32 (4 * (fbn - NDIRECT)))

/-- The loop of `iappend`, with what is left to append. -/
def append : ℕ → Dinode → ℕ → List UInt8 → M (Dinode × ℕ)
  | 0, din, off, _ => return (din, off)
  | fuel + 1, din, off, p =>
    if p.length = 0 then return (din, off)
    else do
      let fbn := off / BSIZE
      assert (fbn < MAXFILE)
      let (din, x) ← getBlock din fbn
      let n1 := min p.length ((fbn + 1) * BSIZE - off)
      let buf ← rsect x
      wsect x (buf.copy (off - fbn * BSIZE) (p.take n1))
      append fuel din (off + n1) (p.drop n1)

def iappend (inum : ℕ) (p : List UInt8) : M Unit := do
  let din ← rinode inum
  let (din, off) ← append p.length din din.size p
  winode inum { din with size := off }

/-- An argument of `mkfs` and what `read` answers for the file until its end. -/
structure Input where
  arg : List UInt8
  chunks : List (List UInt8)
  nul : 0 ∉ arg
  read : ∀ c ∈ chunks, 0 < c.length ∧ c.length ≤ BSIZE

def slash : UInt8 := 47
def underscore : UInt8 := 95
def dot : UInt8 := 46

def Input.name (f : Input) : List UInt8 :=
  if f.arg.head? = some underscore then f.arg.tail else f.arg

def Input.bytes (f : Input) : List UInt8 := f.chunks.flatten

def appendChunks (inum : ℕ) : List (List UInt8) → M Unit
  | [] => return ()
  | c :: cs => do
    iappend inum c
    appendChunks inum cs

def addFile (rootino : ℕ) (f : Input) : M Unit := do
  assert (slash ∉ f.arg)
  let inum ← ialloc T_FILE
  iappend rootino (direntBytes inum f.name)
  appendChunks inum f.chunks

def addFiles (rootino : ℕ) : List Input → M Unit
  | [] => return ()
  | f :: fs => do
    addFile rootino f
    addFiles rootino fs

def wipe : ℕ → M Unit
  | 0 => return ()
  | n + 1 => do
    wipe n
    wsect n Bytes.zero

/-- The second half of `main`: the root directory, the files and the bitmap. -/
def populate (files : List Input) : M Unit := do
  let rootino ← ialloc T_DIR
  assert (rootino = ROOTINO)
  iappend rootino (direntBytes rootino [dot])
  iappend rootino (direntBytes rootino [dot, dot])
  addFiles rootino files
  -- fix size of root inode dir
  let din ← rinode rootino
  winode rootino { din with size := (din.size / BSIZE + 1) * BSIZE }
  let freeblock ← .read (·.freeblock)
  balloc freeblock

def main (files : List Input) : M Unit := do
  .modify fun s => { s with freeblock := nmeta }
  wipe FSSIZE
  wsect 1 (sb.encode Bytes.zero)
  populate files

def start : St := ⟨fun _ => Bytes.zero, 0, 1, 0⟩

def mkfs (files : List Input) : Outcome St :=
  match main files start with
  | .ret (_, s) => .ret s
  | .panic m => .panic m
  | .hang => .hang

end Xv6.Mkfs
