import Xv6.Disk.Format
import Xv6.Lib.Outcome

/-!
# How the kernel reads the disk

The part of `fs.c` that finds and reads files, for one call in a transaction of its own: the
caller sees the blocks it has written. An inode in memory is the copy of the one on disk that
`ilock` makes. `iput` of an inode with links changes nothing on disk and is left out.

`bmap` gives a file a block where it has none, also when the file is only read.
-/

namespace Xv6.Disk
open Lib

abbrev K := Prog Sectors

def readsb : K Superblock := .read fun d => Superblock.decode (d 1)

section Blocks

variable (sb : Superblock)

def BBLOCK (b : ℕ) : ℕ := b / BPB + sb.bmapstart

def bitMask (b : ℕ) : UInt8 := 1 <<< UInt8.ofNat (b % BPB % 8)

def isFree (d : Sectors) (b : ℕ) : Bool := d (BBLOCK sb b) (b % BPB / 8) &&& bitMask b = 0

def mark (d : Sectors) (b : ℕ) : Sectors :=
  let bp := d (BBLOCK sb b)
  let i := b % BPB / 8
  Function.update
    (Function.update d (BBLOCK sb b) (Function.update bp i (bp i ||| bitMask b))) b Bytes.zero

/-- The two loops of the source go through the blocks in order. -/
def balloc : K ℕ := fun d =>
  match (List.range sb.size).find? (isFree sb d) with
  | some b => .ret (b, mark sb d b)
  | none => .panic "balloc: out of blocks"

def bmap (ip : Dinode) (bn : ℕ) : K (Dinode × ℕ) :=
  if bn < NDIRECT then
    if ip.addrs bn = 0 then do
      let addr ← balloc sb
      return ({ ip with addrs := Function.update ip.addrs bn addr }, addr)
    else return (ip, ip.addrs bn)
  else if bn - NDIRECT < NINDIRECT then do
    let ip ← (if ip.addrs NDIRECT = 0 then do
        let addr ← balloc sb
        pure { ip with addrs := Function.update ip.addrs NDIRECT addr }
      else pure ip)
    let a ← .read fun d => d (ip.addrs NDIRECT)
    if a.read32 (4 * (bn - NDIRECT)) = 0 then do
      let addr ← balloc sb
      .modify fun d => Function.update d (ip.addrs NDIRECT) (a.write32 (4 * (bn - NDIRECT)) addr)
      return (ip, addr)
    else return (ip, a.read32 (4 * (bn - NDIRECT)))
  else .panic "bmap: out of range"

end Blocks

section Files

variable (sb : Superblock) (devsw : ℕ → Option (ℕ → List UInt8))

/-- The loop of `readi`: what `n` bytes from `off` on are. -/
def readLoop : ℕ → Dinode → ℕ → ℕ → K (Dinode × List UInt8)
  | 0, ip, _, _ => return (ip, [])
  | fuel + 1, ip, off, n =>
    if n = 0 then return (ip, [])
    else do
      let (ip, b) ← bmap sb ip (off / BSIZE)
      let bp ← .read fun d => d b
      let m := min n (BSIZE - off % BSIZE)
      let (ip, rest) ← readLoop fuel ip (off + m) (n - m)
      return (ip, bp.slice (off % BSIZE) m ++ rest)

def readi (ip : Dinode) (off n : ℕ) : K (Dinode × Option (List UInt8)) :=
  if ip.type = T_DEV then
    -- `major` is a `short`
    if 2 ^ 15 ≤ ip.major ∨ NDEV ≤ ip.major then return (ip, none)
    else return (ip, (devsw ip.major).map fun read => read n)
  else if ip.size < off ∨ (off + n) % 2 ^ 32 < off then return (ip, none)
  else do
    let n := if ip.size < off + n then ip.size - off else n
    let (ip, bytes) ← readLoop sb n ip off n
    return (ip, some bytes)

def ilock (inum : ℕ) : K Dinode := do
  let ip ← .read fun d => Dinode.decode (d (inum / IPB + sb.inodestart)) (dinodeSize * (inum % IPB))
  if ip.type = 0 then .panic "ilock: no type" else return ip

end Files

section Names

/-- On strings with a NUL behind their bytes. -/
def strncmp : ℕ → List UInt8 → List UInt8 → ℤ
  | 0, _, _ => 0
  | n + 1, p, q =>
    if p.headD 0 ≠ 0 ∧ p.headD 0 = q.headD 0 then strncmp n p.tail q.tail
    else (p.headD 0).toNat - (q.headD 0).toNat

def namecmp (s t : List UInt8) : ℤ := strncmp DIRSIZ s t

variable (sb : Superblock) (devsw : ℕ → Option (ℕ → List UInt8))

/-- The loop of `dirlookup`: the number and the offset of the entry. -/
def lookupLoop (name : List UInt8) : ℕ → Dinode → ℕ → K (Dinode × Option (ℕ × ℕ))
  | 0, _, _ => .hang
  | fuel + 1, dp, off =>
    if off < dp.size then do
      let (dp, de) ← readi sb devsw dp off direntSize
      let de := de.getD []
      if de.length ≠ direntSize then .panic "dirlookup read"
      else
        let inum := (de.getD 0 0).toNat + 256 * (de.getD 1 0).toNat
        if inum ≠ 0 ∧ namecmp name (de.drop 2) = 0 then return (dp, some (inum, off))
        else lookupLoop name fuel dp (off + direntSize)
    else return (dp, none)

def dirlookup (dp : Dinode) (name : List UInt8) : K (Dinode × Option (ℕ × ℕ)) :=
  if dp.type ≠ T_DIR then .panic "dirlookup not DIR"
  else lookupLoop sb devsw name (dp.size + 1) dp 0

def slash : UInt8 := 47

def skipelem (path : List UInt8) : Option (List UInt8 × List UInt8) :=
  let path := path.dropWhile (· = slash)
  if path = [] then none
  else some ((path.takeWhile (· ≠ slash)).take DIRSIZ,
    (path.dropWhile (· ≠ slash)).dropWhile (· = slash))

def namexLoop : ℕ → ℕ → List UInt8 → K (Option ℕ)
  | 0, _, _ => .hang
  | fuel + 1, inum, path =>
    match skipelem path with
    | none => return some inum
    | some (name, path) => do
      let ip ← ilock sb inum
      if ip.type ≠ T_DIR then return none
      else do
        let (_, next) ← dirlookup sb devsw ip name
        match next with
        | none => return none
        | some (inum, _) => namexLoop fuel inum path

/-- The inode that a path names, from the current directory when it is not absolute. -/
def namei (cwd : ℕ) (path : List UInt8) : K (Option ℕ) :=
  namexLoop sb devsw (path.length + 1) (if path.head? = some slash then ROOTINO else cwd) path

end Names

end Xv6.Disk
