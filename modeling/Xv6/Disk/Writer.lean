import Xv6.Disk.Reader

/-!
# How the kernel writes the disk

`writei` and what it calls, and the calls that change a directory. As in `Disk.Reader`, an inode
in memory is a value: a call that changes it returns it.
-/

namespace Xv6.Disk
open Lib

section Files

variable (sb : Superblock) (devsw : ℕ → Option (List UInt8 → ℕ))

def iupdate (inum : ℕ) (ip : Dinode) : K Unit :=
  .modify fun d => Function.update d (inum / IPB + sb.inodestart)
    (ip.encode (d (inum / IPB + sb.inodestart)) (dinodeSize * (inum % IPB)))

def writeLoop : ℕ → Dinode → ℕ → List UInt8 → K Dinode
  | 0, ip, _, _ => return ip
  | fuel + 1, ip, off, src =>
    if src = [] then return ip
    else do
      let (ip, b) ← bmap sb ip (off / BSIZE)
      let m := min src.length (BSIZE - off % BSIZE)
      .modify fun d => Function.update d b ((d b).copy (off % BSIZE) (src.take m))
      writeLoop fuel ip (off + m) (src.drop m)

def writei (inum : ℕ) (ip : Dinode) (src : List UInt8) (off : ℕ) : K (Dinode × Option ℕ) :=
  let n := src.length
  if ip.type = T_DEV then
    if 2 ^ 15 ≤ ip.major ∨ NDEV ≤ ip.major then return (ip, none)
    else return (ip, (devsw ip.major).map fun write => write src)
  else if ip.size < off ∨ (off + n) % 2 ^ 32 < off then return (ip, none)
  else if MAXFILE * BSIZE < (off + n) % 2 ^ 32 then return (ip, none)
  else do
    let ip ← writeLoop sb n ip off src
    if 0 < n ∧ ip.size < off + n then do
      let ip := { ip with size := off + n }
      iupdate sb inum ip
      return (ip, some n)
    else return (ip, some n)

end Files

section Directories

variable (sb : Superblock) (devread : ℕ → Option (ℕ → List UInt8))
  (devwrite : ℕ → Option (List UInt8 → ℕ))

def emptyLoop : ℕ → Dinode → ℕ → K (Dinode × ℕ)
  | 0, _, _ => .hang
  | fuel + 1, dp, off =>
    if off < dp.size then do
      let (dp, de) ← readi sb devread dp off direntSize
      let de := de.getD []
      if de.length ≠ direntSize then .panic "dirlink read"
      else if (de.getD 0 0).toNat + 256 * (de.getD 1 0).toNat = 0 then return (dp, off)
      else emptyLoop fuel dp (off + direntSize)
    else return (dp, off)

/-- `strncpy` stops at the first NUL and fills up with NULs. -/
def dirlink (dnum : ℕ) (dp : Dinode) (name : List UInt8) (inum : ℕ) : K (Dinode × ℤ) := do
  let (dp, found) ← dirlookup sb devread dp name
  match found with
  | some _ => return (dp, -1)
  | none => do
    let (dp, off) ← emptyLoop sb devread (dp.size + 1) dp 0
    let de := direntBytes inum (name.takeWhile (· ≠ 0))
    let (dp, r) ← writei sb devwrite dnum dp de off
    if r ≠ some direntSize then .panic "dirlink" else return (dp, 0)

/-- What `sys_unlink` does with an entry that `dirlookup` has found. -/
def unlinkEntry (dnum : ℕ) (dp : Dinode) (off : ℕ) : K Dinode := do
  let (dp, r) ← writei sb devwrite dnum dp (List.replicate direntSize 0) off
  if r ≠ some direntSize then .panic "unlink: writei" else return dp

end Directories

end Xv6.Disk
