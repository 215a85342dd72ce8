import Xv6.Disk.Format

/-!
# Where the blocks of a file are

A file has its blocks in slots: those of its inode, and those of its indirect block.
-/

namespace Xv6.Disk
open Lib

inductive Slot
  | data (j : ℕ)
  | ind
  deriving DecidableEq

namespace Slot

def Valid : Slot → Prop
  | .data j => j < MAXFILE
  | .ind => True

def Below (k : ℕ) : Slot → Prop
  | .data j => j < k
  | .ind => NDIRECT < k

end Slot

def addr (d : Sectors) (ip : Dinode) : Slot → ℕ
  | .ind => ip.addrs NDIRECT
  | .data j =>
    if j < NDIRECT then ip.addrs j
    else if ip.addrs NDIRECT = 0 then 0
    else (d (ip.addrs NDIRECT)).read32 (4 * (j - NDIRECT))

def inodeOf (sb : Superblock) (d : Sectors) (inum : ℕ) : Dinode :=
  Dinode.decode (d (inum / IPB + sb.inodestart)) (dinodeSize * (inum % IPB))

end Xv6.Disk
