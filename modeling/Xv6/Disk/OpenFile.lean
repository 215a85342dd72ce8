import Xv6.Disk.Mounted
import Xv6.Lib.Thread

/-!
# Reads and writes through a `struct file`

`fileread` and `filewrite` for a file on the disk. What they do with the inode locked is one
operation. `filewrite` cuts a long write into chunks, one operation each: alone it does what one
`writei` of all the bytes does.

The callers of one `struct file` share its offset. `moves` and `calls` are not part of the
source: they tell what the callers have done.
-/

namespace Xv6.Disk
open Lib

structure Move (P : Type) where
  caller : P
  off : ℕ
  bytes : List UInt8
  write : Bool
  deriving DecidableEq

/-- A call of `filewrite`: the bytes it was given, those it has written, what it returned. -/
structure Attempt where
  src : List UInt8
  sent : List UInt8
  result : Option (Option ℕ)

structure OpenFile (P : Type) where
  disk : Sectors
  off : ℕ
  moves : List (Move P)
  calls : P → List Attempt

inductive FileOp
  | enter (src : List UInt8)
  | write (src : List UInt8)
  | read (n : ℕ)
  | leave (r : Option ℕ)
  | panic (message : String)

@[reducible] def FileOp.Ans : FileOp → Type
  | .enter _ => Unit
  | .write _ => Option ℕ
  | .read _ => Option (List UInt8)
  | .leave _ => Unit
  | .panic _ => Empty

abbrev FileCode := Code FileOp FileOp.Ans

def chunkMax : ℕ := (LOGSIZE - 1 - 1 - 2) / 2 * 512

def chunkLen (n : ℕ) : ℕ := if chunkMax < n then chunkMax else n

/-- The loop of `filewrite`: are the bytes written? -/
def writeChunks : ℕ → List UInt8 → FileCode Bool
  | 0, src => pure src.isEmpty
  | fuel + 1, src =>
    if src = [] then pure true
    else do
      let n1 := chunkLen src.length
      let r ← Code.perform (FileOp.write (src.take n1))
      match r with
      | none => pure false
      | some r =>
        if r ≠ n1 then do
          let e ← Code.perform (FileOp.panic "short filewrite")
          nomatch e
        else writeChunks fuel (src.drop n1)

def filewrite (writable : Bool) (src : List UInt8) : FileCode (Option ℕ) :=
  if writable = false then pure none
  else do
    let done ← writeChunks src.length src
    pure (if done then some src.length else none)

def fileread (readable : Bool) (n : ℕ) : FileCode (Option (List UInt8)) :=
  if readable = false then pure none else Code.perform (FileOp.read n)

section Operations

variable {P : Type} [DecidableEq P] (sb : Superblock) (devread : ℕ → Option (ℕ → List UInt8))
  (devwrite : ℕ → Option (List UInt8 → ℕ)) (inum : ℕ)

def OpenFile.wrote (f : OpenFile P) (p : P) (src : List UInt8) (r : ℕ) (d : Sectors) :
    OpenFile P :=
  if 0 < r then
    { disk := d
      off := (f.off + r) % 2 ^ 32
      moves := f.moves ++ [⟨p, f.off, src.take r, true⟩]
      calls := Function.update f.calls p
        ((f.calls p).modifyLast fun c => { c with sent := c.sent ++ src.take r }) }
  else { f with disk := d }

def OpenFile.got (f : OpenFile P) (p : P) (bytes : List UInt8) (d : Sectors) : OpenFile P :=
  if 0 < bytes.length then
    { f with
      disk := d
      off := (f.off + bytes.length) % 2 ^ 32
      moves := f.moves ++ [⟨p, f.off, bytes, false⟩] }
  else { f with disk := d }

end Operations

/-- A regular file that is open at an offset inside it. -/
structure Regular {P : Type} (sb : Superblock) (inum : ℕ) (f : OpenFile P) : Prop where
  inv : BlockInv sb f.disk
  lt : inum < sb.ninodes
  type : (inodeOf sb f.disk inum).type = T_FILE
  off : f.off ≤ (inodeOf sb f.disk inum).size

/-- There is room for `n` bytes at `off`, in the file and on the disk. -/
def Fits (sb : Superblock) (inum : ℕ) (d : Sectors) (off n : ℕ) : Prop :=
  off + n ≤ MAXFILE * BSIZE ∧
    missing (block d (inodeOf sb d inum)) (slots off n) ≤ (freeBlocks sb d).card

section Step

variable {P : Type} {sb : Superblock} {inum n : ℕ} {f : OpenFile P} {p : P}
  {devread : ℕ → Option (ℕ → List UInt8)} {devwrite : ℕ → Option (List UInt8 → ℕ)}
  {src : List UInt8} {d d' : Sectors} {off : ℕ}

namespace Regular

variable (h : Regular sb inum f)
include h

theorem live : (inodeOf sb f.disk inum).type ≠ 0 := by
  rw [h.type]
  decide

theorem off_le : f.off ≤ MAXFILE * BSIZE := h.off.trans (h.inv.size_le h.lt h.live)

end Regular

theorem Fits.left {m : ℕ} (h : Fits sb inum d off (m + n)) : Fits sb inum d off m := by
  refine ⟨by have := h.1; omega, (missing_mono ?_).trans h.2⟩
  rw [slots_add]
  exact Finset.subset_union_left

variable [DecidableEq P]

theorem OpenFile.wrote_all (hsrc : src ≠ []) (hoff : f.off + src.length < 2 ^ 32) :
    f.wrote p src src.length d = ⟨d, f.off + src.length, f.moves ++ [⟨p, f.off, src, true⟩],
      Function.update f.calls p
        ((f.calls p).modifyLast fun c => { c with sent := c.sent ++ src })⟩ := by
  rw [wrote, if_pos (List.length_pos_iff.2 hsrc), Nat.mod_eq_of_lt hoff, List.take_length]

theorem Regular.wrote (h : Regular sb inum f) (hsrc : src ≠ [])
    (hfits : Fits sb inum f.disk f.off src.length) (hw : Written sb inum f.disk f.off src d) :
    Regular sb inum (f.wrote p src src.length d) := by
  have hM : MAXFILE * BSIZE = 71680 := rfl
  have hend := hfits.1
  rw [OpenFile.wrote_all hsrc (by omega)]
  refine ⟨hw.inv, h.lt, ?_, ?_⟩
  · change (inodeOf sb d inum).type = T_FILE
    rw [hw.fields]
    exact h.type
  · change f.off + src.length ≤ (inodeOf sb d inum).size
    rw [hw.fields]
    exact Nat.le_max_right _ _

variable (devread devwrite p)

end Step

end Xv6.Disk
