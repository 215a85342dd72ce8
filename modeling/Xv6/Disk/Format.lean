import Mathlib.Data.List.GetD
import Xv6.Lib.Bytes
import Xv6.Param

/-!
# The format of the disk

`fs.h`: the super block, the inodes and the directory entries as they are laid out in blocks.
`mkfs` and the kernel are both compiled with it.
-/

namespace Xv6.Disk
open Lib

def NDIRECT : ℕ := 12
def NINDIRECT : ℕ := BSIZE / 4
def MAXFILE : ℕ := NDIRECT + NINDIRECT
def dinodeSize : ℕ := 64
def IPB : ℕ := BSIZE / dinodeSize
def BPB : ℕ := BSIZE * 8
def direntSize : ℕ := 16

def T_DIR : ℕ := 1
def T_FILE : ℕ := 2
def T_DEV : ℕ := 3

abbrev Sectors := ℕ → Bytes

@[ext]
structure Superblock where
  size : ℕ
  nblocks : ℕ
  ninodes : ℕ
  nlog : ℕ
  logstart : ℕ
  inodestart : ℕ
  bmapstart : ℕ
  deriving DecidableEq

namespace Superblock

def fields (sb : Superblock) : List ℕ :=
  [sb.size, sb.nblocks, sb.ninodes, sb.nlog, sb.logstart, sb.inodestart, sb.bmapstart]

def encode (sb : Superblock) (b : Bytes) : Bytes := b.writeWords 0 7 fun i => sb.fields.getD i 0

def decode (b : Bytes) : Superblock :=
  ⟨b.read32 0, b.read32 4, b.read32 8, b.read32 12, b.read32 16, b.read32 20, b.read32 24⟩

theorem decode_encode {sb : Superblock} (h : ∀ v ∈ sb.fields, v < 2 ^ 32) (b : Bytes) :
    decode (sb.encode b) = sb := by
  have hread : ∀ i < 7, (sb.encode b).read32 (4 * i) = sb.fields.getD i 0 := by
    intro i hi
    have := Bytes.read32_writeWords b (o := 0) (fun i => sb.fields.getD i 0) hi
    rw [Nat.zero_add] at this
    refine this.trans (Nat.mod_eq_of_lt (h _ ?_))
    rw [List.getD_eq_getElem _ _ (by simpa [fields] using hi)]
    exact List.getElem_mem _
  have h0 := hread 0 (by decide)
  have h1 := hread 1 (by decide)
  have h2 := hread 2 (by decide)
  have h3 := hread 3 (by decide)
  have h4 := hread 4 (by decide)
  have h5 := hread 5 (by decide)
  have h6 := hread 6 (by decide)
  simp only [fields] at h0 h1 h2 h3 h4 h5 h6
  simp only [decode]
  exact Superblock.ext h0 h1 h2 h3 h4 h5 h6

end Superblock

structure Dinode where
  type : ℕ
  major : ℕ
  minor : ℕ
  nlink : ℕ
  size : ℕ
  addrs : ℕ → ℕ

namespace Dinode

def zero : Dinode := ⟨0, 0, 0, 0, 0, fun _ => 0⟩

def decode (b : Bytes) (o : ℕ) : Dinode :=
  ⟨b.read16 o, b.read16 (o + 2), b.read16 (o + 4), b.read16 (o + 6), b.read32 (o + 8),
    fun k => if k < NDIRECT + 1 then b.read32 (o + 12 + 4 * k) else 0⟩

def encode (d : Dinode) (b : Bytes) (o : ℕ) : Bytes :=
  (((((b.write16 o d.type).write16 (o + 2) d.major).write16 (o + 4) d.minor).write16 (o + 6)
    d.nlink).write32 (o + 8) d.size).writeWords (o + 12) (NDIRECT + 1) d.addrs

theorem decode_zero (o : ℕ) : decode Bytes.zero o = zero := by
  have h16 : ∀ o, Bytes.zero.read16 o = 0 := fun _ => rfl
  have h32 : ∀ o, Bytes.zero.read32 o = 0 := fun _ => rfl
  simp only [decode, zero, h16, h32, ite_self]

structure Fits (d : Dinode) : Prop where
  type : d.type < 2 ^ 16
  major : d.major < 2 ^ 16
  minor : d.minor < 2 ^ 16
  nlink : d.nlink < 2 ^ 16
  size : d.size < 2 ^ 32
  addrs : ∀ k, d.addrs k < 2 ^ 32
  beyond : ∀ k, NDIRECT + 1 ≤ k → d.addrs k = 0

theorem encode_outside (d : Dinode) (b : Bytes) {o a : ℕ} (h : a < o ∨ o + dinodeSize ≤ a) :
    d.encode b o a = b a := by
  rw [dinodeSize] at h
  rw [encode, Bytes.writeWords_outside _ _ (by rw [NDIRECT]; omega),
    Bytes.write32_outside _ _ (by omega), Bytes.write16_outside _ _ (by omega),
    Bytes.write16_outside _ _ (by omega), Bytes.write16_outside _ _ (by omega),
    Bytes.write16_outside _ _ (by omega)]

theorem decode_congr {b b' : Bytes} {o : ℕ} (h : ∀ a, o ≤ a → a < o + dinodeSize → b a = b' a) :
    decode b o = decode b' o := by
  rw [dinodeSize] at h
  simp only [decode, mk.injEq]
  refine ⟨?_, ?_, ?_, ?_, ?_, ?_⟩
  · exact Bytes.read16_congr fun a h1 h2 => h a (by omega) (by omega)
  · exact Bytes.read16_congr fun a h1 h2 => h a (by omega) (by omega)
  · exact Bytes.read16_congr fun a h1 h2 => h a (by omega) (by omega)
  · exact Bytes.read16_congr fun a h1 h2 => h a (by omega) (by omega)
  · exact Bytes.read32_congr fun a h1 h2 => h a (by omega) (by omega)
  · funext k
    split_ifs with hk
    · rw [NDIRECT] at hk
      exact Bytes.read32_congr fun a h1 h2 => h a (by omega) (by omega)
    · rfl

theorem decode_encode {d : Dinode} (hd : d.Fits) (b : Bytes) (o : ℕ) :
    decode (d.encode b o) o = d := by
  -- each field is behind those written before it
  have hlow : ∀ {a}, a < o + 12 → d.encode b o a =
      ((((b.write16 o d.type).write16 (o + 2) d.major).write16 (o + 4) d.minor).write16 (o + 6)
        d.nlink).write32 (o + 8) d.size a := fun ha => Bytes.writeWords_outside _ _ (.inl ha)
  have hmid : ∀ {a}, a < o + 8 → d.encode b o a =
      (((b.write16 o d.type).write16 (o + 2) d.major).write16 (o + 4) d.minor).write16 (o + 6)
        d.nlink a := fun ha =>
    (hlow (by omega)).trans (Bytes.write32_outside _ _ (.inl ha))
  have h6 : ∀ {a}, a < o + 6 → d.encode b o a =
      ((b.write16 o d.type).write16 (o + 2) d.major).write16 (o + 4) d.minor a := fun ha =>
    (hmid (by omega)).trans (Bytes.write16_outside _ _ (.inl ha))
  have h4 : ∀ {a}, a < o + 4 → d.encode b o a =
      (b.write16 o d.type).write16 (o + 2) d.major a := fun ha =>
    (h6 (by omega)).trans (Bytes.write16_outside _ _ (.inl ha))
  have h2 : ∀ {a}, a < o + 2 → d.encode b o a = b.write16 o d.type a := fun ha =>
    (h4 (by omega)).trans (Bytes.write16_outside _ _ (.inl ha))
  obtain ⟨type, major, minor, nlink, size, addrs⟩ := d
  simp only [decode, mk.injEq]
  refine ⟨?_, ?_, ?_, ?_, ?_, ?_⟩
  · rw [Bytes.read16_congr fun a _ ha => h2 ha, Bytes.read16_write16, Nat.mod_eq_of_lt hd.type]
  · rw [Bytes.read16_congr fun a _ ha => h4 ha, Bytes.read16_write16, Nat.mod_eq_of_lt hd.major]
  · rw [Bytes.read16_congr fun a _ ha => h6 ha, Bytes.read16_write16, Nat.mod_eq_of_lt hd.minor]
  · rw [Bytes.read16_congr fun a _ ha => hmid ha, Bytes.read16_write16, Nat.mod_eq_of_lt hd.nlink]
  · rw [Bytes.read32_congr fun a _ ha => hlow ha, Bytes.read32_write32, Nat.mod_eq_of_lt hd.size]
  · funext k
    split_ifs with hk
    · exact (Bytes.read32_writeWords _ _ hk).trans (Nat.mod_eq_of_lt (hd.addrs k))
    · exact (hd.beyond k (Nat.le_of_not_lt hk)).symm

end Dinode

/-- `struct dirent`, with a name as `strncpy` leaves it. -/
def direntBytes (inum : ℕ) (name : List UInt8) : List UInt8 :=
  [.ofNat inum, .ofNat (inum / 256)] ++ (name ++ List.replicate DIRSIZ 0).take DIRSIZ

end Xv6.Disk
