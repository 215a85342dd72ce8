import Mathlib.Order.Interval.Finset.Nat
import Xv6.Disk.Slots
import Xv6.Disk.Writer
import Xv6.Lib.Allocation

/-!
# The blocks of the files

The slots of the inodes in use are cells that hold blocks of the data area, and the bitmap has
the blocks that no slot holds. While a call works on a file, the inode in memory takes the place
of the one on disk: it is the entry of the table that is ahead of the disk.

`Extends` is what such a call does to the file: it gives blocks to slots, and writes nothing but
the file's blocks, blocks that were free, and the bitmap.
-/

namespace Xv6.Disk
open Lib

instance : DecidablePred Slot.Valid
  | .data j => inferInstanceAs (Decidable (j < MAXFILE))
  | .ind => .isTrue trivial

section Geometry

variable (sb : Superblock)

def dataStart : ℕ := sb.size - sb.nblocks

def area : Finset ℕ := Finset.Ico (dataStart sb) sb.size

def freeBlocks (d : Sectors) : Finset ℕ := (Finset.range sb.size).filter fun b => isFree sb d b

/-- The inodes are in front of the bitmap, and the bitmap in front of the data. -/
structure Superblock.Wf : Prop where
  inodes : ∀ i < sb.ninodes, i / IPB + sb.inodestart < sb.bmapstart
  bitmap : ∀ b < sb.size, BBLOCK sb b < dataStart sb
  small : sb.size ≤ 2 ^ 32

end Geometry

def block (d : Sectors) (ip : Dinode) (sl : Slot) : ℕ := if sl.Valid then addr d ip sl else 0

def cell (sb : Superblock) (d : Sectors) (dins : ℕ → Dinode) (c : ℕ × Slot) : ℕ :=
  if c.1 < sb.ninodes ∧ (dins c.1).type ≠ 0 then block d (dins c.1) c.2 else 0

/-- No block is in two slots, and the bitmap has the blocks in use. -/
def Alloc (sb : Superblock) (d : Sectors) (dins : ℕ → Dinode) : Prop :=
  Allocation (cell sb d dins) (area sb) (freeBlocks sb d)

def Touched (sb : Superblock) (d : Sectors) (ip : Dinode) (s : ℕ) : Prop :=
  s ∈ freeBlocks sb d ∨ (∃ c < sb.size, s = BBLOCK sb c) ∨
    ∃ sl, block d ip sl ≠ 0 ∧ block d ip sl = s

variable {sb : Superblock} {d d' d'' : Sectors} {T : ℕ → Dinode} {ip ip' ip'' : Dinode}
  {inum i j k b s : ℕ} {sl : Slot} {N M : Finset Slot}

section Slots

theorem addr_congr (h : ip.addrs NDIRECT ≠ 0 → d' (ip.addrs NDIRECT) = d (ip.addrs NDIRECT)) :
    addr d' ip sl = addr d ip sl := by
  cases sl with
  | ind => rfl
  | data j =>
    simp only [addr]
    split_ifs with hj h0
    · rfl
    · rfl
    · rw [h h0]

theorem block_congr (h : ip.addrs NDIRECT ≠ 0 → d' (ip.addrs NDIRECT) = d (ip.addrs NDIRECT)) :
    block d' ip sl = block d ip sl := by
  unfold block
  rw [addr_congr h]

theorem block_ind (d : Sectors) (ip : Dinode) : block d ip .ind = ip.addrs NDIRECT := rfl

theorem block_data (hj : j < MAXFILE) : block d ip (.data j) = addr d ip (.data j) := if_pos hj

theorem block_direct (hj : j < NDIRECT) : block d ip (.data j) = ip.addrs j := by
  rw [block_data (Nat.lt_of_lt_of_le hj (by decide)), addr, if_pos hj]

theorem valid_of_block (h : block d ip sl ≠ 0) : sl.Valid := by
  by_contra hv
  exact h (if_neg hv)

end Slots

section Bitmap

theorem mark_of_ne (h1 : s ≠ BBLOCK sb b) (h2 : s ≠ b) : mark sb d b s = d s := by
  rw [mark, Function.update_of_ne h2, Function.update_of_ne h1]

theorem mark_self (d : Sectors) : mark sb d b b = Bytes.zero := Function.update_self _ _ _

theorem isFree_congr (h : d' (BBLOCK sb b) = d (BBLOCK sb b)) : isFree sb d' b = isFree sb d b := by
  rw [isFree, isFree, h]

theorem isFree_mark (hw : sb.Wf) (hb : b ∈ area sb) (hi : i < sb.size) :
    isFree sb (mark sb d b) i = (isFree sb d i && i ≠ b) := by
  have hlt := hw.bitmap i hi
  have hne : BBLOCK sb i ≠ b := by
    have := (Finset.mem_Ico.1 hb).1
    omega
  unfold isFree
  rw [mark, Function.update_of_ne hne]
  by_cases hblock : BBLOCK sb i = BBLOCK sb b
  · have hdiv : i / BPB = b / BPB := by
      unfold BBLOCK at hblock
      omega
    rw [hblock, Function.update_self]
    by_cases hbyte : i % BPB / 8 = b % BPB / 8
    · rw [hbyte, Function.update_self, Bytes.or_and]
      by_cases hib : i = b
      · subst hib
        have hmask : bitMask i ≠ 0 := by
          rw [← UInt8.and_self (a := bitMask i), bitMask, Ne,
            Bytes.mask_and_mask _ (Nat.mod_lt _ (by decide)) _ (Nat.mod_lt _ (by decide))]
          exact fun h => h rfl
        simp [UInt8.or_eq_zero_iff, hmask]
      · have hmask : bitMask b &&& bitMask i = 0 := by
          unfold bitMask
          rw [Bytes.mask_and_mask _ (Nat.mod_lt _ (by decide)) _ (Nat.mod_lt _ (by decide))]
          rw [show BPB = 4096 from rfl] at hdiv hbyte ⊢
          omega
        simp [hmask, hib]
    · have hib : i ≠ b := fun e => hbyte (e ▸ rfl)
      rw [Function.update_of_ne hbyte]
      simp [hib]
  · have hib : i ≠ b := fun e => hblock (e ▸ rfl)
    rw [Function.update_of_ne hblock]
    simp [hib]

theorem mem_freeBlocks : b ∈ freeBlocks sb d ↔ b < sb.size ∧ isFree sb d b = true := by
  rw [freeBlocks, Finset.mem_filter, Finset.mem_range]

theorem freeBlocks_mark (hw : sb.Wf) (hb : b ∈ area sb) :
    freeBlocks sb (mark sb d b) = (freeBlocks sb d).erase b := by
  ext i
  rw [mem_freeBlocks, Finset.mem_erase, mem_freeBlocks]
  by_cases hi : i < sb.size
  · rw [isFree_mark hw hb hi]
    simp only [hi, Bool.and_eq_true, decide_eq_true_eq]
    tauto
  · simp [hi]

theorem freeBlocks_congr (h : ∀ b < sb.size, d' (BBLOCK sb b) = d (BBLOCK sb b)) :
    freeBlocks sb d' = freeBlocks sb d := by
  ext b
  rw [mem_freeBlocks, mem_freeBlocks]
  by_cases hb : b < sb.size
  · rw [isFree_congr (h b hb)]
  · simp [hb]

theorem balloc_run (sb : Superblock) (d : Sectors) : (freeBlocks sb d = ∅ ∧
      balloc sb d = .panic "balloc: out of blocks") ∨
    ∃ b ∈ freeBlocks sb d, balloc sb d = .ret (b, mark sb d b) := by
  unfold balloc
  cases hfind : (List.range sb.size).find? (isFree sb d) with
  | none =>
    left
    refine ⟨?_, rfl⟩
    rw [List.find?_eq_none] at hfind
    rw [freeBlocks, Finset.filter_eq_empty_iff]
    intro b hb
    exact hfind b (List.mem_range.2 (Finset.mem_range.1 hb))
  | some b =>
    right
    refine ⟨b, mem_freeBlocks.2 ⟨?_, List.find?_some hfind⟩, rfl⟩
    exact List.mem_range.1 (List.mem_of_find?_eq_some hfind)

end Bitmap

section Table

theorem cell_self (hi : inum < sb.ninodes) (ht : ip.type ≠ 0) :
    cell sb d (Function.update T inum ip) (inum, sl) = block d ip sl := by
  unfold cell
  rw [Function.update_self, if_pos ⟨hi, ht⟩]

theorem cell_other (h : i ≠ inum) :
    cell sb d (Function.update T inum ip) (i, sl) = cell sb d T (i, sl) := by
  unfold cell
  rw [Function.update_of_ne h]

theorem Alloc.mem_area (h : Alloc sb d T) (hb : b ∈ freeBlocks sb d) : b ∈ area sb :=
  ((h.free_iff b).1 hb).1

theorem BBLOCK_notMem (hw : sb.Wf) (hb : b < sb.size) : BBLOCK sb b ∉ area sb := by
  intro hmem
  have := (Finset.mem_Ico.1 hmem).1
  have := hw.bitmap b hb
  omega

structure Held (sb : Superblock) (T : ℕ → Dinode) (inum : ℕ) (d : Sectors) (ip : Dinode) :
    Prop where
  wf : sb.Wf
  lt : inum < sb.ninodes
  type : ip.type ≠ 0
  beyond : ∀ k, NDIRECT + 1 ≤ k → ip.addrs k = 0
  alloc : Alloc sb d (Function.update T inum ip)

namespace Held

variable (h : Held sb T inum d ip)
include h

theorem mem_area (hne : block d ip sl ≠ 0) : block d ip sl ∈ area sb := by
  have := h.alloc.inside (inum, sl)
  rw [cell_self h.lt h.type] at this
  exact this hne

theorem ind_mem_area (hne : ip.addrs NDIRECT ≠ 0) : ip.addrs NDIRECT ∈ area sb := by
  rw [← block_ind d ip] at hne ⊢
  exact h.mem_area hne

theorem small (hb : b ∈ freeBlocks sb d) : b < 2 ^ 32 :=
  Nat.lt_of_lt_of_le (mem_freeBlocks.1 hb).1 h.wf.small

theorem not_free (sl : Slot) : block d ip sl ∉ freeBlocks sb d := by
  intro hfree
  have := h.alloc.ne_of_free hfree (inum, sl)
  rw [cell_self h.lt h.type] at this
  exact this rfl

theorem injective {sl' : Slot} (hne : block d ip sl ≠ 0) (he : block d ip sl = block d ip sl') :
    sl = sl' := by
  have := h.alloc.injective (inum, sl) (inum, sl')
  rw [cell_self h.lt h.type, cell_self h.lt h.type] at this
  exact (Prod.mk.inj (this hne he)).2

theorem not_touched (hi : i ≠ inum) (hne : cell sb d T (i, sl) ≠ 0) :
    ¬Touched sb d ip (cell sb d T (i, sl)) := by
  have hcell : cell sb d (Function.update T inum ip) (i, sl) = cell sb d T (i, sl) := cell_other hi
  rintro (hfree | ⟨c, hc, he⟩ | ⟨sl', hne', he⟩)
  · exact h.alloc.ne_of_free hfree (i, sl) hcell
  · have := h.alloc.inside (i, sl) (by rwa [hcell])
    rw [hcell, he] at this
    exact BBLOCK_notMem h.wf hc this
  · have := h.alloc.injective (inum, sl') (i, sl)
    rw [cell_self h.lt h.type, hcell] at this
    exact hi (Prod.mk.inj (this hne' he)).1.symm

theorem cell_frame (hframe : ∀ s, ¬Touched sb d ip s → d' s = d s) (hi : i ≠ inum) (sl : Slot) :
    cell sb d' T (i, sl) = cell sb d T (i, sl) := by
  unfold cell
  by_cases hlive : i < sb.ninodes ∧ (T i).type ≠ 0
  · rw [if_pos hlive, if_pos hlive]
    refine block_congr fun hne => hframe _ ?_
    have hcell : cell sb d T (i, .ind) = (T i).addrs NDIRECT := if_pos hlive
    rw [← hcell] at hne ⊢
    exact h.not_touched hi hne
  · rw [if_neg hlive, if_neg hlive]

theorem not_touched_inode (hi : i < sb.ninodes) :
    ¬Touched sb d ip (i / IPB + sb.inodestart) := by
  have hlt := h.wf.inodes i hi
  have hbit : ∀ c, sb.bmapstart ≤ BBLOCK sb c := fun c => Nat.le_add_left _ _
  have hmem : i / IPB + sb.inodestart ∉ area sb := by
    intro hmem
    obtain ⟨hlo, hhi⟩ := Finset.mem_Ico.1 hmem
    have := h.wf.bitmap 0 (by omega)
    have := hbit 0
    omega
  rintro (hfree | ⟨c, hc, he⟩ | ⟨sl, hne, he⟩)
  · exact hmem (h.alloc.mem_area hfree)
  · have := hbit c
    omega
  · exact hmem (he ▸ h.mem_area hne)

end Held

end Table

structure Extends (sb : Superblock) (T : ℕ → Dinode) (inum : ℕ) (d : Sectors) (ip : Dinode)
    (N : Finset Slot) (d' : Sectors) (ip' : Dinode) : Prop where
  held : Held sb T inum d' ip'
  filled : Filled (block d ip) (block d' ip') N (freeBlocks sb d) (freeBlocks sb d')
  fields : ip' = { ip with addrs := ip'.addrs }
  frame : ∀ s, ¬Touched sb d ip s → d' s = d s

namespace Extends

theorem touched (h : Filled (block d ip) (block d' ip') N (freeBlocks sb d) (freeBlocks sb d'))
    (hs : Touched sb d' ip' s) : Touched sb d ip s := by
  rcases hs with hfree | hbit | ⟨sl, hne, he⟩
  · exact .inl (h.subset hfree)
  · exact .inr (.inl hbit)
  · by_cases h0 : block d ip sl = 0
    · exact .inl (he ▸ h.fresh sl h0 hne)
    · exact .inr (.inr ⟨sl, h0, (h.kept sl h0).symm.trans he⟩)

theorem refl (h : Held sb T inum d ip) (hN : ∀ sl ∈ N, block d ip sl ≠ 0) :
    Extends sb T inum d ip N d ip := ⟨h, Filled.refl hN, rfl, fun _ _ => rfl⟩

theorem trans (h : Extends sb T inum d ip N d' ip') (h' : Extends sb T inum d' ip' M d'' ip'') :
    Extends sb T inum d ip (N ∪ M) d'' ip'' := by
  refine ⟨h'.held, h.filled.trans h'.filled, ?_, fun s hs => ?_⟩
  · rw [h'.fields, h.fields]
  · rw [h'.frame s fun hs' => hs (touched h.filled hs'), h.frame s hs]

theorem place (h : Held sb T inum d ip) (hb : b ∈ freeBlocks sb d) (h0 : block d ip sl = 0)
    (hfields : ip' = { ip with addrs := ip'.addrs })
    (hbeyond : ∀ k, NDIRECT + 1 ≤ k → ip'.addrs k = ip.addrs k)
    (hnew : block d' ip' sl = b) (hold : ∀ x, x ≠ sl → block d' ip' x = block d ip x)
    (hfree : freeBlocks sb d' = (freeBlocks sb d).erase b)
    (hframe : ∀ s, ¬Touched sb d ip s → d' s = d s) : Extends sb T inum d ip {sl} d' ip' := by
  have htype : ip'.type = ip.type := by rw [hfields]
  have htype' : ip'.type ≠ 0 := htype ▸ h.type
  refine ⟨⟨h.wf, h.lt, htype', fun k hk => (hbeyond k hk).trans (h.beyond k hk), ?_⟩, ?_, hfields,
    hframe⟩
  · unfold Alloc
    rw [hfree]
    refine h.alloc.take (c := (inum, sl)) hb ?_ ?_ fun x hx => ?_
    · rw [cell_self h.lt h.type, h0]
    · rw [cell_self h.lt htype', hnew]
    · obtain ⟨i, sl'⟩ := x
      by_cases hi : i = inum
      · subst hi
        rw [cell_self h.lt htype', cell_self h.lt h.type]
        exact hold sl' fun e => hx (e ▸ rfl)
      · rw [cell_other hi, cell_other hi]
        exact h.cell_frame hframe hi sl'
  · rw [hfree]
    exact Filled.single hb (h.alloc.ne_zero hb) h0 hnew hold

theorem write (h : Held sb T inum d ip) (hne : block d ip (.data j) ≠ 0) (buf : Bytes) :
    Extends sb T inum d ip ∅ (Function.update d (block d ip (.data j)) buf) ip := by
  have hframe : ∀ s, ¬Touched sb d ip s →
      Function.update d (block d ip (.data j)) buf s = d s := fun s hs =>
    Function.update_of_ne (fun e => hs (.inr (.inr ⟨.data j, hne, e.symm⟩))) _ _
  have hblock : ∀ sl, block (Function.update d (block d ip (.data j)) buf) ip sl = block d ip sl := by
    intro sl
    refine block_congr fun hind => Function.update_of_ne (fun e => ?_) _ _
    rw [← block_ind d ip] at e hind
    cases h.injective hind e
  have hbit : ∀ b < sb.size,
      Function.update d (block d ip (.data j)) buf (BBLOCK sb b) = d (BBLOCK sb b) := by
    intro b hb
    refine Function.update_of_ne (fun e => BBLOCK_notMem h.wf hb ?_) _ _
    rw [e]
    exact h.mem_area hne
  generalize Function.update d (block d ip (.data j)) buf = d' at *
  have hfree := freeBlocks_congr hbit
  refine ⟨⟨h.wf, h.lt, h.type, h.beyond, ?_⟩, ?_, rfl, hframe⟩
  · have hcell : cell sb d' (Function.update T inum ip) = cell sb d (Function.update T inum ip) := by
      funext ⟨i, sl⟩
      by_cases hi : i = inum
      · subst hi
        rw [cell_self h.lt h.type, cell_self h.lt h.type, hblock]
      · rw [cell_other hi, cell_other hi, h.cell_frame hframe hi]
    unfold Alloc
    rw [hcell, hfree]
    exact h.alloc
  · rw [hfree, funext hblock]
    exact Filled.refl fun sl hsl => absurd hsl (Finset.notMem_empty sl)

end Extends

end Xv6.Disk
