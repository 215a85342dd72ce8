import Xv6.Disk.Contents

/-!
# Reading and writing files

`BlockInv` is the state of the disk between calls: the blocks of the inodes in use are allocated
and those up to their size are there. A write leaves the bytes of the file spliced with those
written, and all other files alone.
-/

namespace Xv6.Disk
open Lib

structure BlockInv (sb : Superblock) (d : Sectors) : Prop where
  wf : sb.Wf
  alloc : Alloc sb d (inodeOf sb d)
  mapped : ∀ i < sb.ninodes, (inodeOf sb d i).type ≠ 0 → ∀ bn, bn * BSIZE < (inodeOf sb d i).size →
    block d (inodeOf sb d i) (.data bn) ≠ 0

variable {sb : Superblock} {d d' : Sectors} {ip ip' : Dinode} {inum off n i : ℕ}
  {src : List UInt8}

section Inodes

theorem inodeOf_fits (sb : Superblock) (d : Sectors) (inum : ℕ) : (inodeOf sb d inum).Fits := by
  refine ⟨Bytes.read16_lt _ _, Bytes.read16_lt _ _, Bytes.read16_lt _ _, Bytes.read16_lt _ _,
    Bytes.read32_lt _ _, fun k => ?_, fun k hk => ?_⟩
  · change (if _ then _ else _) < _
    split_ifs
    · exact Bytes.read32_lt _ _
    · exact Nat.two_pow_pos 32
  · exact if_neg (by omega)

theorem inodeOf_congr (h : d' (inum / IPB + sb.inodestart) = d (inum / IPB + sb.inodestart)) :
    inodeOf sb d' inum = inodeOf sb d inum := by
  rw [inodeOf, inodeOf, h]

theorem ilock_run (h : (inodeOf sb d inum).type ≠ 0) :
    ilock sb inum d = .ret (inodeOf sb d inum, d) := by
  unfold ilock
  rw [Prog.bind_apply, Prog.read_apply, Outcome.ret_bind]
  exact congrFun (if_neg h) d

def putInode (sb : Superblock) (d : Sectors) (inum : ℕ) (ip : Dinode) : Sectors :=
  Function.update d (inum / IPB + sb.inodestart)
    (ip.encode (d (inum / IPB + sb.inodestart)) (dinodeSize * (inum % IPB)))

theorem inodeOf_put (hip : ip.Fits) :
    inodeOf sb (putInode sb d inum ip) = Function.update (inodeOf sb d) inum ip := by
  funext i
  by_cases hi : i = inum
  · subst hi
    rw [Function.update_self, inodeOf, putInode, Function.update_self]
    exact Dinode.decode_encode hip _ _
  rw [Function.update_of_ne hi]
  by_cases hblock : i / IPB + sb.inodestart = inum / IPB + sb.inodestart
  · -- another place in the same block
    rw [inodeOf, inodeOf, putInode, hblock, Function.update_self]
    refine Dinode.decode_congr fun a hlo hhi => Dinode.encode_outside _ _ ?_
    have hmod : i % IPB ≠ inum % IPB := by
      rw [show IPB = 8 from rfl] at *
      omega
    rw [dinodeSize] at *
    omega
  · exact inodeOf_congr (Function.update_of_ne hblock _ _)

theorem putInode_area (hw : sb.Wf) (hi : inum < sb.ninodes) {s : ℕ} (hs : s ∈ area sb) :
    putInode sb d inum ip s = d s := by
  refine Function.update_of_ne (fun e => ?_) _ _
  obtain ⟨hlo, hhi⟩ := Finset.mem_Ico.1 hs
  have hlt := hw.inodes inum hi
  have hbit : sb.bmapstart ≤ BBLOCK sb 0 := Nat.le_add_left _ _
  have := hw.bitmap 0 (by omega)
  omega

theorem putInode_bitmap (hw : sb.Wf) (hi : inum < sb.ninodes) (b : ℕ) :
    putInode sb d inum ip (BBLOCK sb b) = d (BBLOCK sb b) := by
  refine Function.update_of_ne (fun e => ?_) _ _
  have hlt := hw.inodes inum hi
  have hbit : sb.bmapstart ≤ BBLOCK sb b := Nat.le_add_left _ _
  omega

end Inodes

theorem BlockInv.held (h : BlockInv sb d) (hi : inum < sb.ninodes)
    (ht : (inodeOf sb d inum).type ≠ 0) :
    Held sb (inodeOf sb d) inum d (inodeOf sb d inum) := by
  refine ⟨h.wf, hi, ht, (inodeOf_fits sb d inum).beyond, ?_⟩
  rw [Function.update_eq_self]
  exact h.alloc

section Read

variable {devsw : ℕ → Option (ℕ → List UInt8)}

theorem BlockInv.mapped_lt (h : BlockInv sb d) (hi : inum < sb.ninodes)
    (ht : (inodeOf sb d inum).type ≠ 0) {a : ℕ} (ha : a < (inodeOf sb d inum).size) :
    block d (inodeOf sb d inum) (.data (a / BSIZE)) ≠ 0 :=
  h.mapped inum hi ht _ (Nat.lt_of_le_of_lt (Nat.div_mul_le_self a BSIZE) ha)

theorem BlockInv.size_le (h : BlockInv sb d) (hi : inum < sb.ninodes)
    (ht : (inodeOf sb d inum).type ≠ 0) : (inodeOf sb d inum).size ≤ MAXFILE * BSIZE := by
  by_contra hlt
  have hvalid := valid_of_block (h.mapped inum hi ht MAXFILE (by omega))
  exact Nat.lt_irrefl MAXFILE hvalid

theorem length_content (d : Sectors) (ip : Dinode) : (content d ip).length = ip.size := by
  rw [content, List.length_map, List.length_range]

theorem getElem?_content (d : Sectors) (ip : Dinode) (a : ℕ) :
    (content d ip)[a]? = if a < ip.size then some (byteAt d ip a) else none := by
  rw [content, List.getElem?_map]
  by_cases ha : a < ip.size
  · rw [if_pos ha, List.getElem?_range ha]
    rfl
  · rw [if_neg ha, List.getElem?_eq_none (by rw [List.length_range]; omega)]
    rfl

theorem readi_spec
    (hmap : ∀ a < ip.size, off ≤ a → a < off + n → block d ip (.data (a / BSIZE)) ≠ 0)
    (hdev : ip.type ≠ T_DEV) (hoff : off < 2 ^ 32) (hn : n < 2 ^ 32) :
    readi sb devsw ip off n d = .ret ((ip, if ip.size < off ∨ 2 ^ 32 ≤ off + n then none
      else some (((content d ip).drop off).take n)), d) := by
  have hwrap : (off + n) % 2 ^ 32 < off ↔ 2 ^ 32 ≤ off + n := by omega
  unfold readi
  rw [if_neg hdev]
  by_cases hbad : ip.size < off ∨ 2 ^ 32 ≤ off + n
  · rw [if_pos (hbad.imp_right hwrap.2), if_pos hbad]
    rfl
  rw [if_neg fun h => hbad (h.imp_right hwrap.1), if_neg hbad]
  generalize hm : (if ip.size < off + n then ip.size - off else n) = m
  have hend : off + m ≤ ip.size ∧ (m = n ∨ ip.size < off + n ∧ m = ip.size - off) := by
    split_ifs at hm <;> omega
  have hbytes : ((content d ip).drop off).take n =
      (List.range m).map fun k => byteAt d ip (off + k) := by
    apply List.ext_getElem?
    intro k
    rw [List.getElem?_take, List.getElem?_drop, getElem?_content, List.getElem?_map]
    by_cases hk : k < m
    · rw [if_pos (by omega), if_pos (by omega), List.getElem?_range hk]
      rfl
    · rw [List.getElem?_eq_none (l := List.range m) (by rw [List.length_range]; omega)]
      split_ifs
      · omega
      · rfl
      · rfl
  rw [hbytes, Prog.bind_of_ret (readLoop_spec (Nat.le_refl m) fun a hlo ha =>
    hmap a (by omega) hlo (by omega))]
  rfl

end Read

section Write

variable {devsw : ℕ → Option (List UInt8 → ℕ)}

structure Written (sb : Superblock) (inum : ℕ) (d : Sectors) (off : ℕ) (src : List UInt8)
    (d' : Sectors) : Prop where
  inv : BlockInv sb d'
  fields : inodeOf sb d' inum = { inodeOf sb d inum with
    size := max (inodeOf sb d inum).size (off + src.length)
    addrs := (inodeOf sb d' inum).addrs }
  bytes : content d' (inodeOf sb d' inum) = splice (content d (inodeOf sb d inum)) off src
  others : ∀ i < sb.ninodes, i ≠ inum → inodeOf sb d' i = inodeOf sb d i ∧
    ((inodeOf sb d i).type ≠ 0 → content d' (inodeOf sb d i) = content d (inodeOf sb d i))
  filled : Filled (block d (inodeOf sb d inum)) (block d' (inodeOf sb d' inum))
    (slots off src.length) (freeBlocks sb d) (freeBlocks sb d')

theorem block_addrs (h : ip'.addrs = ip.addrs) (sl : Slot) : block d ip' sl = block d ip sl := by
  cases sl <;> simp only [block, addr, h]

structure Stored (sb : Superblock) (inum : ℕ) (d d₁ : Sectors) (ip₁ : Dinode) (size : ℕ)
    (d' : Sectors) : Prop where
  inode : inodeOf sb d' inum = { ip₁ with size := size }
  others : ∀ i < sb.ninodes, i ≠ inum → inodeOf sb d' i = inodeOf sb d i
  area : ∀ s ∈ area sb, d' s = d₁ s
  bitmap : ∀ b < sb.size, d' (BBLOCK sb b) = d₁ (BBLOCK sb b)

variable {d₁ : Sectors} {ip₁ : Dinode} {size : ℕ}

theorem Stored.block_self (h : Stored sb inum d d₁ ip₁ size d')
    (hheld : Held sb (inodeOf sb d) inum d₁ ip₁) (sl : Slot) :
    block d' (inodeOf sb d' inum) sl = block d₁ ip₁ sl := by
  have haddrs : block d' { ip₁ with size := size } sl = block d' ip₁ sl := block_addrs rfl sl
  rw [h.inode, haddrs]
  exact block_congr fun hne => h.area _ (hheld.ind_mem_area hne)

theorem Stored.cell (h : Stored sb inum d d₁ ip₁ size d')
    (hheld : Held sb (inodeOf sb d) inum d₁ ip₁) :
    cell sb d' (inodeOf sb d') = Disk.cell sb d₁ (Function.update (inodeOf sb d) inum ip₁) := by
  funext ⟨i, sl⟩
  by_cases hi : i = inum
  · subst hi
    rw [cell_self hheld.lt hheld.type, Disk.cell, if_pos, h.block_self hheld]
    rw [h.inode]
    exact ⟨hheld.lt, hheld.type⟩
  rw [cell_other hi]
  unfold Disk.cell
  by_cases hlt : i < sb.ninodes
  · rw [h.others i hlt hi]
    by_cases htype : (inodeOf sb d i).type ≠ 0
    · rw [if_pos ⟨hlt, htype⟩, if_pos ⟨hlt, htype⟩]
      refine block_congr fun hne => h.area _ ?_
      have hcell : Disk.cell sb d₁ (Function.update (inodeOf sb d) inum ip₁) (i, .ind) =
          (inodeOf sb d i).addrs NDIRECT := by
        rw [cell_other hi]
        exact if_pos ⟨hlt, htype⟩
      rw [← hcell] at hne ⊢
      exact hheld.alloc.inside _ hne
    · rw [if_neg fun hh => htype hh.2, if_neg fun hh => htype hh.2]
  · rw [if_neg fun hh => hlt hh.1, if_neg fun hh => hlt hh.1]

theorem cell_live {T : ℕ → Dinode} (hi : i < sb.ninodes) (ht : (T i).type ≠ 0) (sl : Slot) :
    cell sb d T (i, sl) = block d (T i) sl := if_pos ⟨hi, ht⟩

section Stored

variable {N : Finset Slot} (h : Stored sb inum d d₁ ip₁ size d')
  (hheld : Held sb (inodeOf sb d) inum d (inodeOf sb d inum))
  (hext : Extends sb (inodeOf sb d) inum d (inodeOf sb d inum) N d₁ ip₁)
include h hheld hext

theorem Stored.block_other (hi : i < sb.ninodes) (hne : i ≠ inum)
    (ht : (inodeOf sb d i).type ≠ 0) (sl : Slot) :
    block d' (inodeOf sb d i) sl = block d (inodeOf sb d i) sl := by
  have hcell := congrFun (h.cell hext.held) (i, sl)
  rw [cell_other hne, hheld.cell_frame hext.frame hne, cell_live hi ht,
    cell_live hi (by rwa [h.others i hi hne]), h.others i hi hne] at hcell
  exact hcell

theorem Stored.content_other (hinv : BlockInv sb d) (hi : i < sb.ninodes) (hne : i ≠ inum)
    (ht : (inodeOf sb d i).type ≠ 0) :
    content d' (inodeOf sb d i) = content d (inodeOf sb d i) := by
  refine List.map_congr_left fun a ha => ?_
  have hmap := hinv.mapped_lt hi ht (List.mem_range.1 ha)
  have hcell := cell_live (d := d) hi ht (.data (a / BSIZE))
  have hout : ¬Touched sb d (inodeOf sb d inum) (block d (inodeOf sb d i) (.data (a / BSIZE))) := by
    rw [← hcell] at hmap ⊢
    exact hheld.not_touched hne hmap
  have harea : block d (inodeOf sb d i) (.data (a / BSIZE)) ∈ Disk.area sb := by
    rw [← hcell] at hmap ⊢
    exact hinv.alloc.inside _ hmap
  rw [byteAt, byteAt, h.block_other hheld hext hi hne ht, h.area _ harea, hext.frame _ hout]

end Stored

theorem Stored.byteAt_self (h : Stored sb inum d d₁ ip₁ size d')
    (hheld : Held sb (inodeOf sb d) inum d₁ ip₁) {a : ℕ}
    (hne : block d₁ ip₁ (.data (a / BSIZE)) ≠ 0) :
    byteAt d' (inodeOf sb d' inum) a = byteAt d₁ ip₁ a := by
  rw [byteAt, byteAt, h.block_self hheld, h.area _ (hheld.mem_area hne)]

theorem Stored.written (h : Stored sb inum d d₁ ip₁ size d')
    (hmax : max (inodeOf sb d inum).size (off + src.length) = size) (hinv : BlockInv sb d)
    (hi : inum < sb.ninodes) (ht : (inodeOf sb d inum).type ≠ 0)
    (hoff : off ≤ (inodeOf sb d inum).size)
    (hext : Extends sb (inodeOf sb d) inum d (inodeOf sb d inum) (slots off src.length) d₁ ip₁)
    (hw : Wrote d (inodeOf sb d inum) off src d₁ ip₁) : Written sb inum d off src d' := by
  have hheld := hinv.held hi ht
  have hsize : (inodeOf sb d' inum).size = max (inodeOf sb d inum).size (off + src.length) := by
    rw [h.inode, hmax]
  have hfree : freeBlocks sb d' = freeBlocks sb d₁ := freeBlocks_congr h.bitmap
  -- every block up to the new size
  have hmapped : ∀ a, a < (inodeOf sb d inum).size ∨ off ≤ a ∧ a < off + src.length →
      block d₁ ip₁ (.data (a / BSIZE)) ≠ 0 := by
    rintro a (ha | ⟨hlo, hhi⟩)
    · have hmap := hinv.mapped_lt hi ht ha
      rwa [hext.filled.kept _ hmap]
    · exact hext.ne_zero (data_mem_slots hlo hhi)
  refine ⟨⟨hinv.wf, ?_, fun i hlt htype bn hbn => ?_⟩, ?_, ?_, fun i hlt hne => ?_, ?_⟩
  · unfold Alloc
    rw [h.cell hext.held, hfree]
    exact hext.held.alloc
  · by_cases hne : i = inum
    · subst hne
      rw [hsize] at hbn
      have hblock := hmapped (bn * BSIZE) (by omega)
      rw [Nat.mul_div_cancel _ (by decide)] at hblock
      rwa [h.block_self hext.held]
    · rw [h.others i hlt hne] at htype hbn ⊢
      rw [h.block_other hheld hext hlt hne htype]
      exact hinv.mapped i hlt htype bn hbn
  · rw [h.inode, hmax, hext.fields]
  · apply List.ext_getElem?
    intro a
    have hlen := length_content d (inodeOf sb d inum)
    rw [getElem?_splice (by omega), getElem?_content, getElem?_content, hsize]
    by_cases hin : off ≤ a ∧ a < off + src.length
    · have hget := hw.inside (a - off) (by omega)
      rw [show off + (a - off) = a by omega] at hget
      rw [if_pos hin, if_pos (by omega), h.byteAt_self hext.held (hmapped a (.inr hin)), hget,
        List.getD_eq_getElem?_getD, List.getElem?_eq_getElem (by omega)]
      rfl
    · rw [if_neg hin]
      by_cases ha : a < (inodeOf sb d inum).size
      · rw [if_pos (by omega), if_pos ha, h.byteAt_self hext.held (hmapped a (.inl ha)),
          hw.outside a (by omega) (hinv.mapped_lt hi ht ha)]
      · rw [if_neg (by omega), if_neg ha]
  · exact ⟨h.others i hlt hne, fun htype => h.content_other hheld hext hinv hlt hne htype⟩
  · rw [hfree, funext (h.block_self hext.held)]
    exact hext.filled

theorem writei_refuses (hdev : ip.type ≠ T_DEV) (hoff : off < 2 ^ 32) (hn : src.length < 2 ^ 32)
    (hbad : ip.size < off ∨ 2 ^ 32 ≤ off + src.length ∨ MAXFILE * BSIZE < off + src.length) :
    writei sb devsw inum ip src off d = .ret ((ip, none), d) := by
  unfold writei
  rw [if_neg hdev]
  by_cases hfirst : ip.size < off ∨ (off + src.length) % 2 ^ 32 < off
  · rw [if_pos hfirst]
    rfl
  · rw [if_neg hfirst, if_pos (by omega)]
    rfl

theorem stored_put (hheld : Held sb (inodeOf sb d) inum d₁ ip₁)
    (hsame : ∀ i < sb.ninodes, inodeOf sb d₁ i = inodeOf sb d i)
    (hfits : ({ ip₁ with size := size } : Dinode).Fits) :
    Stored sb inum d d₁ ip₁ size (putInode sb d₁ inum { ip₁ with size := size }) := by
  refine ⟨?_, fun i hi hne => ?_, fun s hs => putInode_area hheld.wf hheld.lt hs,
    fun b _ => putInode_bitmap hheld.wf hheld.lt b⟩
  · rw [inodeOf_put hfits, Function.update_self]
  · rw [inodeOf_put hfits, Function.update_of_ne hne, hsame i hi]

theorem Held.addrs_lt {T : ℕ → Dinode} (h : Held sb T inum d ip) (k : ℕ) :
    ip.addrs k < 2 ^ 32 := by
  have hlt : ∀ sl, block d ip sl < 2 ^ 32 := by
    intro sl
    by_cases h0 : block d ip sl = 0
    · rw [h0]
      exact Nat.two_pow_pos 32
    · exact Nat.lt_of_lt_of_le (Finset.mem_Ico.1 (h.mem_area h0)).2 h.wf.small
  rcases Nat.lt_trichotomy k NDIRECT with hk | rfl | hk
  · rw [← block_direct (d := d) hk]
    exact hlt _
  · exact hlt .ind
  · rw [h.beyond k hk]
    exact Nat.two_pow_pos 32

theorem Extends.inode_eq {T : ℕ → Dinode} {N : Finset Slot} (h : Extends sb T inum d ip N d' ip')
    (hheld : Held sb T inum d ip) (hN : ∀ sl ∈ N, block d ip sl ≠ 0) : ip' = ip := by
  have hblock : ∀ sl, block d' ip' sl = block d ip sl := by
    intro sl
    by_cases h0 : block d ip sl = 0
    · rw [h0, h.filled.empty]
      exact ⟨h0, fun hsl => hN sl hsl h0⟩
    · exact h.filled.kept sl h0
  have haddrs : ip'.addrs = ip.addrs := by
    funext k
    rcases Nat.lt_trichotomy k NDIRECT with hk | rfl | hk
    · rw [← block_direct (d := d') hk, ← block_direct (d := d) hk]
      exact hblock _
    · exact hblock .ind
    · rw [h.held.beyond k hk, hheld.beyond k hk]
  rw [h.fields, haddrs]

theorem slots_mapped (h : ∀ a, off ≤ a → a < off + n → block d ip (.data (a / BSIZE)) ≠ 0) :
    ∀ sl ∈ slots off n, block d ip sl ≠ 0 := by
  intro sl hsl
  obtain ⟨a, ha, hsl⟩ := Finset.mem_biUnion.1 hsl
  obtain ⟨hlo, hhi⟩ := Finset.mem_Ico.1 ha
  have hdata := h a hlo hhi
  unfold slotsOf at hsl
  split_ifs at hsl with hdirect
  · exact Finset.mem_singleton.1 hsl ▸ hdata
  · rcases Finset.mem_union.1 hsl with hsl | hsl
    · rw [Finset.mem_singleton.1 hsl]
      intro h0
      rw [block_ind] at h0
      rw [block_data (valid_of_block hdata), addr, if_neg hdirect, if_pos h0] at hdata
      exact hdata rfl
    · exact Finset.mem_singleton.1 hsl ▸ hdata

inductive Stores (sb : Superblock) (inum : ℕ) (d : Sectors) (off : ℕ) (src : List UInt8) :
    Outcome ((Dinode × Option ℕ) × Sectors) → Prop
  | stored {d₁ d' : Sectors} {ip₁ : Dinode} {size : ℕ} (h : Stored sb inum d d₁ ip₁ size d')
      (hmax : max (inodeOf sb d inum).size (off + src.length) = size)
      (hext : Extends sb (inodeOf sb d) inum d (inodeOf sb d inum) (slots off src.length) d₁ ip₁)
      (hw : Wrote d (inodeOf sb d inum) off src d₁ ip₁) :
      Stores sb inum d off src (.ret ((inodeOf sb d' inum, some src.length), d'))
  | full (h : (freeBlocks sb d).card <
        missing (block d (inodeOf sb d inum)) (slots off src.length)) :
      Stores sb inum d off src (.panic "balloc: out of blocks")

theorem writei_stores (hinv : BlockInv sb d) (hi : inum < sb.ninodes)
    (ht : (inodeOf sb d inum).type ≠ 0) (hdev : (inodeOf sb d inum).type ≠ T_DEV)
    (hoff : off ≤ (inodeOf sb d inum).size) (hend : off + src.length ≤ MAXFILE * BSIZE) :
    Stores sb inum d off src (writei sb devsw inum (inodeOf sb d inum) src off d) := by
  have hheld := hinv.held hi ht
  have hM : MAXFILE * BSIZE = 71680 := rfl
  have hspec := writeLoop_spec hheld (Nat.le_refl src.length) hend
  unfold writei
  rw [if_neg hdev, if_neg (by omega), if_neg (by omega), Prog.bind_apply]
  generalize writeLoop sb src.length (inodeOf sb d inum) off src d = o at hspec
  cases hspec with
  | full hfull => exact .full hfull
  | @done d₁ ip₁ hext hw =>
    have hsame : ∀ i < sb.ninodes, inodeOf sb d₁ i = inodeOf sb d i := fun i hlt =>
      inodeOf_congr (hext.frame _ (hheld.not_touched_inode hlt))
    have hsize : ip₁.size = (inodeOf sb d inum).size := by rw [hext.fields]
    simp only [Outcome.ret_bind]
    by_cases hgrow : 0 < src.length ∧ ip₁.size < off + src.length
    · rw [if_pos hgrow]
      have hmax : max (inodeOf sb d inum).size (off + src.length) = off + src.length := by omega
      have hfits : ({ ip₁ with size := off + src.length } : Dinode).Fits := by
        have hold := inodeOf_fits sb d inum
        rw [hext.fields]
        exact ⟨hold.type, hold.major, hold.minor, hold.nlink,
          show off + src.length < 2 ^ 32 by omega, hext.held.addrs_lt, hext.held.beyond⟩
      have hstored := stored_put hext.held hsame hfits
      have hret := Stores.stored hstored hmax hext hw
      rw [hstored.inode] at hret
      exact hret
    · rw [if_neg hgrow]
      have hmax : max (inodeOf sb d inum).size (off + src.length) = ip₁.size := by omega
      have hip : ip₁ = inodeOf sb d inum := by
        refine hext.inode_eq hheld (slots_mapped fun a hlo hhi => hinv.mapped_lt hi ht ?_)
        omega
      have hstored : Stored sb inum d d₁ ip₁ ip₁.size d₁ :=
        ⟨(hsame inum hi).trans hip.symm, fun i hlt _ => hsame i hlt, fun _ _ => rfl,
          fun _ _ => rfl⟩
      have hret := Stores.stored hstored hmax hext hw
      rw [hstored.inode] at hret
      exact hret

inductive WritesFile (sb : Superblock) (inum : ℕ) (d : Sectors) (off : ℕ) (src : List UInt8) :
    Outcome ((Dinode × Option ℕ) × Sectors) → Prop
  | written {d' : Sectors} (h : Written sb inum d off src d') :
      WritesFile sb inum d off src (.ret ((inodeOf sb d' inum, some src.length), d'))
  | full (h : (freeBlocks sb d).card <
        missing (block d (inodeOf sb d inum)) (slots off src.length)) :
      WritesFile sb inum d off src (.panic "balloc: out of blocks")

theorem writei_spec (hinv : BlockInv sb d) (hi : inum < sb.ninodes)
    (ht : (inodeOf sb d inum).type ≠ 0) (hdev : (inodeOf sb d inum).type ≠ T_DEV)
    (hoff : off ≤ (inodeOf sb d inum).size) (hend : off + src.length ≤ MAXFILE * BSIZE) :
    WritesFile sb inum d off src (writei sb devsw inum (inodeOf sb d inum) src off d) := by
  have hstores : Stores sb inum d off src (writei sb devsw inum (inodeOf sb d inum) src off d) :=
    writei_stores hinv hi ht hdev hoff hend
  generalize writei sb devsw inum (inodeOf sb d inum) src off d = o at hstores
  cases hstores with
  | stored h hmax hext hw => exact .written (h.written hmax hinv hi ht hoff hext hw)
  | full h => exact .full h

end Write

end Xv6.Disk
