import Xv6.Mkfs.Final

/-!
# The image is consistent

`Consistent` is what the kernel expects of a disk: the blocks of every file are there, no block
is in two places, and the bitmap has the blocks in use.

`mkfs` rounds the size of the root directory up to the next block even when it is the size of
full blocks already. Then the directory has a last block that is not there.
-/

namespace Xv6.Mkfs
open Lib Disk

structure Sound (sb : Superblock) (d : Sectors) : Prop where
  mapped : ∀ inum < sb.ninodes, ∀ bn, bn * BSIZE < (inodeOf sb d inum).size →
    addr d (inodeOf sb d inum) (.data bn) ≠ 0
  distinct : ∀ inum < sb.ninodes, ∀ inum' < sb.ninodes, ∀ sl sl' : Slot, sl.Valid → sl'.Valid →
    addr d (inodeOf sb d inum) sl ≠ 0 →
    addr d (inodeOf sb d inum) sl = addr d (inodeOf sb d inum') sl' → inum = inum' ∧ sl = sl'
  area : ∀ inum < sb.ninodes, ∀ sl : Slot, sl.Valid → addr d (inodeOf sb d inum) sl ≠ 0 →
    sb.size - sb.nblocks ≤ addr d (inodeOf sb d inum) sl ∧ addr d (inodeOf sb d inum) sl < sb.size
  bitmap : ∀ b < sb.size, isFree sb d b = false ↔ b < sb.size - sb.nblocks ∨
    ∃ inum < sb.ninodes, ∃ sl : Slot, sl.Valid ∧ addr d (inodeOf sb d inum) sl = b

def Consistent (d : Sectors) : Prop := Sound (Superblock.decode (d 1)) d

section Final

variable {files : List Input} {s : St}

theorem Final.superblock (h : Final files s) : Superblock.decode (s.disk 1) = sb := by
  rw [h.super]
  exact Superblock.decode_encode (by decide) _

theorem inodeOf_eq {d : Sectors} {i : ℕ} (hi : i < inodeSlots) : inodeOf sb d i = table d i := by
  rw [table, if_pos hi]
  rfl

theorem isFree_iff (h : Final files s) {b : ℕ} (hb : b < FSSIZE) :
    isFree sb s.disk b = false ↔ b < total files := by
  have hblock : BBLOCK sb b = sb.bmapstart := by
    have h1 : FSSIZE = 1000 := rfl
    have h2 : b / 4096 = 0 := by omega
    change b / 4096 + sb.bmapstart = _
    rw [h2, Nat.zero_add]
  have hmod : b % BPB = b := Nat.mod_eq_of_lt (Nat.lt_trans hb (by decide))
  rw [isFree, hblock, h.bitmap, bitMask, hmod, ← h.freeblock, decide_eq_false_iff_not, bitmap_bit,
    Nat.not_le]

theorem Final.below_of_lt (h : Final files s) {i bn : ℕ} (hbn : bn * BSIZE < (table s.disk i).size) :
    (1 ≤ i ∧ i < files.length + 2) ∧ (bn < blocksOf (contents files i).length ∨
      i = ROOTINO ∧ bn = rootLength files / BSIZE ∧ rootLength files % BSIZE = 0) := by
  by_cases hi : i = 0 ∨ files.length + 2 ≤ i
  · rw [h.others i hi] at hbn
    exact absurd hbn (Nat.not_lt_zero _)
  · refine ⟨by omega, ?_⟩
    by_cases hroot : i = ROOTINO
    · subst hroot
      rw [h.root] at hbn
      change bn * BSIZE < (rootLength files / BSIZE + 1) * BSIZE at hbn
      rw [length_contents_root]
      unfold blocksOf
      rw [BSIZE] at *
      omega
    · obtain ⟨k, rfl⟩ : ∃ k, i = 2 + k := ⟨i - 2, by rw [ROOTINO] at hroot; omega⟩
      have hk : files[k]? = some files[k] := List.getElem?_eq_getElem (by omega)
      rw [h.file k _ hk] at hbn
      change bn * BSIZE < (files[k]).bytes.length at hbn
      rw [contents_file hk]
      unfold blocksOf
      rw [BSIZE] at *
      omega

theorem rootLength_mod (files : List Input) :
    rootLength files % BSIZE = 0 ↔ (files.length + 2) % (BSIZE / direntSize) = 0 := by
  change direntSize * (files.length + 2) % 512 = 0 ↔ (files.length + 2) % 32 = 0
  rw [direntSize]
  omega

theorem Final.consistent_iff (h : Final files s) (hn : files.length + 2 ≤ NINODES) :
    Consistent s.disk ↔ (files.length + 2) % (BSIZE / direntSize) ≠ 0 := by
  obtain ⟨own, hl⟩ := h.layout
  have hslots : ∀ i, i < sb.ninodes → i < inodeSlots := fun i hi => Nat.lt_trans hi (by decide)
  have harea : sb.size - sb.nblocks = nmeta := by decide
  unfold Consistent
  rw [h.superblock, Ne, ← rootLength_mod]
  constructor
  · intro hc hmod
    -- the block behind the last one that is full
    have hbn : rootLength files / BSIZE * BSIZE < (table s.disk ROOTINO).size := by
      rw [h.root]
      change _ < (rootLength files / BSIZE + 1) * BSIZE
      rw [BSIZE]
      omega
    refine hc.mapped ROOTINO (by decide) (rootLength files / BSIZE) ?_ ?_
    · rwa [inodeOf_eq (by decide)]
    · rw [inodeOf_eq (by decide)]
      refine hl.unused ROOTINO _ ?_ fun hu => ?_
      · have h1 : NINODES = 200 := rfl
        have h2 : MAXFILE = 140 := by decide
        change rootLength files / BSIZE < MAXFILE
        rw [h2, rootLength, direntSize, BSIZE]
        omega
      · have hlt : rootLength files / BSIZE < blocksOf (contents files ROOTINO).length := hu.2.2
        rw [length_contents_root, blocksOf] at hlt
        rw [BSIZE] at *
        omega
  · intro hmod
    refine
      { mapped := fun i hi bn hbn => ?_
        distinct := fun i hi i' hi' sl sl' hv hv' hne he => ?_
        area := fun i hi sl hv hne => ?_
        bitmap := fun b hb => ?_ }
    · rw [inodeOf_eq (hslots i hi)] at *
      obtain ⟨hi', hlt | ⟨_, _, hfull⟩⟩ := h.below_of_lt hbn
      · exact hl.ne_zero ⟨hi'.1, hi'.2, hlt⟩
      · exact absurd hfull hmod
    · rw [inodeOf_eq (hslots i hi), inodeOf_eq (hslots i' hi')] at *
      exact hl.injective (hl.used_of_ne hv hne) (hl.used_of_ne hv' (he ▸ hne)) he
    · rw [inodeOf_eq (hslots i hi)] at *
      have := hl.range i sl (hl.used_of_ne hv hne)
      exact ⟨harea ▸ this.1, Nat.lt_of_lt_of_le this.2.1 h.free⟩
    · rw [isFree_iff h hb, harea, ← h.freeblock]
      constructor
      · intro hlt
        rcases Nat.lt_or_ge b nmeta with hb' | hb'
        · exact .inl hb'
        · obtain ⟨hu, ha⟩ := hl.owned b hb' hlt
          have hi : (own b).1 < sb.ninodes := Nat.lt_of_lt_of_le hu.2.1 hn
          refine .inr ⟨(own b).1, hi, (own b).2, hl.valid _ _ hu, ?_⟩
          rwa [inodeOf_eq (hslots _ hi)]
      · rintro (hb' | ⟨i, hi, sl, hv, ha⟩)
        · exact Nat.lt_of_lt_of_le hb' hl.meta_le
        · rw [inodeOf_eq (hslots i hi)] at ha
          by_cases h0 : addr s.disk (table s.disk i) sl = 0
          · exact (ha.symm.trans h0) ▸ Nat.lt_of_lt_of_le (by decide) hl.meta_le
          · exact ha ▸ (hl.range i sl (hl.used_of_ne hv h0)).2.1

end Final

theorem mkfs_consistent_iff {files : List Input} {s : St} (hn : files.length + 2 ≤ NINODES)
    (h : mkfs files = .ret s) :
    Consistent s.disk ↔ (files.length + 2) % (BSIZE / direntSize) ≠ 0 :=
  (mkfs_final (Nat.le_trans hn (by decide)) h).consistent_iff hn

theorem mkfs_consistent_iff_nil :
    ∃ s, mkfs [] = .ret s ∧ (Consistent s.disk ↔ 2 % (BSIZE / direntSize) ≠ 0) := by
  obtain ⟨s, h⟩ := mkfs_finishes (by decide) (⟨nofun, nofun, by decide⟩ : Fit [])
  exact ⟨s, h, mkfs_consistent_iff (by decide) h⟩

def sample (k : Fin 30) (blocks : ℕ) : Input where
  arg := [UInt8.ofNat (65 + k.1)]
  chunks := List.replicate blocks (List.replicate BSIZE 1)
  nul := by
    revert k
    decide
  read := fun c hc => by
    rw [List.eq_of_mem_replicate hc, List.length_replicate]
    decide

def thirty (blocks : Fin 30 → ℕ) : List Input :=
  (List.finRange 30).map fun k => sample k (blocks k)

section Thirty

variable {blocks : Fin 30 → ℕ}

theorem length_thirty : (thirty blocks).length = 30 := by
  rw [thirty, List.length_map, List.length_finRange]

theorem length_sample (k : Fin 30) (n : ℕ) : (sample k n).bytes.length = n * BSIZE := by
  simp [Input.bytes, sample]

theorem total_thirty : total (thirty blocks) =
    nmeta + 1 + ((List.finRange 30).map fun k => need (blocks k * BSIZE)).sum := by
  have hroot : need (rootLength (thirty blocks)) = 1 := by
    rw [rootLength, length_thirty]
    decide
  rw [total, hroot, thirty, List.map_map]
  simp only [Function.comp_def, length_sample]

theorem thirty_fit (hb : ∀ k, blocks k ≤ MAXFILE) (ht : total (thirty blocks) ≤ FSSIZE) :
    Fit (thirty blocks) := by
  have hname : ∀ k : Fin 30, slash ∉ [UInt8.ofNat (65 + k.1)] := by decide
  refine ⟨fun f hf => ?_, fun f hf => ?_, ht⟩
  · obtain ⟨k, _, rfl⟩ := List.mem_map.1 hf
    exact hname k
  · obtain ⟨k, _, rfl⟩ := List.mem_map.1 hf
    rw [length_sample]
    exact Nat.mul_le_mul_right _ (hb k)

end Thirty

theorem thirty_inconsistent :
    ∃ s, mkfs (thirty fun _ => 0) = .ret s ∧ ¬Consistent s.disk := by
  have hn : (thirty fun _ => 0).length + 2 ≤ NINODES := by
    rw [length_thirty]
    decide
  have hslots := Nat.le_trans hn (by decide : NINODES ≤ inodeSlots)
  obtain ⟨s, h⟩ := mkfs_finishes hslots (thirty_fit (fun _ => Nat.zero_le _) (by
    rw [total_thirty]
    decide))
  refine ⟨s, h, ?_⟩
  rw [(mkfs_final hslots h).consistent_iff hn, length_thirty]
  decide

end Xv6.Mkfs
