import Xv6.Disk.Files
import Xv6.Mkfs.Consistent

/-!
# A disk that `mkfs` has made

A consistent image is a disk that the kernel can work on.
-/

namespace Xv6.Disk
open Lib
open Mkfs hiding sb

section Sound

variable {sb : Superblock} {d : Sectors}

def FreeEmpty (sb : Superblock) (d : Sectors) : Prop :=
  ∀ i < sb.ninodes, (inodeOf sb d i).type = 0 → ∀ sl : Slot, sl.Valid →
    addr d (inodeOf sb d i) sl = 0

theorem cell_eq (h : FreeEmpty sb d) {i : ℕ} {sl : Slot} (hi : i < sb.ninodes) (hv : sl.Valid) :
    cell sb d (inodeOf sb d) (i, sl) = addr d (inodeOf sb d i) sl := by
  unfold cell
  by_cases ht : (inodeOf sb d i).type = 0
  · rw [if_neg fun hh => hh.2 ht, h i hi ht sl hv]
  · rw [if_pos ⟨hi, ht⟩]
    exact if_pos hv

theorem live_of_cell {c : ℕ × Slot} (h : cell sb d (inodeOf sb d) c ≠ 0) :
    c.1 < sb.ninodes ∧ c.2.Valid := by
  unfold cell at h
  split_ifs at h with hlive
  · exact ⟨hlive.1, valid_of_block h⟩
  · exact absurd rfl h

theorem alloc_of_sound (hw : sb.Wf) (h : Sound sb d) (hfree : FreeEmpty sb d) :
    Alloc sb d (inodeOf sb d) := by
  have hpos : ∀ b ∈ area sb, 0 < b := by
    intro b hb
    obtain ⟨hlo, hhi⟩ := Finset.mem_Ico.1 hb
    have := hw.bitmap 0 (by omega)
    omega
  have harea : ∀ i sl, cell sb d (inodeOf sb d) (i, sl) ≠ 0 →
      cell sb d (inodeOf sb d) (i, sl) ∈ area sb := by
    intro i sl hne
    obtain ⟨hi, hv⟩ := live_of_cell hne
    rw [cell_eq hfree hi hv] at hne ⊢
    exact Finset.mem_Ico.2 (h.area i hi sl hv hne)
  refine ⟨fun h0 => Nat.lt_irrefl 0 (hpos 0 h0), fun c hne => harea c.1 c.2 hne,
    fun c c' hne he => ?_, fun b => ?_⟩
  · obtain ⟨hi, hv⟩ := live_of_cell hne
    obtain ⟨hi', hv'⟩ := live_of_cell (he ▸ hne)
    rw [cell_eq hfree hi hv] at hne he
    rw [cell_eq hfree hi' hv'] at he
    obtain ⟨h1, h2⟩ := h.distinct c.1 hi c'.1 hi' c.2 c'.2 hv hv' hne he
    exact Prod.ext h1 h2
  · rw [mem_freeBlocks]
    constructor
    · rintro ⟨hb, hbit⟩
      have hnot := mt (h.bitmap b hb).2 (by rw [hbit]; decide)
      rw [not_or] at hnot
      have hmem : b ∈ area sb := Finset.mem_Ico.2 ⟨Nat.le_of_not_lt hnot.1, hb⟩
      refine ⟨hmem, fun c hc => hnot.2 ?_⟩
      have hne : cell sb d (inodeOf sb d) c ≠ 0 := by
        rw [hc]
        exact Nat.ne_of_gt (hpos b hmem)
      obtain ⟨hi, hv⟩ := live_of_cell hne
      exact ⟨c.1, hi, c.2, hv, (cell_eq hfree hi hv).symm.trans hc⟩
    · rintro ⟨hmem, hcell⟩
      obtain ⟨hlo, hb⟩ := Finset.mem_Ico.1 hmem
      refine ⟨hb, ?_⟩
      rw [← Bool.not_eq_false]
      intro hused
      rcases (h.bitmap b hb).1 hused with hlt | ⟨i, hi, sl, hv, ha⟩
      · exact absurd hlo (Nat.not_le.2 hlt)
      · exact hcell (i, sl) ((cell_eq hfree hi hv).trans ha)

theorem blockInv_of_sound (hw : sb.Wf) (h : Sound sb d) (hfree : FreeEmpty sb d)
    (hsize : ∀ i < sb.ninodes, (inodeOf sb d i).size ≤ MAXFILE * BSIZE) : BlockInv sb d := by
  refine ⟨hw, alloc_of_sound hw h hfree, fun i hi _ bn hbn => ?_⟩
  have hlt : bn < MAXFILE :=
    Nat.lt_of_mul_lt_mul_right (Nat.lt_of_lt_of_le hbn (hsize i hi))
  rw [block_data hlt]
  exact h.mapped i hi bn hbn

end Sound

section Image

variable {files : List Input} {s : St}

theorem sb_wf : Mkfs.sb.Wf := by
  refine ⟨fun i hi => ?_, fun b hb => ?_, by decide⟩
  · change i / 8 + 32 < 58
    change i < 200 at hi
    omega
  · change b / 4096 + 58 < 59
    change b < 1000 at hb
    omega

theorem inodeOf_of_lt {i : ℕ} (hi : i < Mkfs.sb.ninodes) :
    inodeOf Mkfs.sb s.disk i = table s.disk i :=
  inodeOf_eq (Nat.lt_trans hi (by decide))

theorem Final.blockInv (h : Final files s) (hn : files.length + 2 ≤ NINODES)
    (hroot : (files.length + 2) % (BSIZE / direntSize) ≠ 0) : BlockInv Mkfs.sb s.disk := by
  have hsound := (h.consistent_iff hn).2 hroot
  unfold Consistent at hsound
  rw [h.superblock] at hsound
  have hcases : ∀ i < Mkfs.sb.ninodes, inodeOf Mkfs.sb s.disk i = Dinode.zero ∨
      (inodeOf Mkfs.sb s.disk i).type ≠ 0 ∧
        (inodeOf Mkfs.sb s.disk i).size ≤ MAXFILE * BSIZE := by
    intro i hi
    rw [inodeOf_of_lt hi]
    by_cases hin : i = 0 ∨ files.length + 2 ≤ i
    · exact .inl (h.others i hin)
    right
    by_cases hi1 : i = ROOTINO
    · rw [hi1, h.root]
      refine ⟨show T_DIR ≠ 0 by decide, ?_⟩
      change (direntSize * (files.length + 2) / BSIZE + 1) * BSIZE ≤ 71680
      rw [direntSize, BSIZE]
      rw [show NINODES = 200 from rfl] at hn
      omega
    · obtain ⟨k, rfl⟩ : ∃ k, i = 2 + k := ⟨i - 2, by rw [ROOTINO] at hi1; omega⟩
      have hk : files[k]? = some files[k] := List.getElem?_eq_getElem (by omega)
      rw [h.file k _ hk]
      exact ⟨show T_FILE ≠ 0 by decide, h.sizes _ (List.mem_of_getElem? hk)⟩
  refine blockInv_of_sound sb_wf hsound (fun i hi ht sl hv => ?_) fun i hi => ?_
  · rcases hcases i hi with h0 | ⟨hne, -⟩
    · rw [h0]
      cases sl with
      | ind => rfl
      | data j => simp [addr, Dinode.zero]
    · exact absurd ht hne
  · rcases hcases i hi with h0 | ⟨-, hle⟩
    · rw [h0]
      exact Nat.zero_le _
    · exact hle

theorem byte_image (h : Final files s) (hn : files.length + 2 ≤ NINODES) {i a : ℕ} (h1 : 1 ≤ i)
    (hi : i < files.length + 2) (ha : a / BSIZE < blocksOf (contents files i).length) :
    block s.disk (inodeOf Mkfs.sb s.disk i) (.data (a / BSIZE)) ≠ 0 ∧
      byteAt s.disk (inodeOf Mkfs.sb s.disk i) a = (contents files i).getD a 0 := by
  obtain ⟨own, hl⟩ := h.layout
  have hused : Used (files.length + 2) (contents files) i (.data (a / BSIZE)) := ⟨h1, hi, ha⟩
  have hvalid : a / BSIZE < MAXFILE := hl.valid _ _ hused
  have hbyte := hl.content i (a / BSIZE) hused (a % BSIZE) (Nat.mod_lt _ (by decide))
  rw [Nat.div_add_mod] at hbyte
  rw [inodeOf_of_lt (show i < NINODES by omega), byteAt, block_data hvalid]
  exact ⟨hl.ne_zero hused, hbyte⟩

theorem content_image (h : Final files s) (hn : files.length + 2 ≤ NINODES) {k : ℕ} {f : Input}
    (hk : files[k]? = some f) :
    content s.disk (inodeOf Mkfs.sb s.disk (2 + k)) = f.bytes := by
  have hlt := (List.getElem?_eq_some_iff.1 hk).1
  have hi : 2 + k < Mkfs.sb.ninodes := by
    change 2 + k < NINODES
    omega
  have hlen : (inodeOf Mkfs.sb s.disk (2 + k)).size = f.bytes.length := by
    rw [inodeOf_of_lt hi, h.file k f hk]
    rfl
  apply List.ext_getElem?
  intro a
  rw [getElem?_content, hlen]
  by_cases ha : a < f.bytes.length
  · have hblock : a / BSIZE < blocksOf (contents files (2 + k)).length := by
      rw [contents_file hk, blocksOf, BSIZE]
      omega
    rw [if_pos ha, (byte_image h hn (by omega) (by omega) hblock).2, contents_file hk,
      List.getD_eq_getElem?_getD, List.getElem?_eq_getElem ha]
    rfl
  · rw [if_neg ha, List.getElem?_eq_none (Nat.le_of_not_lt ha)]

end Image

section Contents

variable {sb : Superblock} {d : Sectors} {inum : ℕ}

theorem exists_image : ∃ s, Final [sample 0 1] s := by
  have hfit : Fit [sample 0 1] := by
    refine ⟨?_, ?_, ?_⟩
    · intro f hf
      rw [List.mem_singleton.1 hf]
      decide
    · intro f hf
      rw [List.mem_singleton.1 hf, length_sample]
      decide
    · rw [total, List.map_singleton, length_sample]
      decide
  obtain ⟨s, hs⟩ := mkfs_finishes (by decide) hfit
  exact ⟨s, mkfs_final (by decide) hs⟩

end Contents

end Xv6.Disk
