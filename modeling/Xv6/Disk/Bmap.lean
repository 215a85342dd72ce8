import Xv6.Disk.Blocks

/-!
# `bmap`

The slots that `bmap` needs for a block of a file are the block's own and, behind the direct
ones, that of the indirect block. `bmap` fills those that are empty and answers what is in the
first; it fails exactly when there are fewer free blocks than empty slots.
-/

namespace Xv6.Disk
open Lib

def slotsOf (bn : ℕ) : Finset Slot :=
  if bn < NDIRECT then {.data bn} else {.ind} ∪ {.data bn}

def DataKept (d : Sectors) (ip : Dinode) (d' : Sectors) : Prop :=
  ∀ j, block d ip (.data j) ≠ 0 → d' (block d ip (.data j)) = d (block d ip (.data j))

variable {sb : Superblock} {d d' : Sectors} {T : ℕ → Dinode} {ip ip' : Dinode}
  {inum j k b s bn : ℕ} {sl : Slot}

section Place

theorem mark_frame (hb : b ∈ freeBlocks sb d) (hs : ¬Touched sb d ip s) : mark sb d b s = d s := by
  refine mark_of_ne (fun e => hs (.inr (.inl ⟨b, ?_, e⟩))) fun e => hs (.inl (e ▸ hb))
  exact (mem_freeBlocks.1 hb).1

theorem mark_block (h : Held sb T inum d ip) (hb : b ∈ freeBlocks sb d)
    (hne : block d ip sl ≠ 0) : mark sb d b (block d ip sl) = d (block d ip sl) := by
  refine mark_of_ne (fun e => ?_) fun e => h.not_free sl (e ▸ hb)
  exact BBLOCK_notMem h.wf (mem_freeBlocks.1 hb).1 (e ▸ h.mem_area hne)

theorem place_direct (h : Held sb T inum d ip) (hk : k < NDIRECT) (hb : b ∈ freeBlocks sb d)
    (h0 : ip.addrs k = 0) :
    Extends sb T inum d ip {.data k} (mark sb d b)
      { ip with addrs := Function.update ip.addrs k b } := by
  have hind : Function.update ip.addrs k b NDIRECT = ip.addrs NDIRECT :=
    Function.update_of_ne (Nat.ne_of_gt hk) _ _
  refine .place h hb ((block_direct hk).trans h0) rfl
    (fun i hi => Function.update_of_ne (by omega) _ _) ?_ (fun x hx => ?_)
    (freeBlocks_mark h.wf (h.alloc.mem_area hb)) fun s hs => mark_frame hb hs
  · rw [block_direct hk]
    exact Function.update_self _ _ _
  · have hold : block d { ip with addrs := Function.update ip.addrs k b } x = block d ip x := by
      cases x with
      | ind => exact hind
      | data i =>
        have hik : i ≠ k := fun e => hx (e ▸ rfl)
        simp only [block, addr, hind, Function.update_of_ne hik]
    rw [← hold]
    refine block_congr fun hne => ?_
    change Function.update ip.addrs k b NDIRECT ≠ 0 at hne
    change mark sb d b (Function.update ip.addrs k b NDIRECT) =
      d (Function.update ip.addrs k b NDIRECT)
    rw [hind, ← block_ind d ip] at hne ⊢
    exact mark_block h hb hne

theorem place_ind (h : Held sb T inum d ip) (hb : b ∈ freeBlocks sb d)
    (h0 : ip.addrs NDIRECT = 0) :
    Extends sb T inum d ip {.ind} (mark sb d b)
      { ip with addrs := Function.update ip.addrs NDIRECT b } := by
  refine .place h hb h0 rfl (fun i hi => Function.update_of_ne (by omega) _ _) ?_ (fun x hx => ?_)
    (freeBlocks_mark h.wf (h.alloc.mem_area hb)) fun s hs => mark_frame hb hs
  · exact Function.update_self NDIRECT b ip.addrs
  · cases x with
    | ind => exact absurd rfl hx
    | data i =>
      -- the new indirect block has no entries
      simp only [block, addr, Function.update_self, h0, if_true, mark_self]
      by_cases hi : i < NDIRECT
      · simp only [if_pos hi, Function.update_of_ne (Nat.ne_of_lt hi)]
      · rw [if_neg hi, if_neg hi, if_neg (h.alloc.ne_zero hb)]
        rfl

theorem block_entry (a : Bytes) (hlo : NDIRECT ≤ j) (hj : j < MAXFILE) (hind : ip.addrs NDIRECT ≠ 0)
    (hb : b < 2 ^ 32) : block (Function.update d (ip.addrs NDIRECT)
      (a.write32 (4 * (j - NDIRECT)) b)) ip (.data j) = b := by
  rw [block_data hj, addr, if_neg (by omega), if_neg hind, Function.update_self,
    Bytes.read32_write32, Nat.mod_eq_of_lt hb]

theorem place_entry (h : Held sb T inum d ip) (hlo : NDIRECT ≤ j) (hj : j < MAXFILE)
    (hind : ip.addrs NDIRECT ≠ 0) (hb : b ∈ freeBlocks sb d) (h0 : block d ip (.data j) = 0) :
    Extends sb T inum d ip {.data j} (Function.update (mark sb d b) (ip.addrs NDIRECT)
      ((d (ip.addrs NDIRECT)).write32 (4 * (j - NDIRECT)) b)) ip := by
  refine .place h hb h0 rfl (fun _ _ => rfl) (block_entry _ hlo hj hind (h.small hb))
    (fun x hx => ?_) ?_ fun s hs => ?_
  · cases x with
    | ind => rfl
    | data i =>
      have hij : i ≠ j := fun e => hx (e ▸ rfl)
      simp only [block, addr, if_neg hind, Function.update_self]
      by_cases hi : i < NDIRECT
      · rw [if_pos hi, if_pos hi]
      · rw [if_neg hi, if_neg hi, Bytes.read32_write32_of_disjoint _ _ (by omega)]
  · rw [← freeBlocks_mark h.wf (h.alloc.mem_area hb)]
    refine freeBlocks_congr fun c hc => Function.update_of_ne (fun e => ?_) _ _
    exact BBLOCK_notMem h.wf hc (e ▸ h.ind_mem_area hind)
  · have hne : s ≠ ip.addrs NDIRECT := fun e => hs (.inr (.inr ⟨.ind, hind, e.symm⟩))
    rw [Function.update_of_ne hne]
    exact mark_frame hb hs

end Place

inductive Maps (sb : Superblock) (T : ℕ → Dinode) (inum : ℕ) (d : Sectors) (ip : Dinode) (bn : ℕ)
    (N : Finset Slot) : Outcome ((Dinode × ℕ) × Sectors) → Prop
  | mapped {d' : Sectors} {ip' : Dinode} (h : Extends sb T inum d ip N d' ip')
      (hdata : DataKept d ip d') : Maps sb T inum d ip bn N
        (.ret ((ip', block d' ip' (.data bn)), d'))
  | full (h : (freeBlocks sb d).card < missing (block d ip) N) :
      Maps sb T inum d ip bn N (.panic "balloc: out of blocks")

section Bmap

theorem Maps.of_full {N : Finset Slot} (hempty : freeBlocks sb d = ∅) (hsl : sl ∈ N)
    (h0 : block d ip sl = 0) : Maps sb T inum d ip bn N (.panic "balloc: out of blocks") := by
  refine .full ?_
  rw [hempty, Finset.card_empty]
  exact missing_pos hsl h0

theorem Maps.after {N M : Finset Slot} {o : Outcome ((Dinode × ℕ) × Sectors)}
    (h : Extends sb T inum d ip N d' ip') (hdata : DataKept d ip d')
    (hm : Maps sb T inum d' ip' bn M o) : Maps sb T inum d ip bn (N ∪ M) o := by
  cases hm with
  | mapped h' hdata' =>
    refine .mapped (h.trans h') fun i hne => ?_
    have hkept := h.filled.kept _ hne
    have := hdata' i (by rwa [hkept])
    rw [hkept] at this
    rw [this, hdata i hne]
  | full hfull =>
    refine .full ?_
    have hcount := h.filled.count
    rw [missing_union h.filled.empty]
    omega

theorem mark_data (h : Held sb T inum d ip) (hb : b ∈ freeBlocks sb d) :
    DataKept d ip (mark sb d b) := fun _ hne => mark_block h hb hne

def bmapEntry (sb : Superblock) (bn : ℕ) (ip : Dinode) : K (Dinode × ℕ) := do
  let a ← .read fun d => d (ip.addrs NDIRECT)
  if a.read32 (4 * (bn - NDIRECT)) = 0 then do
    let addr ← balloc sb
    .modify fun d => Function.update d (ip.addrs NDIRECT) (a.write32 (4 * (bn - NDIRECT)) addr)
    return (ip, addr)
  else return (ip, a.read32 (4 * (bn - NDIRECT)))

theorem bmapEntry_spec (h : Held sb T inum d ip) (hlo : NDIRECT ≤ bn) (hbn : bn < MAXFILE)
    (hind : ip.addrs NDIRECT ≠ 0) :
    Maps sb T inum d ip bn {.data bn} (bmapEntry sb bn ip d) := by
  have hread : block d ip (.data bn) = (d (ip.addrs NDIRECT)).read32 (4 * (bn - NDIRECT)) := by
    rw [block_data hbn, addr, if_neg (by omega), if_neg hind]
  unfold bmapEntry
  rw [Prog.bind_apply, Prog.read_apply, Outcome.ret_bind, ← hread]
  by_cases h0 : block d ip (.data bn) = 0
  · rw [if_pos h0]
    rcases balloc_run sb d with ⟨hempty, hrun⟩ | ⟨b, hb, hrun⟩
    · rw [Prog.bind_apply, hrun]
      exact .of_full hempty (Finset.mem_singleton_self _) h0
    · have hret : Maps sb T inum d ip bn _ _ := .mapped (place_entry h hlo hbn hind hb h0)
        fun i hne => ?_
      · rw [block_entry _ hlo hbn hind (h.small hb)] at hret
        rw [Prog.bind_of_ret hrun]
        exact hret
      · have hentry : block d ip (.data i) ≠ ip.addrs NDIRECT := by
          rw [← block_ind d ip]
          intro e
          cases h.injective hne e
        rw [Function.update_of_ne hentry]
        exact mark_block h hb hne
  · rw [if_neg h0]
    exact .mapped (.refl h fun sl hsl => Finset.mem_singleton.1 hsl ▸ h0) fun _ _ => rfl

theorem bmap_indirect (hlo : NDIRECT ≤ bn) (hbn : bn < MAXFILE) : bmap sb ip bn =
    (if ip.addrs NDIRECT = 0 then do
        let addr ← balloc sb
        pure { ip with addrs := Function.update ip.addrs NDIRECT addr }
      else pure ip) >>= bmapEntry sb bn := by
  have hM : MAXFILE = NDIRECT + NINDIRECT := rfl
  unfold bmap
  rw [if_neg (by omega), if_pos (by omega)]
  rfl

theorem bmap_spec (h : Held sb T inum d ip) (hbn : bn < MAXFILE) :
    Maps sb T inum d ip bn (slotsOf bn) (bmap sb ip bn d) := by
  unfold slotsOf
  by_cases hdirect : bn < NDIRECT
  · rw [if_pos hdirect, bmap, if_pos hdirect]
    have hread : block d ip (.data bn) = ip.addrs bn := block_direct hdirect
    by_cases h0 : ip.addrs bn = 0
    · rw [if_pos h0]
      rcases balloc_run sb d with ⟨hempty, hrun⟩ | ⟨b, hb, hrun⟩
      · rw [Prog.bind_apply, hrun]
        exact .of_full hempty (Finset.mem_singleton_self _) (hread.trans h0)
      · have hret : Maps sb T inum d ip bn _ _ :=
          .mapped (place_direct h hdirect hb h0) (mark_data h hb)
        rw [block_direct hdirect] at hret
        simp only [Function.update_self] at hret
        rw [Prog.bind_of_ret hrun]
        exact hret
    · rw [if_neg h0, ← hread]
      exact .mapped (.refl h fun sl hsl => Finset.mem_singleton.1 hsl ▸ hread ▸ h0) fun _ _ => rfl
  · have hlo := Nat.le_of_not_lt hdirect
    rw [if_neg hdirect, bmap_indirect hlo hbn]
    by_cases h0 : ip.addrs NDIRECT = 0
    · rw [if_pos h0]
      rcases balloc_run sb d with ⟨hempty, hrun⟩ | ⟨b, hb, hrun⟩
      · rw [Prog.bind_apply, Prog.bind_apply, hrun]
        exact .of_full hempty (Finset.mem_union_left _ (Finset.mem_singleton_self _)) h0
      · have hext := place_ind h hb h0
        have hind : Function.update ip.addrs NDIRECT b NDIRECT ≠ 0 := by
          rw [Function.update_self]
          exact h.alloc.ne_zero hb
        rw [Prog.bind_of_ret (Prog.bind_of_ret hrun)]
        exact .after hext (mark_data h hb) (bmapEntry_spec hext.held hlo hbn hind)
    · rw [if_neg h0, Prog.bind_of_ret rfl]
      have hext : Extends sb T inum d ip {.ind} d ip :=
        .refl h fun sl hsl => Finset.mem_singleton.1 hsl ▸ h0
      exact .after hext (fun _ _ => rfl) (bmapEntry_spec h hlo hbn h0)

end Bmap

end Xv6.Disk
