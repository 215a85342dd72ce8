import Xv6.Disk.Linking

/-!
# A directory that is full

From an image that `mkfs` makes, links of one file fill the root directory: 4480 entries in 140
blocks. The disk still has blocks and inodes, but there is no room for another entry.
-/

namespace Xv6.Disk
open Lib

section Slots

variable {sb : Superblock} {dnum inum : ℕ} {d d' : Sectors} {x : List UInt8}

def allSlots : Finset Slot := insert .ind ((Finset.range MAXFILE).image Slot.data)

theorem card_allSlots : allSlots.card ≤ MAXFILE + 1 := by
  have hinsert := Finset.card_insert_le Slot.ind ((Finset.range MAXFILE).image Slot.data)
  have himage : ((Finset.range MAXFILE).image Slot.data).card ≤ (Finset.range MAXFILE).card :=
    Finset.card_image_le
  rw [Finset.card_range] at himage
  unfold allSlots
  omega

theorem mem_allSlots {sl : Slot} (h : sl.Valid) : sl ∈ allSlots := by
  cases sl with
  | ind => exact Finset.mem_insert_self _ _
  | data j =>
    exact Finset.mem_insert_of_mem (Finset.mem_image.2 ⟨j, Finset.mem_range.2 h, rfl⟩)

theorem Linked.balance (h : Linked sb dnum d x inum d') :
    (freeBlocks sb d').card + missing (block d (inodeOf sb d dnum)) allSlots =
      (freeBlocks sb d).card + missing (block d' (inodeOf sb d' dnum)) allSlots := by
  obtain ⟨k, hfilled⟩ := h.filled
  have hsub : slots (direntSize * k) direntSize ⊆ allSlots := by
    intro sl hsl
    have hne : block d' (inodeOf sb d' dnum) sl ≠ 0 := fun h0 =>
      ((hfilled.empty sl).1 h0).2 hsl
    exact mem_allSlots (valid_of_block hne)
  have hunion := missing_union hfilled.empty allSlots
  rw [Finset.union_eq_right.2 hsub] at hunion
  have hcount := hfilled.count
  omega

end Slots

section Filling

open Mkfs hiding sb slash need

def fullLength : ℕ := MAXFILE * BSIZE / direntSize

def linkName (j : ℕ) : List UInt8 := [66, .ofNat (j / 100 + 100), .ofNat (j % 100 + 100)]

structure Crowd (d : Sectors) (n : ℕ) : Prop where
  directory : Directory Mkfs.sb ROOTINO d
  file : (inodeOf Mkfs.sb d 2).type = T_FILE
  spare : (inodeOf Mkfs.sb d 3).type = 0
  used : (entries (content d (inodeOf Mkfs.sb d ROOTINO))).countP Option.isSome = n + 3
  blocks : missing (block d (inodeOf Mkfs.sb d ROOTINO)) allSlots + 500 ≤
    (freeBlocks Mkfs.sb d).card
  names : ∀ j, n ≤ j → j < fullLength → bindings Mkfs.sb ROOTINO d (key (linkName j)) = none

def linkStep (d : Sectors) (name : List UInt8) (d' : Sectors) : Prop :=
  link Mkfs.sb (fun _ => none) (fun _ => none) ROOTINO 2 name d = .ret (0, d')

theorem toNat_ofNat {a : ℕ} (h : a < 256) : (UInt8.ofNat a).toNat = a := by
  rw [UInt8.toNat_ofNat']
  exact Nat.mod_eq_of_lt h

theorem key_linkName {j : ℕ} (hj : j < fullLength) : key (linkName j) = linkName j := by
  have hfull : fullLength = 4480 := rfl
  have hbyte : ∀ a, 0 < a → a < 256 → UInt8.ofNat a ≠ 0 := by
    intro a hpos hlt h0
    have := toNat_ofNat hlt
    rw [h0] at this
    exact absurd this (Nat.ne_of_lt hpos)
  have hlen : (linkName j).length ≤ DIRSIZ := show 3 ≤ DIRSIZ by decide
  rw [key_of_nul, List.take_of_length_le hlen]
  intro hmem
  rcases List.mem_cons.1 hmem with h | hmem
  · exact absurd h (by decide)
  rcases List.mem_cons.1 hmem with h | hmem
  · exact hbyte _ (by omega) (by omega) h.symm
  · exact hbyte _ (by omega) (by omega) (List.mem_singleton.1 hmem).symm

theorem linkName_inj {i j : ℕ} (hi : i < fullLength) (hj : j < fullLength)
    (h : linkName i = linkName j) : i = j := by
  have hfull : fullLength = 4480 := rfl
  have htail := List.tail_eq_of_cons_eq h
  have hhigh := congrArg UInt8.toNat (List.head_eq_of_cons_eq htail)
  have hlow := congrArg UInt8.toNat
    (List.head_eq_of_cons_eq (List.tail_eq_of_cons_eq htail))
  rw [toNat_ofNat (by omega), toNat_ofNat (by omega)] at hhigh hlow
  omega

variable {d : Sectors} {n : ℕ}

theorem Crowd.need_le (h : Crowd d n) : need Mkfs.sb ROOTINO d ≤ (freeBlocks Mkfs.sb d).card := by
  have htwo : need Mkfs.sb ROOTINO d ≤ 2 := by
    unfold need
    split_ifs
    · exact Nat.zero_le _
    · rw [h.directory.whole]
      exact missing_entry _ _
  have := h.blocks
  omega

theorem Crowd.room (h : Crowd d n) (hn : n + 3 < fullLength) : Room Mkfs.sb ROOTINO d 0 := by
  refine ⟨?_, h.need_le⟩
  by_contra hno
  obtain ⟨hnone, hsize⟩ := not_or.1 hno
  have hall : (entries (content d (inodeOf Mkfs.sb d ROOTINO))).countP Option.isSome =
      (entries (content d (inodeOf Mkfs.sb d ROOTINO))).length := by
    refine List.countP_eq_length.2 fun e he => Option.isSome_iff_ne_none.2 ?_
    rintro rfl
    exact hnone he
  rw [h.used, length_entries, length_content] at hall
  have hle : fullLength ≤ (inodeOf Mkfs.sb d ROOTINO).size / direntSize :=
    Nat.div_le_div_right (Nat.le_of_not_lt hsize)
  omega

theorem Crowd.step (h : Crowd d n) (hn : n + 3 < fullLength) :
    ∃ d', linkStep d (linkName n) d' ∧ Crowd d' (n + 1) := by
  have hi : 2 < Mkfs.sb.ninodes := by decide
  obtain ⟨hbeside, hfree⟩ := h.directory.counted hi
  obtain ⟨d', hrun, hl⟩ := link_room (fun _ => none) (fun _ => none) h.directory hi (by decide)
    (by decide) (by rw [h.file]; decide) (by rw [h.file]; decide)
    (h.names n (Nat.le_refl n) (by omega)) (h.room hn)
  obtain ⟨k, hplace, hentries⟩ := hl.place
  have hother : ∀ i < Mkfs.sb.ninodes, i ≠ ROOTINO →
      (inodeOf Mkfs.sb d' i).type = (inodeOf Mkfs.sb d i).type := by
    intro i hlt hne
    rw [(hl.others i hlt hne).1]
    unfold counted
    rw [inodeOf_put (linkedInode_fits _ _ _)]
    by_cases h2 : i = 2
    · subst h2
      rw [Function.update_self]
      rfl
    · rw [Function.update_of_ne h2]
  refine ⟨d', hrun, hl.directory, ?_, ?_, ?_, ?_, fun j hnj hj => ?_⟩
  · rw [hother 2 (by decide) (by decide), h.file]
  · rw [hother 3 (by decide) (by decide), h.spare]
  · have hslot := ((hbeside.directory h.directory).place hplace).2
    rw [hentries, SlotMap.countP_put hslot, hbeside.bytes, h.used]
  · have hbal := hl.balance
    have hblocks := h.blocks
    rw [hbeside.blocks, hfree] at hbal
    omega
  · rw [hl.bindings, Function.update_of_ne, hbeside.bindings]
    · exact h.names j (by omega) hj
    · rw [key_linkName hj, key_linkName (by omega)]
      intro he
      have := linkName_inj hj (by omega) he
      omega

theorem Crowd.run (h : Crowd d 0) (hn : n + 3 ≤ fullLength) :
    ∃ log d', Runs linkStep d log d' ∧ Crowd d' n := by
  induction n with
  | zero => exact ⟨[], d, .nil d, h⟩
  | succ n ih =>
    obtain ⟨log, d₁, hrun, hc⟩ := ih (by omega)
    obtain ⟨d', hstep, hc'⟩ := hc.step (by omega)
    exact ⟨_, d', .snoc hrun hstep, hc'⟩

theorem linkName_notMem (j v : ℕ) : (linkName j, v) ∉ rootNames [sample 0 1] := by
  have hnames : (rootNames [sample 0 1]).map Prod.fst = [[46], [46, 46], [65]] := by decide
  intro hmem
  have hfst := List.mem_map_of_mem (f := Prod.fst) hmem
  rw [hnames] at hfst
  simp [linkName] at hfst

theorem card_freeBlocks {files : List Input} {s : St} (h : Final files s) :
    FSSIZE - total files ≤ (freeBlocks Mkfs.sb s.disk).card := by
  rw [← Nat.card_Ico]
  refine Finset.card_le_card fun b hb => ?_
  obtain ⟨hlo, hhi⟩ := Finset.mem_Ico.1 hb
  refine mem_freeBlocks.2 ⟨hhi, ?_⟩
  rw [← Bool.not_eq_false, isFree_iff h hhi]
  exact Nat.not_lt.2 hlo

theorem Crowd.image {s : St} (h : Final [sample 0 1] s) : Crowd s.disk 0 := by
  have hroot : ([sample 0 1].length + 2) % (BSIZE / direntSize) ≠ 0 := by decide
  have hdir := root_directory sample_valid h hroot
  have hentries := (whole_image h sample_valid.inodes hroot).entries sample_valid.inodes
  refine ⟨hdir, ?_, ?_, ?_, ?_, fun j _ hj => ?_⟩
  · rw [inodeOf_of_lt (by decide), h.file 0 _ rfl]
    rfl
  · rw [inodeOf_of_lt (by decide), h.others 3 (by decide)]
    rfl
  · rw [hentries, List.countP_append, List.countP_map, List.countP_replicate]
    simp [Function.comp_def, length_rootNames]
  · have hmissing : missing (block s.disk (inodeOf Mkfs.sb s.disk ROOTINO)) allSlots ≤
        MAXFILE + 1 := (Finset.card_filter_le _ _).trans card_allSlots
    have hfree := card_freeBlocks h
    rw [total, List.map_singleton, length_sample] at hfree
    have hused : nmeta + Mkfs.need (rootLength [sample 0 1]) +
        [Mkfs.need (1 * BSIZE)].sum = 61 := by decide
    rw [hused] at hfree
    have hM : MAXFILE = 140 := rfl
    have hF : FSSIZE = 1000 := rfl
    omega
  · cases hb : bindings Mkfs.sb ROOTINO s.disk (key (linkName j)) with
    | none => rfl
    | some v =>
      rw [bindings, SlotMap.get_eq_some_iff hdir.distinct, hentries, key_linkName hj] at hb
      obtain ⟨k, hk⟩ := hb
      have hmem := List.mem_of_getElem? (SlotMap.getElem?_filled.1 hk)
      exact absurd hmem (linkName_notMem j v)

theorem Crowd.full (h : Crowd d n) (hn : n + 3 = fullLength) :
    none ∉ entries (content d (inodeOf Mkfs.sb d ROOTINO)) ∧
      (inodeOf Mkfs.sb d ROOTINO).size = MAXFILE * BSIZE := by
  have hlen : (entries (content d (inodeOf Mkfs.sb d ROOTINO))).length =
      (inodeOf Mkfs.sb d ROOTINO).size / direntSize := by rw [length_entries, length_content]
  have hcount : (entries (content d (inodeOf Mkfs.sb d ROOTINO))).countP Option.isSome ≤
      (entries (content d (inodeOf Mkfs.sb d ROOTINO))).length := List.countP_le_length
  have hsmall := Nat.div_le_div_right (c := direntSize) h.directory.at.small
  have hwhole := h.directory.whole
  rw [h.used, hlen, hn] at hcount
  have hend : (inodeOf Mkfs.sb d ROOTINO).size / direntSize = fullLength :=
    Nat.le_antisymm hsmall hcount
  refine ⟨fun hmem => ?_, by rw [hwhole, hend]; rfl⟩
  have hall := List.countP_eq_length.1 (h.used.trans (by rw [hlen, hend, hn])) none hmem
  cases hall

end Filling

section Clean

open Mkfs hiding sb slash need

variable {sb : Superblock} {devread : ℕ → Option (ℕ → List UInt8)}
  {devwrite : ℕ → Option (List UInt8 → ℕ)} {dnum : ℕ} {d : Sectors} {name : List UInt8}

/-- A call for a new name returns cleanly exactly when there is room for the entry. -/
theorem linking_clean_iff (h : Directory sb dnum d) (hn : sb.ninodes ≤ 65536) (hdpos : 1 ≤ dnum)
    (hfree : ∃ i < sb.ninodes, 1 ≤ i ∧ (inodeOf sb d i).type = 0)
    (hblock : 1 ≤ (freeBlocks sb d).card) (hm : bindings sb dnum d (key name) = none)
    (c : NewEntry) (hc : c.Valid sb d) :
    Clean sb dnum d name (newEntry sb devread devwrite dnum name c d) ↔
      Room sb dnum d c.extra := by
  constructor
  · intro hclean
    by_contra hno
    rw [newEntry_noRoom devread devwrite h hn hdpos hfree hblock hm hc hno] at hclean
    obtain ⟨ok, d', hrun, -⟩ := hclean
    cases hrun
  · intro hroom
    obtain ⟨inum, d', hrun, hbind⟩ :=
      newEntry_room devread devwrite h hn hdpos hfree hblock hm hc hroom
    exact ⟨true, d', hrun, inum, hbind⟩

/-- A device in the root directory of an image. -/
theorem linking_clean_image : ∃ d, Directory Mkfs.sb ROOTINO d ∧
    Clean Mkfs.sb ROOTINO d (linkName 0)
      (newEntry Mkfs.sb (fun _ => none) (fun _ => none) ROOTINO (linkName 0)
        (.create T_DEV 1 1) d) := by
  obtain ⟨s, hs⟩ := exists_image
  have hc := Crowd.image hs
  have hblock : 1 ≤ (freeBlocks Mkfs.sb s.disk).card := by
    have := hc.blocks
    omega
  have hname : bindings Mkfs.sb ROOTINO s.disk (key (linkName 0)) = none :=
    hc.names 0 (Nat.le_refl 0) (by decide)
  have hvalid : (NewEntry.create T_DEV 1 1).Valid Mkfs.sb s.disk :=
    ⟨by decide, by decide, by decide, by decide⟩
  exact ⟨s.disk, hc.directory, (linking_clean_iff hc.directory (by decide) (by decide)
    ⟨3, by decide, by decide, hc.spare⟩ hblock hname _ hvalid).2 (hc.room (by decide))⟩

/-- The root directory is full: there are free blocks and a free inode, but `dirlink` panics, and
so does `create`. -/
theorem dirlink_full : ∃ s log d, Final [sample 0 1] s ∧ Runs linkStep s.disk log d ∧
    Directory Mkfs.sb ROOTINO d ∧ (inodeOf Mkfs.sb d ROOTINO).size = MAXFILE * BSIZE ∧
    500 ≤ (freeBlocks Mkfs.sb d).card ∧ (inodeOf Mkfs.sb d 3).type = 0 ∧
    bindings Mkfs.sb ROOTINO d (key (linkName 4477)) = none ∧
    newEntry Mkfs.sb (fun _ => none) (fun _ => none) ROOTINO (linkName 4477) (.dirlink 2) d =
      .panic "dirlink" ∧
    newEntry Mkfs.sb (fun _ => none) (fun _ => none) ROOTINO (linkName 4477)
      (.create T_FILE 0 0) d = .panic "dirlink" := by
  obtain ⟨s, hs⟩ := exists_image
  obtain ⟨log, d, hrun, hc⟩ := (Crowd.image hs).run (n := 4477) (by decide)
  obtain ⟨hnone, hsize⟩ := hc.full rfl
  have hname : bindings Mkfs.sb ROOTINO d (key (linkName 4477)) = none :=
    hc.names 4477 (Nat.le_refl _) (by decide)
  have hplace : ¬(none ∈ entries (content d (inodeOf Mkfs.sb d ROOTINO)) ∨
      (inodeOf Mkfs.sb d ROOTINO).size < MAXFILE * BSIZE) := by
    rw [hsize]
    exact not_or.2 ⟨hnone, Nat.lt_irrefl _⟩
  have hblocks : 500 ≤ (freeBlocks Mkfs.sb d).card := by
    have := hc.blocks
    omega
  have hpanic : ∀ c : NewEntry, c.Valid Mkfs.sb d →
      newEntry Mkfs.sb (fun _ => none) (fun _ => none) ROOTINO (linkName 4477) c d =
        .panic "dirlink" := by
    intro c hvalid
    rw [newEntry_noRoom _ _ hc.directory (by decide) (by decide) ⟨3, by decide, by decide, hc.spare⟩
      (by omega) hname hvalid fun hroom => hplace hroom.place, failure, if_neg hplace]
  exact ⟨s, log, d, hs, hrun, hc.directory, hsize, hblocks, hc.spare, hname,
    hpanic _ ⟨by decide, by decide⟩, hpanic _ ⟨by decide, by decide, by decide, by decide⟩⟩

end Clean

end Xv6.Disk
