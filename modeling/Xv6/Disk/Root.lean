import Xv6.Disk.Directory
import Xv6.Disk.Mounted

/-!
# The root directory of an image

What the kernel finds in the root directory that `mkfs` has made, also when its last block is
not there.
-/

namespace Xv6.Disk
open Lib
open Mkfs hiding sb slash

structure Valid (files : List Input) : Prop where
  names : ∀ f ∈ files, f.name ≠ [] ∧ f.name ≠ [dot] ∧ f.name ≠ [dot, dot]
  distinct : (files.map fun f => f.name.take DIRSIZ).Nodup
  sizes : ∀ f ∈ files, f.bytes.length ≤ MAXFILE * BSIZE
  blocks : total files ≤ FSSIZE
  inodes : files.length + 2 ≤ NINODES

section Names

theorem Input.nul_name (f : Input) : 0 ∉ f.name := by
  unfold Input.name
  split_ifs
  · exact fun h => f.nul (List.mem_of_mem_tail h)
  · exact f.nul

theorem key_of_nul {name : List UInt8} (h : 0 ∉ name) : key name = name.take DIRSIZ := by
  apply List.takeWhile_eq_self_iff.2
  intro b hb
  rw [decide_eq_true_eq]
  rintro rfl
  exact h (List.mem_of_mem_take hb)

theorem key_name (f : Input) : key f.name = f.name.take DIRSIZ := key_of_nul (Input.nul_name f)

def rootNames (files : List Input) : List (List UInt8 × ℕ) :=
  ([dot], ROOTINO) :: ([dot, dot], ROOTINO) :: (files.zipIdx 2).map fun p => (key p.1.name, p.2)

theorem rootNames_file {files : List Input} {k : ℕ} {f : Input} (hk : files[k]? = some f) :
    (rootNames files)[2 + k]? = some (key f.name, 2 + k) := by
  rw [rootNames, Nat.add_comm 2 k, List.getElem?_cons_succ, List.getElem?_cons_succ,
    List.getElem?_map, List.getElem?_zipIdx, hk, Nat.add_comm k 2]
  rfl

theorem take_ne {name l : List UInt8} (h : name ≠ l) (hl : l.length < DIRSIZ) :
    name.take DIRSIZ ≠ l := by
  intro he
  have hlen := congrArg List.length he
  rw [List.length_take] at hlen
  rw [List.take_of_length_le (by omega)] at he
  exact h he

theorem Valid.nodup {files : List Input} (h : Valid files) :
    ((rootNames files).map Prod.fst).Nodup := by
  have hmap : ((files.zipIdx 2).map fun p => (key p.1.name, p.2)).map Prod.fst =
      files.map fun f => f.name.take DIRSIZ := by
    rw [List.map_map]
    have : (Prod.fst ∘ fun p : Input × ℕ => (key p.1.name, p.2)) =
        (fun f : Input => f.name.take DIRSIZ) ∘ Prod.fst := by
      funext p
      exact key_name p.1
    rw [this, ← List.map_map, List.zipIdx_map_fst]
  have hnot : ∀ l : List UInt8, l.length < DIRSIZ → (∀ f ∈ files, f.name ≠ l) →
      l ∉ files.map fun f => f.name.take DIRSIZ := by
    intro l hl hne hmem
    obtain ⟨f, hf, he⟩ := List.mem_map.1 hmem
    exact take_ne (hne f hf) hl he
  rw [rootNames, List.map_cons, List.map_cons, hmap, List.nodup_cons, List.nodup_cons]
  refine ⟨?_, hnot _ (by decide) fun f hf => (h.names f hf).2.2, h.distinct⟩
  intro hmem
  rcases List.mem_cons.1 hmem with he | hmem
  · exact absurd he (by decide)
  · exact hnot _ (by decide) (fun f hf => (h.names f hf).2.1) hmem

theorem slotOf_name {inum : ℕ} {name : List UInt8} (hpos : 1 ≤ inum) (hle : inum ≤ 65535)
    (hnul : 0 ∉ name) : slotOf (direntBytes inum name) = some (key name, inum) := by
  have htake : name.takeWhile (· ≠ 0) = name := by
    apply List.takeWhile_eq_self_iff.2
    intro b hb
    rw [decide_eq_true_eq]
    rintro rfl
    exact hnul hb
  have hslot := slotOf_dirent hpos hle name
  rwa [htake] at hslot

theorem entries_cons {de c : List UInt8} (hde : de.length = direntSize) :
    entries (de ++ c) = slotOf de :: entries c := by
  have hone : entries de = [slotOf de] := by
    rw [entries, hde, Nat.div_self (by decide), List.range_one, List.map_singleton, entryAt,
      Nat.mul_zero, List.drop_zero, List.take_of_length_le (Nat.le_of_eq hde)]
  rw [entries_append (by rw [hde]; decide), hone, List.singleton_append]

theorem entries_dirents (files : List Input) (n : ℕ) (hpos : 1 ≤ n)
    (hle : n + files.length ≤ 65535) :
    entries (dirents n files) = ((files.zipIdx n).map fun p => (key p.1.name, p.2)).map some := by
  induction files generalizing n with
  | nil => exact entries_zero 0
  | cons f files ih =>
    rw [List.length_cons] at hle
    rw [dirents, entries_cons (length_direntBytes _ _), slotOf_name hpos (by omega)
      (Input.nul_name f), ih (n + 1) (by omega) (by omega), List.zipIdx_cons]
    rfl

theorem entries_root {files : List Input} (hn : files.length + 2 ≤ NINODES) :
    entries (contents files ROOTINO) = (rootNames files).map some := by
  have hsmall : NINODES ≤ 65535 := by decide
  rw [contents_root, dots, List.append_assoc, entries_cons (length_direntBytes _ _),
    entries_cons (length_direntBytes _ _), entries_dirents _ _ (by decide) (by omega)]
  rfl

end Names

section Whole

variable {sb : Superblock} {devsw : ℕ → Option (ℕ → List UInt8)} {files : List Input}
  {d : Sectors} {dp : Dinode} {k : ℕ} {f : Input} {x : List UInt8}

def rootSize (files : List Input) : ℕ := (rootLength files / BSIZE + 1) * BSIZE

def spare (files : List Input) : ℕ := BSIZE / direntSize - rootLength files % BSIZE / direntSize

theorem rootSize_eq (files : List Input) :
    rootSize files = direntSize * (files.length + 2 + spare files) := by
  rw [rootSize, spare, rootLength, direntSize, BSIZE]
  omega

structure Whole (files : List Input) (d : Sectors) (dp : Dinode) : Prop where
  type : dp.type = T_DIR
  size : dp.size = rootSize files
  mapped : ∀ a < rootSize files, block d dp (.data (a / BSIZE)) ≠ 0
  bytes : ∀ a < rootSize files, byteAt d dp a = (contents files ROOTINO).getD a 0

theorem rootSize_le (hn : files.length + 2 ≤ NINODES) : rootSize files ≤ MAXFILE * BSIZE := by
  have h1 : NINODES = 200 := rfl
  have h2 : MAXFILE = 140 := by decide
  rw [rootSize, rootLength, h2, direntSize, BSIZE]
  omega

theorem Whole.at (h : Whole files d dp) (hn : files.length + 2 ≤ NINODES) :
    DirAt d dp (files.length + 2 + spare files) := by
  have heq := rootSize_eq files
  exact ⟨h.type, by rw [h.size, heq], h.size ▸ rootSize_le hn, fun a ha => h.mapped a (heq ▸ ha)⟩

theorem Whole.entries (h : Whole files d dp) (hn : files.length + 2 ≤ NINODES) :
    entries (content d dp) = (rootNames files).map some ++ List.replicate (spare files) none := by
  have hroot := length_contents_root files
  have hcontent : content d dp =
      contents files ROOTINO ++ List.replicate (direntSize * spare files) 0 := by
    apply List.ext_getElem?
    intro a
    rw [getElem?_content, h.size, List.getElem?_append, hroot, List.getElem?_replicate]
    have hsize := rootSize_eq files
    rw [Nat.mul_add] at hsize
    by_cases ha : a < rootSize files
    · rw [if_pos ha, h.bytes a ha, List.getD_eq_getElem?_getD]
      by_cases hlt : a < rootLength files
      · rw [if_pos hlt, List.getElem?_eq_getElem (hroot.symm ▸ hlt)]
        rfl
      · rw [if_neg hlt, if_pos (by rw [rootLength] at *; omega), List.getElem?_eq_none]
        · rfl
        · omega
    · rw [if_neg ha, if_neg (by rw [rootLength] at *; omega),
        if_neg (by rw [rootLength] at *; omega)]
  rw [hcontent, entries_append, entries_root hn, entries_zero]
  rw [hroot, rootLength]
  exact Nat.mul_mod_right _ _

theorem Whole.missing (h : Whole files d dp) (hn : files.length + 2 ≤ NINODES)
    {name : List UInt8} (hx : key name ∉ (rootNames files).map Prod.fst) {fuel : ℕ}
    (hk : k ≤ files.length + 2 + spare files) (hfuel : files.length + 2 + spare files < fuel + k) :
    lookupLoop sb devsw name fuel dp (direntSize * k) d = .ret ((dp, none), d) := by
  have hnone : SlotMap.findFrom (key name) k
      ((Disk.entries (content d dp)).drop k) = none := by
    apply SlotMap.findFrom_eq_none
    intro i v hi
    rw [List.getElem?_drop, h.entries hn, SlotMap.getElem?_filled] at hi
    exact hx (List.mem_map.2 ⟨_, List.mem_of_getElem? hi, rfl⟩)
  rw [lookupLoop_spec (h.at hn) (h.size.trans (rootSize_eq files)) name hk hfuel, hnone]
  rfl

end Whole

section Image

variable {devsw : ℕ → Option (ℕ → List UInt8)} {files : List Input} {s : St} {k : ℕ} {f : Input}
  {name : List UInt8}

theorem root_inode (h : Final files s) : inodeOf Mkfs.sb s.disk ROOTINO =
    fileInode T_DIR (rootSize files) (table s.disk ROOTINO).addrs := by
  rw [inodeOf_of_lt (by decide)]
  exact h.root

theorem root_type (h : Final files s) : (inodeOf Mkfs.sb s.disk ROOTINO).type = T_DIR := by
  rw [root_inode h]
  rfl

theorem root_size (h : Final files s) :
    (inodeOf Mkfs.sb s.disk ROOTINO).size = rootSize files := by
  rw [root_inode h]
  rfl

theorem root_byte (h : Final files s) (hn : files.length + 2 ≤ NINODES) {a : ℕ}
    (ha : a / BSIZE < blocksOf (rootLength files)) :
    block s.disk (inodeOf Mkfs.sb s.disk ROOTINO) (.data (a / BSIZE)) ≠ 0 ∧
      byteAt s.disk (inodeOf Mkfs.sb s.disk ROOTINO) a = (contents files ROOTINO).getD a 0 :=
  byte_image h hn (Nat.le_refl 1) (by rw [ROOTINO]; omega) (by rwa [length_contents_root])

theorem whole_image (h : Final files s) (hn : files.length + 2 ≤ NINODES)
    (hroot : (files.length + 2) % (BSIZE / direntSize) ≠ 0) :
    Whole files s.disk (inodeOf Mkfs.sb s.disk ROOTINO) := by
  have hlt : ∀ a < rootSize files, a / BSIZE < blocksOf (rootLength files) := by
    have := mt (rootLength_mod files).1 hroot
    intro a ha
    rw [rootSize] at ha
    rw [blocksOf]
    rw [BSIZE] at *
    omega
  exact ⟨root_type h, root_size h, fun a ha => (root_byte h hn (hlt a ha)).1, fun a ha =>
    (root_byte h hn (hlt a ha)).2⟩

theorem root_at (h : Final files s) (hn : files.length + 2 ≤ NINODES) :
    DirAt s.disk (inodeOf Mkfs.sb s.disk ROOTINO) (files.length + 2) := by
  have hsize := root_size h
  refine ⟨root_type h, ?_, ?_, fun a ha => (root_byte h hn ?_).1⟩
  · rw [hsize, rootSize_eq]
    exact Nat.mul_le_mul_left _ (Nat.le_add_right _ _)
  · rw [hsize]
    exact rootSize_le hn
  · change a < rootLength files at ha
    rw [blocksOf, BSIZE]
    omega

theorem length_rootNames (files : List Input) :
    (rootNames files).length = files.length + 2 := by
  rw [rootNames, List.length_cons, List.length_cons, List.length_map, List.length_zipIdx]

theorem root_take (h : Final files s) (hn : files.length + 2 ≤ NINODES) :
    (entries (content s.disk (inodeOf Mkfs.sb s.disk ROOTINO))).take (files.length + 2) =
      (rootNames files).map some := by
  have hroot := length_contents_root files
  have hle := (root_at h hn).le
  have htake : (content s.disk (inodeOf Mkfs.sb s.disk ROOTINO)).take (rootLength files) =
      contents files ROOTINO := by
    apply List.ext_getElem?
    intro a
    rw [List.getElem?_take, getElem?_content]
    by_cases ha : a < rootLength files
    · have hblock : a / BSIZE < blocksOf (rootLength files) := by
        rw [blocksOf, BSIZE]
        omega
      rw [if_pos ha, if_pos (Nat.lt_of_lt_of_le ha hle), (root_byte h hn hblock).2,
        List.getD_eq_getElem?_getD, List.getElem?_eq_getElem (hroot.symm ▸ ha)]
      rfl
    · rw [if_neg ha, List.getElem?_eq_none (by omega)]
  rw [← List.take_append_drop (rootLength files) (content s.disk _), htake, entries_append,
    entries_root hn, List.take_left']
  · rw [List.length_map, length_rootNames]
  · rw [hroot, rootLength]
    exact Nat.mul_mod_right _ _

theorem root_found (hv : Valid files) (h : Final files s) (hk : files[k]? = some f)
    (hname : key name = key f.name) :
    dirlookup Mkfs.sb devsw (inodeOf Mkfs.sb s.disk ROOTINO) name s.disk =
      .ret ((inodeOf Mkfs.sb s.disk ROOTINO, some (2 + k, direntSize * (2 + k))), s.disk) := by
  have hat := root_at h hv.inodes
  have hfind : SlotMap.findFrom (key name) 0 ((rootNames files).map some) =
      some (2 + k, 2 + k) := by
    have hdistinct := SlotMap.distinct_filled hv.nodup 0
    rw [List.replicate_zero, List.append_nil] at hdistinct
    apply SlotMap.findFrom_of_getElem? hdistinct
    rw [List.getElem?_map, rootNames_file hk, hname]
    rfl
  rw [dirlookup_upto hat, root_take h hv.inodes, hfind]

theorem root_missing (h : Final files s) (hn : files.length + 2 ≤ NINODES)
    (hroot : (files.length + 2) % (BSIZE / direntSize) ≠ 0)
    (hname : key name ∉ (rootNames files).map Prod.fst) :
    dirlookup Mkfs.sb devsw (inodeOf Mkfs.sb s.disk ROOTINO) name s.disk =
      .ret ((inodeOf Mkfs.sb s.disk ROOTINO, none), s.disk) := by
  have hw := whole_image h hn hroot
  unfold dirlookup
  rw [if_neg (not_not.2 hw.type)]
  apply hw.missing (k := 0) hn hname (Nat.zero_le _)
  rw [hw.size, rootSize_eq, direntSize]
  omega

end Image

section Hole

variable {sb : Superblock} {devsw : ℕ → Option (ℕ → List UInt8)} {d d' : Sectors}
  {dp dp' : Dinode} {b off n : ℕ} {name : List UInt8}

theorem readi_fill (hb : bmap sb dp (off / BSIZE) d = .ret ((dp', b), d'))
    (hb' : bmap sb dp' (off / BSIZE) d' = .ret ((dp', b), d')) (ht : dp'.type = dp.type)
    (hs : dp'.size = dp.size) (hdev : dp.type ≠ T_DEV) (hoff : off + n ≤ dp.size) (hn : 0 < n)
    (hsmall : dp.size < 2 ^ 32) :
    readi sb devsw dp off n d = readi sb devsw dp' off n d' := by
  obtain ⟨m, rfl⟩ : ∃ m, n = m + 1 := ⟨n - 1, by omega⟩
  have hok : ¬(dp.size < off ∨ (off + (m + 1)) % 2 ^ 32 < off) := by omega
  have hloop : readLoop sb (m + 1) dp off (m + 1) d = readLoop sb (m + 1) dp' off (m + 1) d' := by
    rw [readLoop, readLoop, if_neg (Nat.succ_ne_zero m), if_neg (Nat.succ_ne_zero m),
      Prog.bind_of_ret hb, Prog.bind_of_ret hb']
  unfold readi
  simp only [ht, hs, if_neg hdev, if_neg hok, if_neg (Nat.not_lt.2 hoff)]
  rw [Prog.bind_apply, Prog.bind_apply, hloop]

theorem readi_panic {m : String} (hb : bmap sb dp (off / BSIZE) d = .panic m)
    (hdev : dp.type ≠ T_DEV) (hoff : off + n ≤ dp.size) (hn : 0 < n) (hsmall : dp.size < 2 ^ 32) :
    readi sb devsw dp off n d = .panic m := by
  obtain ⟨n, rfl⟩ : ∃ k, n = k + 1 := ⟨n - 1, by omega⟩
  have hok : ¬(dp.size < off ∨ (off + (n + 1)) % 2 ^ 32 < off) := by omega
  have hloop : readLoop sb (n + 1) dp off (n + 1) d = .panic m := by
    rw [readLoop, if_neg (Nat.succ_ne_zero n), Prog.bind_apply, hb]
    rfl
  unfold readi
  simp only [if_neg hdev, if_neg hok, if_neg (Nat.not_lt.2 hoff)]
  rw [Prog.bind_apply, hloop]
  rfl

theorem lookupLoop_fill (hb : bmap sb dp (off / BSIZE) d = .ret ((dp', b), d'))
    (hb' : bmap sb dp' (off / BSIZE) d' = .ret ((dp', b), d')) (ht : dp'.type = dp.type)
    (hs : dp'.size = dp.size) (hdev : dp.type ≠ T_DEV) (hoff : off + direntSize ≤ dp.size)
    (hsmall : dp.size < 2 ^ 32) (fuel : ℕ) :
    lookupLoop sb devsw name (fuel + 1) dp off d =
      lookupLoop sb devsw name (fuel + 1) dp' off d' := by
  have hlt : off < dp.size := Nat.lt_of_lt_of_le (Nat.lt_add_of_pos_right (by decide)) hoff
  rw [lookupLoop, lookupLoop, if_pos hlt, if_pos (hs ▸ hlt), Prog.bind_apply, Prog.bind_apply,
    readi_fill hb hb' ht hs hdev hoff (by decide) hsmall]

variable {files : List Input} {s : St}

theorem root_hole (h : Final files s) (hn : files.length + 2 ≤ NINODES)
    (hroot : (files.length + 2) % (BSIZE / direntSize) = 0) :
    rootLength files / BSIZE < NDIRECT ∧
      (inodeOf Mkfs.sb s.disk ROOTINO).addrs (rootLength files / BSIZE) = 0 := by
  obtain ⟨own, hl⟩ := h.layout
  have hmod := (rootLength_mod files).2 hroot
  have hlt : rootLength files / BSIZE < NDIRECT := by
    have h1 : NINODES = 200 := rfl
    have h2 : NDIRECT = 12 := rfl
    rw [rootLength, h2, direntSize, BSIZE]
    omega
  have haddr := hl.unused ROOTINO (.data (rootLength files / BSIZE))
    (Nat.lt_trans hlt (by decide)) fun hu => by
      have hused : rootLength files / BSIZE < blocksOf (contents files ROOTINO).length := hu.2.2
      rw [length_contents_root, blocksOf] at hused
      rw [BSIZE] at *
      omega
  rw [addr, if_pos hlt] at haddr
  rw [inodeOf_of_lt (by decide)]
  exact ⟨hlt, haddr⟩

def filledRoot (files : List Input) (d : Sectors) (b : ℕ) : Dinode :=
  { inodeOf Mkfs.sb d ROOTINO with
    addrs := Function.update (inodeOf Mkfs.sb d ROOTINO).addrs (rootLength files / BSIZE) b }

theorem whole_filled (h : Final files s) (hn : files.length + 2 ≤ NINODES)
    (hroot : (files.length + 2) % (BSIZE / direntSize) = 0)
    (hb : b ∈ freeBlocks Mkfs.sb s.disk) :
    Whole files (mark Mkfs.sb s.disk b) (filledRoot files s.disk b) := by
  obtain ⟨own, hl⟩ := h.layout
  obtain ⟨hlt, -⟩ := root_hole h hn hroot
  have hmod := (rootLength_mod files).2 hroot
  obtain ⟨hsize, hfree⟩ := mem_freeBlocks.1 hb
  have htotal : s.freeblock ≤ b := by
    rw [h.freeblock]
    apply Nat.le_of_not_lt
    intro hused
    rw [(isFree_iff h hsize).2 hused] at hfree
    cases hfree
  have hpos : 0 < nmeta := by decide
  have hmeta := hl.meta_le
  have hbmap : BBLOCK Mkfs.sb b < nmeta := by
    change b / 4096 + 58 < 59
    change b < 1000 at hsize
    omega
  have hrootsize : rootSize files = rootLength files + BSIZE := by
    rw [rootSize]
    rw [BSIZE] at *
    omega
  have hold : ∀ a < rootLength files, a / BSIZE < rootLength files / BSIZE ∧
      a / BSIZE < blocksOf (rootLength files) := by
    intro a ha
    rw [blocksOf]
    rw [BSIZE] at *
    omega
  have hnew : ∀ a < rootSize files, ¬a < rootLength files →
      a / BSIZE = rootLength files / BSIZE := by
    intro a ha hge
    rw [BSIZE] at *
    omega
  -- the blocks that were there are as before
  have hsame : ∀ a < rootLength files,
      mark Mkfs.sb s.disk b ((inodeOf Mkfs.sb s.disk ROOTINO).addrs (a / BSIZE)) =
        s.disk ((inodeOf Mkfs.sb s.disk ROOTINO).addrs (a / BSIZE)) := by
    intro a ha
    have hused : Used (files.length + 2) (contents files) ROOTINO (.data (a / BSIZE)) :=
      ⟨Nat.le_refl 1, by rw [ROOTINO]; omega, by
        rw [length_contents_root]
        exact (hold a ha).2⟩
    obtain ⟨hlo, hhi, -⟩ := hl.range _ _ hused
    rw [addr, if_pos (Nat.lt_trans (hold a ha).1 hlt), ← inodeOf_of_lt (by decide)] at hlo hhi
    exact mark_of_ne (Nat.ne_of_gt (Nat.lt_of_lt_of_le hbmap hlo))
      (Nat.ne_of_lt (Nat.lt_of_lt_of_le hhi htotal))
  have hdirect : ∀ a < rootSize files, a / BSIZE < NDIRECT := by
    intro a ha
    by_cases hin : a < rootLength files
    · exact Nat.lt_trans (hold a hin).1 hlt
    · rw [hnew a ha hin]
      exact hlt
  have haddrs : (filledRoot files s.disk b).addrs = Function.update
    (inodeOf Mkfs.sb s.disk ROOTINO).addrs (rootLength files / BSIZE) b := rfl
  refine ⟨root_type h, root_size h, fun a ha => ?_, fun a ha => ?_⟩
  · rw [block_direct (hdirect a ha), haddrs]
    by_cases hin : a < rootLength files
    · have hne := (root_byte h hn (hold a hin).2).1
      rw [block_direct (hdirect a ha)] at hne
      rwa [Function.update_of_ne (Nat.ne_of_lt (hold a hin).1)]
    · rw [hnew a ha hin, Function.update_self]
      omega
  · rw [byteAt, block_direct (hdirect a ha), haddrs]
    by_cases hin : a < rootLength files
    · have hbyte := (root_byte h hn (hold a hin).2).2
      rw [byteAt, block_direct (hdirect a ha)] at hbyte
      rw [Function.update_of_ne (Nat.ne_of_lt (hold a hin).1), hsame a hin, hbyte]
    · rw [hnew a ha hin, Function.update_self, mark_self, List.getD_eq_getElem?_getD,
        List.getElem?_eq_none (by rw [length_contents_root]; omega)]
      rfl

theorem root_search (h : Final files s) (hn : files.length + 2 ≤ NINODES)
    (hname : key name ∉ (rootNames files).map Prod.fst) :
    dirlookup Mkfs.sb devsw (inodeOf Mkfs.sb s.disk ROOTINO) name s.disk =
      lookupLoop Mkfs.sb devsw name (rootSize files + 1 - (files.length + 2))
        (inodeOf Mkfs.sb s.disk ROOTINO) (rootLength files) s.disk := by
  have hat := root_at h hn
  have hsize := root_size h
  have hnone : SlotMap.findFrom (key name) 0 ((rootNames files).map some) = none := by
    apply SlotMap.findFrom_eq_none
    intro i v hi
    obtain ⟨p, hp, he⟩ := Option.map_eq_some_iff.1 (List.getElem?_map.symm.trans hi)
    cases he
    exact hname (List.mem_map.2 ⟨_, List.mem_of_getElem? hp, rfl⟩)
  rw [dirlookup_upto hat, root_take h hn, hnone, hsize]
  rfl

theorem root_room (files : List Input) (hroot : (files.length + 2) % (BSIZE / direntSize) = 0) :
    ∃ fuel, rootSize files + 1 - (files.length + 2) = fuel + 1 ∧
      spare files < fuel + 1 ∧ rootLength files + direntSize ≤ rootSize files := by
  have hsize := rootSize_eq files
  have hmod := (rootLength_mod files).2 hroot
  have hspare : spare files = 32 := by
    rw [spare, hmod]
    rfl
  rw [hspare, direntSize] at hsize
  refine ⟨rootSize files - (files.length + 2), by omega, by omega, ?_⟩
  rw [rootLength, direntSize]
  omega

theorem root_missing_hole (h : Final files s) (hn : files.length + 2 ≤ NINODES)
    (hroot : (files.length + 2) % (BSIZE / direntSize) = 0) (hroom : total files < FSSIZE)
    (hname : key name ∉ (rootNames files).map Prod.fst) :
    ∃ dp d', dirlookup Mkfs.sb devsw (inodeOf Mkfs.sb s.disk ROOTINO) name s.disk =
      .ret ((dp, none), d') := by
  obtain ⟨hlt, hzero⟩ := root_hole h hn hroot
  obtain ⟨fuel, hfuel, hspare, hoff⟩ := root_room files hroot
  have hsize := root_size h
  have htype := root_type h
  have hfree : total files ∈ freeBlocks Mkfs.sb s.disk := by
    refine mem_freeBlocks.2 ⟨hroom, ?_⟩
    rw [← Bool.not_eq_false, isFree_iff h hroom]
    exact Nat.lt_irrefl _
  rcases balloc_run Mkfs.sb s.disk with ⟨hempty, -⟩ | ⟨b, hb, hrun⟩
  · rw [hempty] at hfree
    exact absurd hfree (Finset.notMem_empty _)
  have hw := whole_filled h hn hroot hb
  have hbmap : bmap Mkfs.sb (inodeOf Mkfs.sb s.disk ROOTINO) (rootLength files / BSIZE) s.disk =
      .ret ((filledRoot files s.disk b, b), mark Mkfs.sb s.disk b) := by
    rw [bmap, if_pos hlt, if_pos hzero, Prog.bind_of_ret hrun]
    rfl
  have hblock : block (mark Mkfs.sb s.disk b) (filledRoot files s.disk b)
      (.data (rootLength files / BSIZE)) = b := by
    rw [block_direct hlt]
    exact Function.update_self _ _ _
  have hmapped := hw.mapped (rootLength files)
    (Nat.lt_of_lt_of_le (Nat.lt_add_of_pos_right (by decide)) hoff)
  have hagain : bmap Mkfs.sb (filledRoot files s.disk b) (rootLength files / BSIZE)
      (mark Mkfs.sb s.disk b) = .ret ((filledRoot files s.disk b, b), mark Mkfs.sb s.disk b) := by
    rw [bmap_mapped hmapped, hblock]
  refine ⟨filledRoot files s.disk b, mark Mkfs.sb s.disk b, ?_⟩
  rw [root_search h hn hname, hfuel, lookupLoop_fill hbmap hagain rfl rfl
    (by rw [htype]; decide) (by rw [hsize]; exact hoff)
    (Nat.lt_of_le_of_lt (hsize ▸ rootSize_le hn) (by decide))]
  exact hw.missing hn hname (Nat.le_add_right _ _) (by omega)

theorem root_missing_full (h : Final files s) (hn : files.length + 2 ≤ NINODES)
    (hroot : (files.length + 2) % (BSIZE / direntSize) = 0) (hfull : FSSIZE ≤ total files)
    (hname : key name ∉ (rootNames files).map Prod.fst) :
    dirlookup Mkfs.sb devsw (inodeOf Mkfs.sb s.disk ROOTINO) name s.disk =
      .panic "balloc: out of blocks" := by
  obtain ⟨hlt, hzero⟩ := root_hole h hn hroot
  obtain ⟨fuel, hfuel, -, hoff⟩ := root_room files hroot
  have hsize := root_size h
  have htype := root_type h
  rcases balloc_run Mkfs.sb s.disk with ⟨-, hrun⟩ | ⟨b, hb, -⟩
  swap
  · obtain ⟨hlt, hfree⟩ := mem_freeBlocks.1 hb
    rw [(isFree_iff h hlt).2 (Nat.lt_of_lt_of_le hlt hfull)] at hfree
    cases hfree
  have hbmap : bmap Mkfs.sb (inodeOf Mkfs.sb s.disk ROOTINO) (rootLength files / BSIZE) s.disk =
      .panic "balloc: out of blocks" := by
    rw [bmap, if_pos hlt, if_pos hzero, Prog.bind_apply, hrun]
    rfl
  have hread : readi Mkfs.sb devsw (inodeOf Mkfs.sb s.disk ROOTINO) (rootLength files) direntSize
      s.disk = .panic "balloc: out of blocks" :=
    readi_panic hbmap (by rw [htype]; decide) (by rw [hsize]; exact hoff) (by decide)
      (Nat.lt_of_le_of_lt (hsize ▸ rootSize_le hn) (by decide))
  rw [root_search h hn hname, hfuel, lookupLoop, if_pos, Prog.bind_apply, hread]
  · rfl
  · rw [hsize]
    exact Nat.lt_of_lt_of_le (Nat.lt_add_of_pos_right (by decide)) hoff

end Hole

end Xv6.Disk
