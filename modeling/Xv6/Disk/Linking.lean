import Xv6.Disk.DirMap

/-!
# Making a new entry

`dirlink` on a directory of any size, and `link` and `create` from the point where their paths
are resolved. A new entry needs a place and blocks: `Room`. Without them the kernel panics.
-/

namespace Xv6.Disk
open Lib

section Calls

variable (sb : Superblock) (devread : ℕ → Option (ℕ → List UInt8))
  (devwrite : ℕ → Option (List UInt8 → ℕ))

def ialloc (type : ℕ) : K ℕ := fun d =>
  match (List.range sb.ninodes).find? fun i => 1 ≤ i ∧ (inodeOf sb d i).type = 0 with
  | some inum => .ret (inum, putInode sb d inum { Dinode.zero with type := type })
  | none => .panic "ialloc: no inodes"

/-- `sys_link` with the inode of the old path and the directory of the new one. -/
def link (dnum inum : ℕ) (name : List UInt8) : K ℤ := do
  let ip ← ilock sb inum
  if ip.type = T_DIR then return -1
  else do
    iupdate sb inum { ip with nlink := (ip.nlink + 1) % 2 ^ 16 }
    let dp ← ilock sb dnum
    let (_, r) ← dirlink sb devread devwrite dnum dp name inum
    if r < 0 then do
      let ip ← ilock sb inum
      iupdate sb inum { ip with nlink := (ip.nlink + (2 ^ 16 - 1)) % 2 ^ 16 }
      return -1
    else return 0

def createDots (dnum : ℕ) (dp : Dinode) (inum : ℕ) (ip : Dinode) : K Dinode := do
  let dp := { dp with nlink := (dp.nlink + 1) % 2 ^ 16 }
  iupdate sb dnum dp
  let (ip, r) ← dirlink sb devread devwrite inum ip [46] inum
  if r < 0 then .panic "create dots"
  else do
    let (_, r) ← dirlink sb devread devwrite inum ip [46, 46] dnum
    if r < 0 then .panic "create dots" else return dp

/-- `create` with the directory of its path. -/
def create (dnum : ℕ) (name : List UInt8) (type major minor : ℕ) : K (Option ℕ) := do
  let dp ← ilock sb dnum
  let (dp, found) ← dirlookup sb devread dp name
  match found with
  | some (inum, _) => do
    let ip ← ilock sb inum
    if type = T_FILE ∧ ip.type = T_FILE then return some inum else return none
  | none => do
    let inum ← ialloc sb type
    let ip ← ilock sb inum
    let ip := { ip with major := major, minor := minor, nlink := 1 }
    iupdate sb inum ip
    let dp ← (if type = T_DIR then createDots sb devread devwrite dnum dp inum ip else pure dp)
    let (_, r) ← dirlink sb devread devwrite dnum dp name inum
    if r < 0 then .panic "create: dirlink" else return some inum

end Calls

variable {sb : Superblock} {devread : ℕ → Option (ℕ → List UInt8)}
  {devwrite : ℕ → Option (List UInt8 → ℕ)} {dnum inum i : ℕ} {d d' d'' : Sectors}
  {name : List UInt8} {ip : Dinode}

section Put

def Keeps (old new : Dinode) : Prop :=
  new.type = old.type ∧ new.size = old.size ∧ new.addrs = old.addrs ∨
    old.type = 0 ∧ new.size = 0 ∧ ∀ k, new.addrs k = 0

theorem block_zero (h : ∀ k, ip.addrs k = 0) (sl : Slot) : block d ip sl = 0 := by
  cases sl <;> simp [block, addr, h]

theorem Keeps.cell (h : Keeps (inodeOf sb d inum) ip) :
    cell sb d (Function.update (inodeOf sb d) inum ip) = Disk.cell sb d (inodeOf sb d) := by
  funext ⟨i, sl⟩
  by_cases hi : i = inum
  · subst hi
    unfold Disk.cell
    rw [Function.update_self]
    rcases h with ⟨htype, -, haddrs⟩ | ⟨htype, -, haddrs⟩
    · rw [htype, block_addrs haddrs]
    · rw [block_zero haddrs, ite_self, if_neg fun hlive => hlive.2 htype]
  · exact cell_other hi

theorem BlockInv.put (h : BlockInv sb d) (hi : inum < sb.ninodes) (hfits : ip.Fits)
    (hk : Keeps (inodeOf sb d inum) ip) :
    BlockInv sb (putInode sb d inum ip) ∧
      freeBlocks sb (putInode sb d inum ip) = freeBlocks sb d := by
  have harea : ∀ s ∈ area sb, putInode sb d inum ip s = d s := fun s hs =>
    putInode_area h.wf hi hs
  have hfree : freeBlocks sb (putInode sb d inum ip) = freeBlocks sb d :=
    freeBlocks_congr fun b _ => putInode_bitmap h.wf hi b
  have hcell : cell sb (putInode sb d inum ip) (inodeOf sb (putInode sb d inum ip)) =
      cell sb d (inodeOf sb d) := by
    rw [inodeOf_put hfits, ← hk.cell]
    funext ⟨i, sl⟩
    unfold cell
    by_cases hlive : i < sb.ninodes ∧ (Function.update (inodeOf sb d) inum ip i).type ≠ 0
    · rw [if_pos hlive, if_pos hlive]
      refine block_congr fun hne => harea _ ?_
      have hind : cell sb d (Function.update (inodeOf sb d) inum ip) (i, .ind) =
          (Function.update (inodeOf sb d) inum ip i).addrs NDIRECT := if_pos hlive
      rw [hk.cell] at hind
      rw [← hind] at hne ⊢
      exact h.alloc.inside _ hne
    · rw [if_neg hlive, if_neg hlive]
  refine ⟨⟨h.wf, ?_, fun i hlt htype bn hbn => ?_⟩, hfree⟩
  · unfold Alloc
    rw [hcell, hfree]
    exact h.alloc
  · rw [← cell_live hlt htype, hcell]
    rw [inodeOf_put hfits] at htype hbn
    by_cases hin : i = inum
    · subst hin
      rw [Function.update_self] at htype hbn
      rcases hk with ⟨hsame, hsize, -⟩ | ⟨-, hsize, -⟩
      · rw [hsame] at htype
        rw [hsize] at hbn
        rw [cell_live hlt htype]
        exact h.mapped i hlt htype bn hbn
      · omega
    · rw [Function.update_of_ne hin] at htype hbn
      rw [cell_live hlt htype]
      exact h.mapped i hlt htype bn hbn

end Put

structure Beside (sb : Superblock) (dnum : ℕ) (d d' : Sectors) : Prop where
  inv : BlockInv sb d'
  type : (inodeOf sb d' dnum).type = (inodeOf sb d dnum).type
  size : (inodeOf sb d' dnum).size = (inodeOf sb d dnum).size
  blocks : block d' (inodeOf sb d' dnum) = block d (inodeOf sb d dnum)
  bytes : content d' (inodeOf sb d' dnum) = content d (inodeOf sb d dnum)

namespace Beside

theorem trans (h : Beside sb dnum d d') (h' : Beside sb dnum d' d'') : Beside sb dnum d d'' :=
  ⟨h'.inv, h'.type.trans h.type, h'.size.trans h.size, h'.blocks.trans h.blocks,
    h'.bytes.trans h.bytes⟩

theorem directory (h : Beside sb dnum d d') (hd : Directory sb dnum d) : Directory sb dnum d' :=
  ⟨h.inv, hd.lt, h.type.trans hd.type, by rw [h.size]; exact hd.size,
    by rw [h.bytes]; exact hd.distinct⟩

theorem bindings (h : Beside sb dnum d d') : bindings sb dnum d' = Disk.bindings sb dnum d := by
  unfold Disk.bindings
  rw [h.bytes]

theorem put (h : BlockInv sb d) (hd : dnum < sb.ninodes) (hlive : (inodeOf sb d dnum).type ≠ 0)
    (hi : inum < sb.ninodes) (hfits : ip.Fits) (hk : Keeps (inodeOf sb d inum) ip) :
    Beside sb dnum d (putInode sb d inum ip) := by
  have hsame : (inodeOf sb (putInode sb d inum ip) dnum).type = (inodeOf sb d dnum).type ∧
      (inodeOf sb (putInode sb d inum ip) dnum).size = (inodeOf sb d dnum).size ∧
      (inodeOf sb (putInode sb d inum ip) dnum).addrs = (inodeOf sb d dnum).addrs := by
    rw [inodeOf_put hfits]
    by_cases hin : dnum = inum
    · subst hin
      rw [Function.update_self]
      exact hk.resolve_right fun hfree => hlive hfree.1
    · rw [Function.update_of_ne hin]
      exact ⟨rfl, rfl, rfl⟩
  have hheld := h.held hd hlive
  have hblocks : block (putInode sb d inum ip) (inodeOf sb (putInode sb d inum ip) dnum) =
      block d (inodeOf sb d dnum) := by
    funext sl
    rw [block_addrs hsame.2.2]
    exact block_congr fun hne => putInode_area h.wf hi (hheld.ind_mem_area hne)
  refine ⟨(h.put hi hfits hk).1, hsame.1, hsame.2.1, hblocks, ?_⟩
  unfold content
  rw [hsame.2.1]
  refine List.map_congr_left fun a ha => ?_
  have hmap := h.mapped_lt hd hlive (List.mem_range.1 ha)
  rw [byteAt, byteAt, hblocks, putInode_area h.wf hi (hheld.mem_area hmap)]

end Beside

section Room

def need (sb : Superblock) (dnum : ℕ) (d : Sectors) : ℕ :=
  if none ∈ entries (content d (inodeOf sb d dnum)) then 0
  else missing (block d (inodeOf sb d dnum)) (slots (inodeOf sb d dnum).size direntSize)

/-- There is a place for an entry, and blocks for it and `extra` blocks are free. -/
structure Room (sb : Superblock) (dnum : ℕ) (d : Sectors) (extra : ℕ) : Prop where
  place : none ∈ entries (content d (inodeOf sb d dnum)) ∨
    (inodeOf sb d dnum).size < MAXFILE * BSIZE
  blocks : need sb dnum d + extra ≤ (freeBlocks sb d).card

def failure (sb : Superblock) (dnum : ℕ) (d : Sectors) : String :=
  if none ∈ entries (content d (inodeOf sb d dnum)) ∨ (inodeOf sb d dnum).size < MAXFILE * BSIZE
  then "balloc: out of blocks" else "dirlink"

structure Linked (sb : Superblock) (dnum : ℕ) (d : Sectors) (x : List UInt8) (inum : ℕ)
    (d' : Sectors) : Prop where
  directory : Directory sb dnum d'
  bindings : bindings sb dnum d' = Function.update (bindings sb dnum d) x (some inum)
  others : ∀ i < sb.ninodes, i ≠ dnum → inodeOf sb d' i = inodeOf sb d i ∧
    ((inodeOf sb d i).type ≠ 0 → Beside sb i d d')
  count : (freeBlocks sb d').card + need sb dnum d = (freeBlocks sb d).card
  place : ∃ k, Place sb dnum d k ∧ entries (content d' (inodeOf sb d' dnum)) =
    splice (entries (content d (inodeOf sb d dnum))) k [some (x, inum)]
  filled : ∃ k, Filled (block d (inodeOf sb d dnum)) (block d' (inodeOf sb d' dnum))
    (slots (direntSize * k) direntSize) (freeBlocks sb d) (freeBlocks sb d')

theorem Beside.need (h : Beside sb dnum d d') : need sb dnum d' = need sb dnum d := by
  unfold Disk.need
  rw [h.bytes, h.blocks, h.size]

theorem Beside.failure (h : Beside sb dnum d d') : failure sb dnum d' = failure sb dnum d := by
  unfold Disk.failure
  rw [h.bytes, h.size]

theorem Beside.room_iff (h : Beside sb dnum d d') {m n : ℕ}
    (hfree : (freeBlocks sb d').card + n = (freeBlocks sb d).card) :
    Room sb dnum d' m ↔ Room sb dnum d (m + n) := by
  have hneed := h.need
  constructor
  · rintro ⟨hplace, hblocks⟩
    rw [h.bytes, h.size] at hplace
    exact ⟨hplace, by omega⟩
  · rintro ⟨hplace, hblocks⟩
    rw [← h.bytes, ← h.size] at hplace
    exact ⟨hplace, by omega⟩

theorem Directory.need_eq (h : Directory sb dnum d) {k : ℕ} (hslot : Place sb dnum d k) :
    missing (block d (inodeOf sb d dnum)) (slots (direntSize * k) direntSize) =
      need sb dnum d := by
  unfold need
  rcases hslot with ⟨rfl, hnone⟩ | hslot
  · rw [if_neg hnone, ← h.whole]
  · rw [if_pos (List.mem_of_getElem? hslot)]
    have hlt := (List.getElem?_eq_some_iff.1 hslot).1
    rw [length_entries, length_content] at hlt
    refine missing_eq_zero (slots_mapped fun a _ ha => h.mapped a ?_)
    rw [direntSize] at *
    omega

theorem Directory.end_le (h : Directory sb dnum d) {k : ℕ} (hslot : Place sb dnum d k) :
    direntSize * k + direntSize ≤ MAXFILE * BSIZE ↔
      none ∈ entries (content d (inodeOf sb d dnum)) ∨
        (inodeOf sb d dnum).size < MAXFILE * BSIZE := by
  have hwhole := h.whole
  have hsmall := h.at.small
  rw [show MAXFILE * BSIZE = 71680 from rfl] at *
  rcases hslot with ⟨rfl, hnone⟩ | hslot
  · rw [or_iff_right hnone]
    rw [direntSize] at *
    omega
  · refine iff_of_true ?_ (.inl (List.mem_of_getElem? hslot))
    have hlt := (List.getElem?_eq_some_iff.1 hslot).1
    rw [length_entries, length_content] at hlt
    rw [direntSize] at *
    omega

variable (devread devwrite name) in
theorem dirlink_room (h : Directory sb dnum d) (hpos : 1 ≤ inum) (hle : inum ≤ 65535)
    (hm : bindings sb dnum d (key name) = none) (hroom : Room sb dnum d 0) :
    ∃ d', dirlink sb devread devwrite dnum (inodeOf sb d dnum) name inum d =
        .ret ((inodeOf sb d' dnum, 0), d') ∧ Linked sb dnum d (key name) inum d' := by
  obtain ⟨k, hslot, hrun⟩ := dirlink_run devread devwrite h inum hm
  have hlive : (inodeOf sb d dnum).type ≠ 0 := by rw [h.type]; decide
  have hde := length_direntBytes inum (name.takeWhile (· ≠ 0))
  have hend := (h.end_le hslot).2 hroom.place
  have hk := (h.place hslot).1
  have hstores : Stores sb dnum d (direntSize * k) (direntBytes inum (name.takeWhile (· ≠ 0)))
      (writei sb devwrite dnum (inodeOf sb d dnum) (direntBytes inum (name.takeWhile (· ≠ 0)))
        (direntSize * k) d) :=
    writei_stores h.inv h.lt hlive (by rw [h.type]; decide) hk (by rw [hde]; exact hend)
  rw [hrun]
  generalize writei sb devwrite dnum (inodeOf sb d dnum)
    (direntBytes inum (name.takeWhile (· ≠ 0))) (direntSize * k) d = o at hstores
  cases hstores with
  | @stored d₁ d' ip₁ size hst hmax hext hw =>
    have hwritten := hst.written hmax h.inv h.lt hlive hk hext hw
    obtain ⟨hdir, hbind, hentries⟩ := h.linked hpos hle hslot hm hwritten
    have hheld := h.inv.held h.lt hlive
    have hfilled := hwritten.filled
    rw [hde] at hfilled
    refine ⟨d', ?_, hdir, hbind, fun i hi hne => ?_, ?_, ⟨k, hslot, hentries⟩, ⟨k, hfilled⟩⟩
    · rw [Outcome.ret_bind, if_neg (by rw [hde]; exact fun hne => hne rfl)]
    · obtain ⟨hinode, hcontent⟩ := hwritten.others i hi hne
      refine ⟨hinode, fun ht => ⟨hwritten.inv, ?_, ?_, ?_, ?_⟩⟩
      · rw [hinode]
      · rw [hinode]
      · rw [hinode]
        exact funext fun sl => hst.block_other hheld hext hi hne ht sl
      · rw [hinode]
        exact hcontent ht
    · rw [← h.need_eq hslot]
      exact hfilled.count
  | full hfull =>
    rw [hde, h.need_eq hslot] at hfull
    have := hroom.blocks
    omega

variable (devread devwrite) in
theorem dirlink_noRoom (h : Directory sb dnum d) (inum : ℕ)
    (hm : bindings sb dnum d (key name) = none) (hno : ¬Room sb dnum d 0) :
    dirlink sb devread devwrite dnum (inodeOf sb d dnum) name inum d =
      .panic (failure sb dnum d) := by
  obtain ⟨k, hslot, hrun⟩ := dirlink_run devread devwrite h inum hm
  have hlive : (inodeOf sb d dnum).type ≠ 0 := by rw [h.type]; decide
  have hdev : (inodeOf sb d dnum).type ≠ T_DEV := by rw [h.type]; decide
  have hde := length_direntBytes inum (name.takeWhile (· ≠ 0))
  have hk := (h.place hslot).1
  rw [hrun]
  unfold failure
  by_cases hplace : none ∈ entries (content d (inodeOf sb d dnum)) ∨
      (inodeOf sb d dnum).size < MAXFILE * BSIZE
  · rw [if_pos hplace]
    have hwrite := writei_entry devwrite h hde hk ((h.end_le hslot).2 hplace)
    generalize writei sb devwrite dnum (inodeOf sb d dnum)
      (direntBytes inum (name.takeWhile (· ≠ 0))) (direntSize * k) d = o at hwrite
    cases hwrite with
    | written hw =>
      have hcount := hw.filled.count
      rw [hde, h.need_eq hslot] at hcount
      exact absurd ⟨hplace, by omega⟩ hno
    | full _ => rfl
  · rw [if_neg hplace, writei_refuses hdev ?_ (by rw [hde]; decide) ?_]
    · rfl
    · have := h.at.small
      rw [show MAXFILE * BSIZE = 71680 from rfl] at *
      rw [direntSize] at *
      omega
    · rw [hde]
      exact .inr (.inr (Nat.lt_of_not_le fun hend => hplace ((h.end_le hslot).1 hend)))

end Room

section Link

theorem Directory.live (h : Directory sb dnum d) : (inodeOf sb d dnum).type ≠ 0 := by
  rw [h.type]
  decide

def linkedInode (sb : Superblock) (d : Sectors) (inum : ℕ) : Dinode :=
  { inodeOf sb d inum with nlink := ((inodeOf sb d inum).nlink + 1) % 2 ^ 16 }

theorem linkedInode_fits (sb : Superblock) (d : Sectors) (inum : ℕ) :
    (linkedInode sb d inum).Fits := by
  have h := inodeOf_fits sb d inum
  exact ⟨h.type, h.major, h.minor, Nat.mod_lt _ (Nat.two_pow_pos 16), h.size, h.addrs, h.beyond⟩

theorem keeps_linkedInode (sb : Superblock) (d : Sectors) (inum : ℕ) :
    Keeps (inodeOf sb d inum) (linkedInode sb d inum) := .inl ⟨rfl, rfl, rfl⟩

def counted (sb : Superblock) (d : Sectors) (inum : ℕ) : Sectors :=
  putInode sb d inum (linkedInode sb d inum)

theorem Directory.counted (h : Directory sb dnum d) (hi : inum < sb.ninodes) :
    Beside sb dnum d (counted sb d inum) ∧
      freeBlocks sb (Disk.counted sb d inum) = freeBlocks sb d :=
  ⟨.put h.inv h.lt h.live hi (linkedInode_fits sb d inum) (keeps_linkedInode sb d inum),
    (h.inv.put hi (linkedInode_fits sb d inum) (keeps_linkedInode sb d inum)).2⟩

theorem link_eq (h : Directory sb dnum d) (hi : inum < sb.ninodes)
    (hlive : (inodeOf sb d inum).type ≠ 0) (hfile : (inodeOf sb d inum).type ≠ T_DIR) :
    link sb devread devwrite dnum inum name d =
      (dirlink sb devread devwrite dnum (inodeOf sb (counted sb d inum) dnum) name inum
        (counted sb d inum)).bind fun r =>
          (if r.1.2 < 0 then (do
              let ip ← ilock sb inum
              iupdate sb inum { ip with nlink := (ip.nlink + (2 ^ 16 - 1)) % 2 ^ 16 }
              return -1)
            else return 0 : K ℤ) r.2 := by
  have hdir := (h.counted hi).1.directory h
  unfold link
  rw [Prog.bind_of_ret (ilock_run hlive), if_neg hfile]
  change (iupdate sb inum (linkedInode sb d inum) >>= _) d = _
  rw [Prog.bind_of_ret (show iupdate sb inum (linkedInode sb d inum) d =
    .ret ((), counted sb d inum) from rfl), Prog.bind_of_ret (ilock_run hdir.live)]
  rfl

variable (devread devwrite) in
theorem link_room (h : Directory sb dnum d) (hi : inum < sb.ninodes) (hpos : 1 ≤ inum)
    (hle : inum ≤ 65535) (hlive : (inodeOf sb d inum).type ≠ 0)
    (hfile : (inodeOf sb d inum).type ≠ T_DIR) (hm : bindings sb dnum d (key name) = none)
    (hroom : Room sb dnum d 0) :
    ∃ d', link sb devread devwrite dnum inum name d = .ret (0, d') ∧
      Linked sb dnum (counted sb d inum) (key name) inum d' := by
  obtain ⟨hbeside, hfree⟩ := h.counted hi
  obtain ⟨d', hrun, hlinked⟩ := dirlink_room devread devwrite name (hbeside.directory h) hpos hle
    (by rw [hbeside.bindings]; exact hm) ((hbeside.room_iff (n := 0) (by rw [hfree]; rfl)).2 hroom)
  refine ⟨d', ?_, hlinked⟩
  rw [link_eq h hi hlive hfile, hrun]
  rfl

variable (devread devwrite) in
theorem link_noRoom (h : Directory sb dnum d) (hi : inum < sb.ninodes)
    (hlive : (inodeOf sb d inum).type ≠ 0) (hfile : (inodeOf sb d inum).type ≠ T_DIR)
    (hm : bindings sb dnum d (key name) = none) (hno : ¬Room sb dnum d 0) :
    link sb devread devwrite dnum inum name d = .panic (failure sb dnum d) := by
  obtain ⟨hbeside, hfree⟩ := h.counted hi
  rw [link_eq h hi hlive hfile, dirlink_noRoom devread devwrite (hbeside.directory h) inum
    (by rw [hbeside.bindings]; exact hm)
    fun hroom => hno ((hbeside.room_iff (n := 0) (by rw [hfree]; rfl)).1 hroom), hbeside.failure]
  rfl

end Link

section Create

def bareInode (type major minor nlink : ℕ) : Dinode := ⟨type, major, minor, nlink, 0, fun _ => 0⟩

theorem bareInode_fits {type major minor nlink : ℕ} (ht : type < 2 ^ 16) (hmaj : major < 2 ^ 16)
    (hmin : minor < 2 ^ 16) (hn : nlink < 2 ^ 16) : (bareInode type major minor nlink).Fits :=
  ⟨ht, hmaj, hmin, hn, Nat.two_pow_pos 32, fun _ => Nat.two_pow_pos 32, fun _ _ => rfl⟩

theorem ialloc_run (hfree : ∃ i < sb.ninodes, 1 ≤ i ∧ (inodeOf sb d i).type = 0) (type : ℕ) :
    ∃ inum < sb.ninodes, 1 ≤ inum ∧ (inodeOf sb d inum).type = 0 ∧
      ialloc sb type d = .ret (inum, putInode sb d inum (bareInode type 0 0 0)) := by
  unfold ialloc
  cases hfind : (List.range sb.ninodes).find? fun i => 1 ≤ i ∧ (inodeOf sb d i).type = 0 with
  | none =>
    obtain ⟨i, hlt, hi⟩ := hfree
    exact absurd (decide_eq_true hi) (List.find?_eq_none.1 hfind i (List.mem_range.2 hlt))
  | some inum =>
    have hgood := List.find?_some hfind
    have hlt := List.mem_range.1 (List.mem_of_find?_eq_some hfind)
    exact ⟨inum, hlt, (of_decide_eq_true hgood).1, (of_decide_eq_true hgood).2, rfl⟩

structure Made (sb : Superblock) (dnum : ℕ) (d : Sectors) (inum : ℕ) (ip : Dinode)
    (d' : Sectors) : Prop where
  lt : inum < sb.ninodes
  pos : 1 ≤ inum
  ne : inum ≠ dnum
  inode : inodeOf sb d' inum = ip
  beside : Beside sb dnum d d'
  free : freeBlocks sb d' = freeBlocks sb d

theorem Made.put (hd : Directory sb dnum d) (hlt : inum < sb.ninodes) (hpos : 1 ≤ inum)
    (hne : inum ≠ dnum) (hfits : ip.Fits) (hk : Keeps (inodeOf sb d inum) ip) :
    Made sb dnum d inum ip (putInode sb d inum ip) :=
  ⟨hlt, hpos, hne, by rw [inodeOf_put hfits, Function.update_self],
    .put hd.inv hd.lt hd.live hlt hfits hk, (hd.inv.put hlt hfits hk).2⟩

variable (devread devwrite) in
theorem create_eq (h : Directory sb dnum d)
    (hfree : ∃ i < sb.ninodes, 1 ≤ i ∧ (inodeOf sb d i).type = 0)
    (hm : bindings sb dnum d (key name) = none) {type major minor : ℕ} (ht : type ≠ 0)
    (ht' : type < 2 ^ 16) (hmaj : major < 2 ^ 16) (hmin : minor < 2 ^ 16) :
    ∃ inum d', Made sb dnum d inum (bareInode type major minor 1) d' ∧
      create sb devread devwrite dnum name type major minor d =
        ((if type = T_DIR then
            createDots sb devread devwrite dnum (inodeOf sb d' dnum) inum (inodeOf sb d' inum)
          else pure (inodeOf sb d' dnum)) >>= fun dp => (do
            let (_, r) ← dirlink sb devread devwrite dnum dp name inum
            if r < 0 then .panic "create: dirlink" else return some inum : K (Option ℕ))) d' := by
  obtain ⟨inum, hlt, hpos, hzero, halloc⟩ := ialloc_run hfree type
  have hne : inum ≠ dnum := by
    rintro rfl
    exact h.live hzero
  have hfits₁ : (bareInode type 0 0 0).Fits :=
    bareInode_fits ht' (Nat.two_pow_pos 16) (Nat.two_pow_pos 16) (Nat.two_pow_pos 16)
  have hfits₂ : (bareInode type major minor 1).Fits := bareInode_fits ht' hmaj hmin (by decide)
  have hmade₁ := Made.put h hlt hpos hne hfits₁ (.inr ⟨hzero, rfl, fun _ => rfl⟩)
  generalize hd₁ : putInode sb d inum (bareInode type 0 0 0) = d₁ at hmade₁ halloc
  have hmade₂ := Made.put (hmade₁.beside.directory h) hlt hpos hne hfits₂
    (by rw [hmade₁.inode]; exact .inl ⟨rfl, rfl, rfl⟩)
  have hsame : inodeOf sb (putInode sb d₁ inum (bareInode type major minor 1)) dnum =
      inodeOf sb d dnum := by
    rw [inodeOf_put hfits₂, Function.update_of_ne (Ne.symm hne), ← hd₁, inodeOf_put hfits₁,
      Function.update_of_ne (Ne.symm hne)]
  refine ⟨inum, _, ⟨hlt, hpos, hne, hmade₂.inode, hmade₁.beside.trans hmade₂.beside,
    hmade₂.free.trans hmade₁.free⟩, ?_⟩
  have hf : SlotMap.findFrom (key name) 0 (entries (content d (inodeOf sb d dnum))) = none :=
    Option.map_eq_none_iff.1 hm
  unfold create
  rw [Prog.bind_of_ret (ilock_run h.live), Prog.bind_of_ret (dirlookup_spec h.at h.whole name), hf]
  simp only [Option.map_none]
  rw [Prog.bind_of_ret halloc,
    Prog.bind_of_ret (ilock_run (by rw [hmade₁.inode]; exact ht)), hmade₁.inode, hsame,
    hmade₂.inode]
  exact Prog.bind_of_ret (show iupdate sb inum (bareInode type major minor 1) d₁ =
    .ret ((), putInode sb d₁ inum (bareInode type major minor 1)) from rfl)

theorem empty_directory (hinv : BlockInv sb d) (hlt : inum < sb.ninodes)
    (htype : (inodeOf sb d inum).type = T_DIR) (hsize : (inodeOf sb d inum).size = 0)
    (hblocks : ∀ sl, block d (inodeOf sb d inum) sl = 0) :
    Directory sb inum d ∧ (∀ x, bindings sb inum d x = none) ∧ need sb inum d = 1 := by
  have hnil : entries (content d (inodeOf sb d inum)) = [] :=
    List.eq_nil_of_length_eq_zero (by rw [length_entries, length_content, hsize]; rfl)
  refine ⟨⟨hinv, hlt, htype, by rw [hsize]; rfl, ?_⟩, fun x => ?_, ?_⟩
  · rw [hnil]
    intro i k p q hi
    cases hi
  · unfold bindings
    rw [hnil]
    rfl
  · unfold need
    rw [hnil, if_neg List.not_mem_nil, hsize, slots_block (by decide) (by decide)]
    unfold missing
    rw [Finset.filter_true_of_mem fun sl _ => hblocks sl]
    rfl

theorem second_entry (h : Directory sb inum d) {p : List UInt8 × ℕ}
    (hone : entries (content d (inodeOf sb d inum)) = [some p]) :
    (inodeOf sb d inum).size < MAXFILE * BSIZE ∧ need sb inum d = 0 := by
  have hlen : (inodeOf sb d inum).size / direntSize = 1 := by
    rw [← length_content d, ← length_entries, hone]
    rfl
  have hsize := h.whole
  rw [hlen, Nat.mul_one] at hsize
  refine ⟨by rw [hsize]; decide, ?_⟩
  unfold need
  rw [hone, if_neg (by simp), hsize, slots_block (by decide) (by decide)]
  refine missing_eq_zero fun sl hsl => ?_
  rw [Finset.mem_singleton.1 hsl]
  exact h.mapped 0 (by rw [hsize]; decide)

theorem Linked.first {x : List UInt8} {n : ℕ} (h : Linked sb inum d x n d')
    (hnil : entries (content d (inodeOf sb d inum)) = []) :
    entries (content d' (inodeOf sb d' inum)) = [some (x, n)] := by
  obtain ⟨k, -, hentries⟩ := h.place
  rw [hentries, hnil]
  simp [splice]

variable (devread devwrite) in
theorem createDots_spec (h : Directory sb dnum d) (hdpos : 1 ≤ dnum) (hdle : dnum ≤ 65535)
    (hlt : inum < sb.ninodes) (hpos : 1 ≤ inum) (hle : inum ≤ 65535) (hne : inum ≠ dnum)
    {major minor : ℕ} (hinode : inodeOf sb d inum = bareInode T_DIR major minor 1)
    (hfree : 1 ≤ (freeBlocks sb d).card) :
    ∃ d', createDots sb devread devwrite dnum (inodeOf sb d dnum) inum (inodeOf sb d inum) d =
        .ret (inodeOf sb d' dnum, d') ∧ Beside sb dnum d d' ∧
      (freeBlocks sb d').card + 1 = (freeBlocks sb d).card := by
  obtain ⟨hb₁, hf₁⟩ := h.counted h.lt
  have hnew := empty_directory h.inv hlt (by rw [hinode]; rfl) (by rw [hinode]; rfl)
    fun sl => block_zero (by rw [hinode]; exact fun _ => rfl) sl
  have hbi : Beside sb inum d (counted sb d dnum) :=
    .put h.inv hlt hnew.1.live h.lt (linkedInode_fits sb d dnum) (keeps_linkedInode sb d dnum)
  have hsame : inodeOf sb (counted sb d dnum) inum = inodeOf sb d inum := by
    unfold counted
    rw [inodeOf_put (linkedInode_fits sb d dnum), Function.update_of_ne hne]
  have hself : inodeOf sb (counted sb d dnum) dnum = linkedInode sb d dnum := by
    unfold counted
    rw [inodeOf_put (linkedInode_fits sb d dnum), Function.update_self]
  have hrun₁ : iupdate sb dnum (linkedInode sb d dnum) d = .ret ((), counted sb d dnum) := rfl
  generalize counted sb d dnum = d₁ at hb₁ hf₁ hbi hsame hself hrun₁
  have hdir₁ := hbi.directory hnew.1
  have hsize : (inodeOf sb d₁ inum).size = 0 := by
    rw [hsame, hinode]
    rfl
  have hnil : entries (content d₁ (inodeOf sb d₁ inum)) = [] :=
    List.eq_nil_of_length_eq_zero (by rw [length_entries, length_content, hsize]; rfl)
  obtain ⟨d₂, hrun₂, hl₂⟩ := dirlink_room devread devwrite [46] hdir₁ hpos hle
    (by rw [hbi.bindings]; exact hnew.2.1 _)
    ⟨.inr (by rw [hsize]; decide), by rw [hbi.need, hnew.2.2, hf₁]; exact hfree⟩
  obtain ⟨hsmall, hneed⟩ := second_entry hl₂.directory (hl₂.first hnil)
  obtain ⟨d₃, hrun₃, hl₃⟩ := dirlink_room devread devwrite [46, 46] hl₂.directory hdpos
    hdle (by
      rw [hl₂.bindings, Function.update_of_ne (by decide), hbi.bindings]
      exact hnew.2.1 _) ⟨.inr hsmall, by rw [hneed]; exact Nat.zero_le _⟩
  obtain ⟨hdn₂, hb₂⟩ := hl₂.others dnum h.lt (Ne.symm hne)
  obtain ⟨hdn₃, hb₃⟩ := hl₃.others dnum h.lt (Ne.symm hne)
  have hlive₁ := (hb₁.directory h).live
  have hc₂ := hl₂.count
  have hc₃ := hl₃.count
  rw [hbi.need, hnew.2.2, hf₁] at hc₂
  rw [hneed] at hc₃
  refine ⟨d₃, ?_, (hb₁.trans (hb₂ hlive₁)).trans (hb₃ (by rw [hdn₂]; exact hlive₁)), by omega⟩
  unfold createDots
  change (iupdate sb dnum (linkedInode sb d dnum) >>= _) d = _
  rw [Prog.bind_of_ret hrun₁, ← hsame, Prog.bind_of_ret hrun₂]
  simp only
  rw [if_neg (by decide), Prog.bind_of_ret hrun₃]
  simp only
  rw [if_neg (by decide), hdn₃, hdn₂, hself]
  rfl

variable (devread devwrite) in
theorem create_last (h : Directory sb dnum d) (hn : sb.ninodes ≤ 65536) (hdpos : 1 ≤ dnum)
    (hfree : ∃ i < sb.ninodes, 1 ≤ i ∧ (inodeOf sb d i).type = 0)
    (hblock : 1 ≤ (freeBlocks sb d).card) (hm : bindings sb dnum d (key name) = none)
    {type major minor : ℕ} (ht : type ≠ 0) (ht' : type < 2 ^ 16) (hmaj : major < 2 ^ 16)
    (hmin : minor < 2 ^ 16) :
    ∃ inum d', 1 ≤ inum ∧ inum ≤ 65535 ∧ Beside sb dnum d d' ∧
      (freeBlocks sb d').card + (if type = T_DIR then 1 else 0) = (freeBlocks sb d).card ∧
      create sb devread devwrite dnum name type major minor d =
        (dirlink sb devread devwrite dnum (inodeOf sb d' dnum) name inum d').bind fun r =>
          (if r.1.2 < 0 then .panic "create: dirlink" else return some inum : K (Option ℕ)) r.2 := by
  obtain ⟨inum, d', hmade, hrun⟩ := create_eq devread devwrite h hfree hm ht ht' hmaj hmin
  have hle : inum ≤ 65535 := by
    have := hmade.lt
    omega
  by_cases hdir : type = T_DIR
  · subst hdir
    obtain ⟨d₃, hdots, hb, hcount⟩ := createDots_spec devread devwrite (hmade.beside.directory h)
      hdpos (by have := h.lt; omega) hmade.lt hmade.pos hle hmade.ne hmade.inode
      (by rw [hmade.free]; exact hblock)
    rw [hmade.free] at hcount
    refine ⟨inum, d₃, hmade.pos, hle, hmade.beside.trans hb, hcount, ?_⟩
    rw [hrun, if_pos rfl, Prog.bind_of_ret hdots]
    rfl
  · refine ⟨inum, d', hmade.pos, hle, hmade.beside, ?_, ?_⟩
    · rw [if_neg hdir, hmade.free]
      rfl
    · rw [hrun, if_neg hdir]
      rfl

end Create

section Clean

inductive NewEntry
  | dirlink (inum : ℕ)
  | link (inum : ℕ)
  | create (type major minor : ℕ)

def NewEntry.Valid (sb : Superblock) (d : Sectors) : NewEntry → Prop
  | .dirlink inum => 1 ≤ inum ∧ inum ≤ 65535
  | .link inum => 1 ≤ inum ∧ inum < sb.ninodes ∧ (inodeOf sb d inum).type ≠ 0 ∧
      (inodeOf sb d inum).type ≠ T_DIR
  | .create type major minor => type ≠ 0 ∧ type < 2 ^ 16 ∧ major < 2 ^ 16 ∧ minor < 2 ^ 16

def NewEntry.extra : NewEntry → ℕ
  | .create type _ _ => if type = T_DIR then 1 else 0
  | _ => 0

def newEntry (sb : Superblock) (devread : ℕ → Option (ℕ → List UInt8))
    (devwrite : ℕ → Option (List UInt8 → ℕ)) (dnum : ℕ) (name : List UInt8) : NewEntry → K Bool
  | .dirlink inum => do
    let dp ← ilock sb dnum
    let (_, r) ← dirlink sb devread devwrite dnum dp name inum
    return r = 0
  | .link inum => do
    let r ← link sb devread devwrite dnum inum name
    return r = 0
  | .create type major minor => do
    let r ← create sb devread devwrite dnum name type major minor
    return r.isSome

/-- The call returns: it has made an entry for the name and no other, or it reports failure and
has made none. -/
def Clean (sb : Superblock) (dnum : ℕ) (d : Sectors) (name : List UInt8)
    (o : Outcome (Bool × Sectors)) : Prop :=
  ∃ ok d', o = .ret (ok, d') ∧ match ok with
    | true => ∃ inum, bindings sb dnum d' =
        Function.update (bindings sb dnum d) (key name) (some inum)
    | false => bindings sb dnum d' = bindings sb dnum d

variable (devread devwrite) in
theorem newEntry_room (h : Directory sb dnum d) (hn : sb.ninodes ≤ 65536) (hdpos : 1 ≤ dnum)
    (hfree : ∃ i < sb.ninodes, 1 ≤ i ∧ (inodeOf sb d i).type = 0)
    (hblock : 1 ≤ (freeBlocks sb d).card) (hm : bindings sb dnum d (key name) = none)
    {c : NewEntry} (hc : c.Valid sb d) (hroom : Room sb dnum d c.extra) :
    ∃ inum d', newEntry sb devread devwrite dnum name c d = .ret (true, d') ∧
      bindings sb dnum d' = Function.update (bindings sb dnum d) (key name) (some inum) := by
  cases c with
  | dirlink inum =>
    obtain ⟨hpos, hle⟩ := hc
    obtain ⟨d', hrun, hlinked⟩ := dirlink_room devread devwrite name h hpos hle hm hroom
    refine ⟨inum, d', ?_, hlinked.bindings⟩
    rw [newEntry, Prog.bind_of_ret (ilock_run h.live), Prog.bind_of_ret hrun]
    rfl
  | link inum =>
    obtain ⟨hpos, hlt, hlive, hfile⟩ := hc
    obtain ⟨d', hrun, hlinked⟩ := link_room devread devwrite h hlt hpos (by omega) hlive hfile hm
      hroom
    refine ⟨inum, d', ?_, ?_⟩
    · rw [newEntry, Prog.bind_of_ret hrun]
      rfl
    · rw [hlinked.bindings, (h.counted hlt).1.bindings]
  | create type major minor =>
    obtain ⟨ht, ht', hmaj, hmin⟩ := hc
    obtain ⟨inum, d₁, hpos, hle, hb, hcount, hrun⟩ :=
      create_last devread devwrite h hn hdpos hfree hblock hm ht ht' hmaj hmin
    obtain ⟨d', hlink, hlinked⟩ := dirlink_room devread devwrite name (hb.directory h) hpos hle
      (by rw [hb.bindings]; exact hm)
      ((hb.room_iff hcount).2 (by rw [Nat.zero_add]; exact hroom))
    refine ⟨inum, d', ?_, ?_⟩
    · rw [newEntry, Prog.bind_apply, hrun, hlink]
      rfl
    · rw [hlinked.bindings, hb.bindings]

variable (devread devwrite) in
theorem newEntry_noRoom (h : Directory sb dnum d) (hn : sb.ninodes ≤ 65536) (hdpos : 1 ≤ dnum)
    (hfree : ∃ i < sb.ninodes, 1 ≤ i ∧ (inodeOf sb d i).type = 0)
    (hblock : 1 ≤ (freeBlocks sb d).card) (hm : bindings sb dnum d (key name) = none)
    {c : NewEntry} (hc : c.Valid sb d) (hno : ¬Room sb dnum d c.extra) :
    newEntry sb devread devwrite dnum name c d = .panic (failure sb dnum d) := by
  cases c with
  | dirlink inum =>
    rw [newEntry, Prog.bind_of_ret (ilock_run h.live), Prog.bind_apply,
      dirlink_noRoom devread devwrite h inum hm hno]
    rfl
  | link inum =>
    obtain ⟨-, hlt, hlive, hfile⟩ := hc
    rw [newEntry, Prog.bind_apply, link_noRoom devread devwrite h hlt hlive hfile hm hno]
    rfl
  | create type major minor =>
    obtain ⟨ht, ht', hmaj, hmin⟩ := hc
    obtain ⟨inum, d₁, -, -, hb, hcount, hrun⟩ :=
      create_last devread devwrite h hn hdpos hfree hblock hm ht ht' hmaj hmin
    rw [newEntry, Prog.bind_apply, hrun, dirlink_noRoom devread devwrite (hb.directory h) inum
      (by rw [hb.bindings]; exact hm)
      fun hroom => hno (by have := (hb.room_iff hcount).1 hroom; rwa [Nat.zero_add] at this),
      hb.failure]
    rfl

end Clean

end Xv6.Disk
