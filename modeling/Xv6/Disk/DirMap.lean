import Xv6.Disk.Root
import Xv6.Lib.Trace

/-!
# A directory is a map

`Directory` is what a directory on disk is between calls, and `bindings` the map it stands for:
from names, as far as they count, to inodes. Each call answers and changes it as on a map.
-/

namespace Xv6.Disk
open Lib

structure Directory (sb : Superblock) (dnum : ℕ) (d : Sectors) : Prop where
  inv : BlockInv sb d
  lt : dnum < sb.ninodes
  type : (inodeOf sb d dnum).type = T_DIR
  size : (inodeOf sb d dnum).size % direntSize = 0
  distinct : SlotMap.Distinct (entries (content d (inodeOf sb d dnum)))

def bindings (sb : Superblock) (dnum : ℕ) (d : Sectors) : List UInt8 → Option ℕ :=
  SlotMap.get (entries (content d (inodeOf sb d dnum)))

inductive DirCall
  | lookup (name : List UInt8)
  | link (name : List UInt8) (inum : ℕ)
  | unlink (name : List UInt8)

inductive DirAnswer
  | found (inum : Option ℕ)
  | linked (r : ℤ)
  | removed (inum : Option ℕ)

section Calls

variable (sb : Superblock) (devread : ℕ → Option (ℕ → List UInt8))
  (devwrite : ℕ → Option (List UInt8 → ℕ)) (dnum : ℕ)

/-- A call on the directory, which is locked. An entry is removed as `sys_unlink` does it. -/
def dirCall : DirCall → K DirAnswer
  | .lookup name => do
    let dp ← .read (inodeOf sb · dnum)
    let (_, found) ← dirlookup sb devread dp name
    return .found (found.map Prod.fst)
  | .link name inum => do
    let dp ← .read (inodeOf sb · dnum)
    let (_, r) ← dirlink sb devread devwrite dnum dp name inum
    return .linked r
  | .unlink name => do
    let dp ← .read (inodeOf sb · dnum)
    let (dp, found) ← dirlookup sb devread dp name
    match found with
    | none => return .removed none
    | some (inum, off) => do
      let _ ← unlinkEntry sb devwrite dnum dp off
      return .removed (some inum)

/-- Links have the number of an inode, and the directory can grow. -/
def Allowed (d : Sectors) : DirCall → Prop
  | .link _ inum => 1 ≤ inum ∧ inum ≤ 65535 ∧ (inodeOf sb d dnum).size < MAXFILE * BSIZE
  | _ => True

def dirStep (d : Sectors) (e : DirCall × DirAnswer) (d' : Sectors) : Prop :=
  Allowed sb dnum d e.1 ∧ dirCall sb devread devwrite dnum e.1 d = .ret (e.2, d')

end Calls

def answer (m : List UInt8 → Option ℕ) : DirCall → DirAnswer
  | .lookup name => .found (m (key name))
  | .link name _ => .linked (if (m (key name)).isSome then -1 else 0)
  | .unlink name => .removed (m (key name))

def after (m : List UInt8 → Option ℕ) : DirCall → List UInt8 → Option ℕ
  | .lookup _ => m
  | .link name inum =>
    if (m (key name)).isSome then m else Function.update m (key name) (some inum)
  | .unlink name => Function.update m (key name) none

def answers (m : List UInt8 → Option ℕ) : List DirCall → List DirAnswer
  | [] => []
  | c :: cs => answer m c :: answers (after m c) cs

variable {sb : Superblock} {devread : ℕ → Option (ℕ → List UInt8)}
  {devwrite : ℕ → Option (List UInt8 → ℕ)} {dnum k : ℕ} {d d' : Sectors} {name de : List UInt8}

section Step

inductive Answers (sb : Superblock) (dnum : ℕ) (d : Sectors) (c : DirCall) :
    Outcome (DirAnswer × Sectors) → Prop
  | done {d' : Sectors} {a : DirAnswer} (h : Directory sb dnum d')
      (ha : a = answer (bindings sb dnum d) c)
      (hm : bindings sb dnum d' = after (bindings sb dnum d) c)
      (hsame : after (bindings sb dnum d) c = bindings sb dnum d → d' = d) :
      Answers sb dnum d c (.ret (a, d'))
  | full (hlink : ∃ name inum, c = .link name inum) (h : (freeBlocks sb d).card < 2) :
      Answers sb dnum d c (.panic "balloc: out of blocks")

theorem Directory.whole (h : Directory sb dnum d) :
    (inodeOf sb d dnum).size = direntSize * ((inodeOf sb d dnum).size / direntSize) :=
  (Nat.mul_div_cancel' (Nat.dvd_of_mod_eq_zero h.size)).symm

theorem Directory.mapped (h : Directory sb dnum d) :
    ∀ a < (inodeOf sb d dnum).size,
      block d (inodeOf sb d dnum) (.data (a / BSIZE)) ≠ 0 :=
  fun _ ha => h.inv.mapped_lt h.lt (by rw [h.type]; decide) ha

theorem Directory.at (h : Directory sb dnum d) :
    DirAt d (inodeOf sb d dnum) ((inodeOf sb d dnum).size / direntSize) := by
  have hlive : (inodeOf sb d dnum).type ≠ 0 := by
    rw [h.type]
    decide
  exact ⟨h.type, Nat.le_of_eq h.whole.symm, h.inv.size_le h.lt hlive,
    fun a ha => h.mapped a (h.whole ▸ ha)⟩

theorem Directory.written (h : Directory sb dnum d)
    (hw : Written sb dnum d (direntSize * k) de d') (hde : de.length = direntSize)
    (hk : direntSize * k ≤ (inodeOf sb d dnum).size) :
    entries (content d' (inodeOf sb d' dnum)) =
        splice (entries (content d (inodeOf sb d dnum))) k [slotOf de] ∧
      (SlotMap.Distinct (splice (entries (content d (inodeOf sb d dnum))) k [slotOf de]) →
        Directory sb dnum d') := by
  have hlen := length_content d (inodeOf sb d dnum)
  have hsize := h.size
  have heq : entries (content d' (inodeOf sb d' dnum)) =
      splice (entries (content d (inodeOf sb d dnum))) k [slotOf de] := by
    rw [hw.bytes]
    exact entries_splice (by rw [hlen]; exact hsize) (by rw [hlen]; exact hk) hde
  refine ⟨heq, fun hd => ⟨hw.inv, h.lt, ?_, ?_, ?_⟩⟩
  · rw [hw.fields]
    exact h.type
  · rw [hw.fields]
    change max (inodeOf sb d dnum).size (direntSize * k + de.length) % direntSize = 0
    rw [hde]
    rw [direntSize] at *
    omega
  · rw [heq]
    exact hd

theorem missing_entry (ip : Dinode) (k : ℕ) :
    missing (block d ip) (slots (direntSize * k) direntSize) ≤ 2 := by
  rw [slots_block (by decide) (by rw [direntSize, BSIZE]; omega)]
  refine Nat.le_trans (Finset.card_filter_le _ _) ?_
  unfold slotsOf
  split_ifs
  · rw [Finset.card_singleton]
    exact Nat.le_succ 1
  · exact Finset.card_union_le _ _

variable (devwrite) in
theorem writei_entry (h : Directory sb dnum d) (hde : de.length = direntSize)
    (hk : direntSize * k ≤ (inodeOf sb d dnum).size)
    (hend : direntSize * k + direntSize ≤ MAXFILE * BSIZE) :
    WritesFile sb dnum d (direntSize * k) de
      (writei sb devwrite dnum (inodeOf sb d dnum) de (direntSize * k) d) :=
  writei_spec h.inv h.lt (by rw [h.type]; decide) (by rw [h.type]; decide) hk (by rwa [hde])

variable (devread devwrite) in
theorem dirCall_lookup (h : Directory sb dnum d) (name : List UInt8) :
    dirCall sb devread devwrite dnum (.lookup name) d =
      .ret (answer (bindings sb dnum d) (.lookup name), d) := by
  rw [dirCall, Prog.bind_apply, Prog.read_apply, Outcome.ret_bind,
    Prog.bind_of_ret (dirlookup_spec h.at h.whole name)]
  simp only [Option.map_map]
  rfl

theorem lookup_answers (h : Directory sb dnum d) (name : List UInt8) :
    Answers sb dnum d (.lookup name) (dirCall sb devread devwrite dnum (.lookup name) d) := by
  rw [dirCall_lookup devread devwrite h]
  exact .done h rfl rfl fun _ => rfl

theorem dirlink_bound (h : Directory sb dnum d) {i inum : ℕ}
    (hm : bindings sb dnum d (key name) = some i) :
    dirlink sb devread devwrite dnum (inodeOf sb d dnum) name inum d =
      .ret ((inodeOf sb d dnum, -1), d) := by
  obtain ⟨⟨i, k⟩, hf, -⟩ := Option.map_eq_some_iff.1 hm
  unfold dirlink
  rw [Prog.bind_of_ret (dirlookup_spec h.at h.whole name), hf]
  rfl

theorem length_direntBytes (inum : ℕ) (name : List UInt8) :
    (direntBytes inum name).length = direntSize := by
  rw [direntBytes, List.length_append, List.length_take, List.length_append,
    List.length_replicate, Nat.min_eq_left (Nat.le_add_left _ _)]
  rfl

def Place (sb : Superblock) (dnum : ℕ) (d : Sectors) (k : ℕ) : Prop :=
  k = (inodeOf sb d dnum).size / direntSize ∧ none ∉ entries (content d (inodeOf sb d dnum)) ∨
    (entries (content d (inodeOf sb d dnum)))[k]? = some none

variable (devread devwrite) in
theorem dirlink_run (h : Directory sb dnum d) (inum : ℕ)
    (hm : bindings sb dnum d (key name) = none) :
    ∃ k, Place sb dnum d k ∧
      dirlink sb devread devwrite dnum (inodeOf sb d dnum) name inum d =
        (writei sb devwrite dnum (inodeOf sb d dnum)
          (direntBytes inum (name.takeWhile (· ≠ 0))) (direntSize * k) d).bind fun r =>
          if r.1.2 ≠ some direntSize then .panic "dirlink" else .ret ((r.1.1, 0), r.2) := by
  have hlen : (entries (content d (inodeOf sb d dnum))).length =
      (inodeOf sb d dnum).size / direntSize := by rw [length_entries, length_content]
  obtain ⟨k, hk, hslot⟩ := SlotMap.emptyFrom_spec 0 (entries (content d (inodeOf sb d dnum)))
  have hempty : emptyLoop sb devread ((inodeOf sb d dnum).size + 1) (inodeOf sb d dnum) 0 d =
      .ret ((inodeOf sb d dnum, direntSize * k), d) := by
    rw [show 0 = direntSize * 0 from rfl, emptyLoop_spec h.at h.whole (Nat.zero_le _)
      (Nat.lt_succ_of_le (Nat.div_le_self _ _)), List.drop_zero, hk, Nat.zero_add]
  have hf : SlotMap.findFrom (key name) 0 (entries (content d (inodeOf sb d dnum))) = none :=
    Option.map_eq_none_iff.1 hm
  rw [hlen] at hslot
  refine ⟨k, hslot, ?_⟩
  unfold dirlink
  rw [Prog.bind_of_ret (dirlookup_spec h.at h.whole name), hf]
  simp only [Option.map_none]
  rw [Prog.bind_of_ret hempty]
  simp only
  rw [Prog.bind_apply]
  congr 1
  funext r
  obtain ⟨⟨dp, o⟩, d'⟩ := r
  rw [Prog.ite_apply]
  rfl

theorem Directory.place (h : Directory sb dnum d)
    (hslot : Place sb dnum d k) :
    direntSize * k ≤ (inodeOf sb d dnum).size ∧
      (k = (entries (content d (inodeOf sb d dnum))).length ∨
        (entries (content d (inodeOf sb d dnum)))[k]? = some none) := by
  have hwhole := h.whole
  have hlen : (entries (content d (inodeOf sb d dnum))).length =
      (inodeOf sb d dnum).size / direntSize := by rw [length_entries, length_content]
  rw [hlen]
  refine ⟨?_, hslot.imp_left And.left⟩
  rcases hslot with ⟨rfl, -⟩ | hslot
  · exact Nat.le_of_eq hwhole.symm
  · have hlt := (List.getElem?_eq_some_iff.1 hslot).1
    rw [direntSize] at *
    omega

inductive Links (sb : Superblock) (dnum : ℕ) (d : Sectors) (x : List UInt8) (inum : ℕ) :
    Outcome ((Dinode × ℤ) × Sectors) → Prop
  | done {d' : Sectors} (h : Directory sb dnum d')
      (hm : bindings sb dnum d' = Function.update (bindings sb dnum d) x (some inum)) :
      Links sb dnum d x inum (.ret ((inodeOf sb d' dnum, 0), d'))
  | full (h : (freeBlocks sb d).card < 2) : Links sb dnum d x inum (.panic "balloc: out of blocks")

theorem Directory.linked (h : Directory sb dnum d) {inum : ℕ} (hpos : 1 ≤ inum)
    (hle : inum ≤ 65535)
    (hslot : Place sb dnum d k)
    (hm : bindings sb dnum d (key name) = none)
    (hw : Written sb dnum d (direntSize * k) (direntBytes inum (name.takeWhile (· ≠ 0))) d') :
    Directory sb dnum d' ∧
      bindings sb dnum d' = Function.update (bindings sb dnum d) (key name) (some inum) ∧
      entries (content d' (inodeOf sb d' dnum)) =
        splice (entries (content d (inodeOf sb d dnum))) k [some (key name, inum)] := by
  obtain ⟨hk, hplace⟩ := h.place hslot
  obtain ⟨hd, hget⟩ := SlotMap.put_new h.distinct hplace hm inum
  obtain ⟨heq, hdir⟩ := h.written hw (length_direntBytes _ _) hk
  rw [slotOf_dirent hpos hle] at heq hdir
  exact ⟨hdir hd, by rw [bindings, heq, hget]; rfl, heq⟩

variable (devread devwrite) in
theorem dirlink_new (h : Directory sb dnum d) {inum : ℕ} (hpos : 1 ≤ inum) (hle : inum ≤ 65535)
    (hroom : (inodeOf sb d dnum).size < MAXFILE * BSIZE)
    (hm : bindings sb dnum d (key name) = none) :
    Links sb dnum d (key name) inum
      (dirlink sb devread devwrite dnum (inodeOf sb d dnum) name inum d) := by
  have hsize := h.size
  obtain ⟨k, hslot, hrun⟩ := dirlink_run devread devwrite h inum hm
  have hk := (h.place hslot).1
  have hde := length_direntBytes inum (name.takeWhile (· ≠ 0))
  have hend : direntSize * k + direntSize ≤ MAXFILE * BSIZE := by
    rw [show MAXFILE * BSIZE = 71680 from rfl] at *
    rw [direntSize] at *
    omega
  have hwrite := writei_entry devwrite h hde hk hend
  rw [hrun]
  generalize writei sb devwrite dnum (inodeOf sb d dnum)
    (direntBytes inum (name.takeWhile (· ≠ 0))) (direntSize * k) d = r at hwrite
  cases hwrite with
  | written hw =>
    obtain ⟨hdir, hbind, -⟩ := h.linked hpos hle hslot hm hw
    rw [Outcome.ret_bind, if_neg (by rw [hde]; exact fun hne => hne rfl)]
    exact .done hdir hbind
  | full hfull =>
    exact .full (Nat.lt_of_lt_of_le hfull (by rw [hde]; exact missing_entry _ _))

theorem link_answers (h : Directory sb dnum d) {inum : ℕ}
    (hok : Allowed sb dnum d (.link name inum)) :
    Answers sb dnum d (.link name inum) (dirCall sb devread devwrite dnum (.link name inum) d) := by
  obtain ⟨hpos, hle, hroom⟩ := hok
  rw [dirCall, Prog.bind_apply, Prog.read_apply, Outcome.ret_bind]
  cases hm : bindings sb dnum d (key name) with
  | some i =>
    have hafter : after (bindings sb dnum d) (.link name inum) = bindings sb dnum d := by
      rw [after, hm]
      rfl
    rw [Prog.bind_of_ret (dirlink_bound h hm)]
    refine .done h ?_ hafter.symm fun _ => rfl
    rw [answer, hm]
    rfl
  | none =>
    have hafter : after (bindings sb dnum d) (.link name inum) =
        Function.update (bindings sb dnum d) (key name) (some inum) := by
      rw [after, hm]
      rfl
    have hlink := dirlink_new devread devwrite h hpos hle hroom hm
    generalize hr : dirlink sb devread devwrite dnum (inodeOf sb d dnum) name inum d = r at hlink
    cases hlink with
    | done hd hm' =>
      rw [Prog.bind_of_ret hr]
      refine .done hd ?_ (hm'.trans hafter.symm) fun hsame => ?_
      · rw [answer, hm]
        rfl
      · have hx := congrFun (hafter.symm.trans hsame) (key name)
        rw [Function.update_self, hm] at hx
        cases hx
    | full hfull =>
      rw [Prog.bind_apply, hr]
      exact .full ⟨name, inum, rfl⟩ hfull

variable (devwrite) in
theorem writei_inside (h : Directory sb dnum d) (hde : de.length = direntSize)
    (hk : k < (inodeOf sb d dnum).size / direntSize) :
    ∃ d', Written sb dnum d (direntSize * k) de d' ∧
      writei sb devwrite dnum (inodeOf sb d dnum) de (direntSize * k) d =
        .ret ((inodeOf sb d' dnum, some de.length), d') := by
  have hle := h.at.small
  have hin : direntSize * k + direntSize ≤ (inodeOf sb d dnum).size := by
    rw [direntSize] at *
    omega
  have hwrite := writei_entry devwrite h hde (Nat.le_of_add_right_le hin)
    (Nat.le_trans hin hle)
  generalize writei sb devwrite dnum (inodeOf sb d dnum) de (direntSize * k) d = r at hwrite
  cases hwrite with
  | written hw => exact ⟨_, hw, rfl⟩
  | full hfull =>
    rw [missing_eq_zero (slots_mapped fun a _ ha => h.mapped a (by omega))] at hfull
    exact absurd hfull (Nat.not_lt_zero _)

variable (devwrite) in
theorem unlinkEntry_spec (h : Directory sb dnum d) {x : List UInt8} {inum : ℕ}
    (hk : (entries (content d (inodeOf sb d dnum)))[k]? = some (some (x, inum))) :
    ∃ d', unlinkEntry sb devwrite dnum (inodeOf sb d dnum) (direntSize * k) d =
        .ret (inodeOf sb d' dnum, d') ∧ Directory sb dnum d' ∧
      bindings sb dnum d' = Function.update (bindings sb dnum d) x none := by
  have hlt := (List.getElem?_eq_some_iff.1 hk).1
  rw [length_entries, length_content] at hlt
  have hlen : (List.replicate direntSize (0 : UInt8)).length = direntSize := List.length_replicate
  obtain ⟨d', hw, hr⟩ := writei_inside devwrite h hlen hlt
  obtain ⟨heq, hdir⟩ := h.written hw hlen (by rw [direntSize] at *; omega)
  obtain ⟨hd, hput⟩ := SlotMap.put_none h.distinct hk
  refine ⟨d', ?_, hdir hd, ?_⟩
  · unfold unlinkEntry
    rw [Prog.bind_of_ret hr]
    simp only
    rw [if_neg (by rw [hlen]; exact fun hne => hne rfl)]
    rfl
  · unfold bindings
    rw [heq]
    exact hput

theorem unlink_answers (h : Directory sb dnum d) (name : List UInt8) :
    Answers sb dnum d (.unlink name) (dirCall sb devread devwrite dnum (.unlink name) d) := by
  rw [dirCall, Prog.bind_apply, Prog.read_apply, Outcome.ret_bind,
    Prog.bind_of_ret (dirlookup_spec h.at h.whole name)]
  cases hf : SlotMap.findFrom (key name) 0 (entries (content d (inodeOf sb d dnum))) with
  | none =>
    have hm : bindings sb dnum d (key name) = none := by
      unfold bindings SlotMap.get
      rw [hf]
      rfl
    have hafter : after (bindings sb dnum d) (.unlink name) = bindings sb dnum d := by
      rw [after, ← hm, Function.update_eq_self]
    refine .done h ?_ hafter.symm fun _ => rfl
    rw [answer, hm]
  | some r =>
    obtain ⟨i, k⟩ := r
    have hm : bindings sb dnum d (key name) = some i := by
      unfold bindings SlotMap.get
      rw [hf]
      rfl
    have hget := (SlotMap.findFrom_some hf).2
    obtain ⟨d', hr, hd, hm'⟩ := unlinkEntry_spec devwrite h hget
    rw [Nat.sub_zero] at hr
    simp only [Option.map_some]
    rw [Prog.bind_of_ret hr]
    refine .done hd ?_ hm' fun hsame => ?_
    · rw [answer, hm]
    · have hx := congrFun hsame (key name)
      rw [after, Function.update_self, hm] at hx
      cases hx

variable (devread devwrite) in
theorem dirCall_answers (h : Directory sb dnum d) {c : DirCall} (hok : Allowed sb dnum d c) :
    Answers sb dnum d c (dirCall sb devread devwrite dnum c d) :=
  match c with
  | .lookup name => lookup_answers h name
  | .link _ _ => link_answers h hok
  | .unlink name => unlink_answers h name

end Step

section Runs

theorem answers_append (m : List UInt8 → Option ℕ) (cs : List DirCall) (c : DirCall) :
    answers m (cs ++ [c]) = answers m cs ++ [answer (cs.foldl after m) c] := by
  induction cs generalizing m with
  | nil => rfl
  | cons c' cs ih => rw [List.cons_append, answers, ih, answers, List.foldl_cons, List.cons_append]

/-- A run of calls answers as on a map. -/
structure Explained (sb : Superblock) (dnum : ℕ) (d : Sectors) (log : List (DirCall × DirAnswer))
    (d' : Sectors) : Prop where
  directory : Directory sb dnum d'
  bindings : bindings sb dnum d' = (log.map Prod.fst).foldl after (bindings sb dnum d)
  answers : log.map Prod.snd = answers (Disk.bindings sb dnum d) (log.map Prod.fst)

theorem Explained.snoc {log : List (DirCall × DirAnswer)} {e : DirCall × DirAnswer} {d'' : Sectors}
    (h : Explained sb dnum d log d') (hstep : dirStep sb devread devwrite dnum d' e d'') :
    Explained sb dnum d (log ++ [e]) d'' := by
  obtain ⟨hok, hrun⟩ := hstep
  have hans := dirCall_answers devread devwrite h.directory hok
  rw [hrun] at hans
  cases hans with
  | done hd ha hm _ =>
    refine ⟨hd, ?_, ?_⟩
    · rw [hm, h.bindings, List.map_append, List.foldl_append]
      rfl
    · rw [List.map_append, List.map_append, List.map_singleton, List.map_singleton, answers_append,
        ← h.answers, ← h.bindings, ha]

/-- After any run of calls the directory is the map that the calls have made, each of them has
answered as on that map, and so does the next one. -/
theorem directory_is_map {log : List (DirCall × DirAnswer)} (h : Directory sb dnum d)
    (hrun : Runs (dirStep sb devread devwrite dnum) d log d') :
    Explained sb dnum d log d' ∧ ∀ c, Allowed sb dnum d' c →
      Answers sb dnum d' c (dirCall sb devread devwrite dnum c d') := by
  have hexp : Explained sb dnum d log d' := by
    induction hrun with
    | nil => exact ⟨h, rfl, rfl⟩
    | snoc _ hstep ih => exact ih.snoc hstep
  exact ⟨hexp, fun c hok => dirCall_answers devread devwrite hexp.directory hok⟩

end Runs

section Root

open Mkfs hiding sb slash

variable {files : List Input} {s : St}

theorem root_directory (hv : Valid files) (h : Final files s)
    (hroot : (files.length + 2) % (BSIZE / direntSize) ≠ 0) :
    Directory Mkfs.sb ROOTINO s.disk := by
  refine ⟨Final.blockInv h hv.inodes hroot, by decide, root_type h, ?_, ?_⟩
  · rw [root_size h, rootSize_eq]
    exact Nat.mul_mod_right _ _
  · rw [(whole_image h hv.inodes hroot).entries hv.inodes]
    exact SlotMap.distinct_filled hv.nodup _

theorem bindings_root (hv : Valid files) (h : Final files s)
    (hroot : (files.length + 2) % (BSIZE / direntSize) ≠ 0) {f : Input}
    (hk : files[k]? = some f) : bindings Mkfs.sb ROOTINO s.disk (key f.name) = some (2 + k) := by
  rw [bindings, SlotMap.get_eq_some_iff (root_directory hv h hroot).distinct]
  refine ⟨2 + k, ?_⟩
  rw [(whole_image h hv.inodes hroot).entries hv.inodes, SlotMap.getElem?_filled]
  exact rootNames_file hk

theorem sample_valid : Valid [sample 0 1] := by
  refine ⟨fun f hf => ?_, List.nodup_singleton _, fun f hf => ?_, ?_, by decide⟩
  · rw [List.mem_singleton.1 hf]
    exact ⟨by decide, by decide, by decide⟩
  · rw [List.mem_singleton.1 hf, length_sample]
    decide
  · rw [total, List.map_singleton, length_sample]
    decide

/-- The file "A" is looked up in the root directory. -/
theorem directory_is_map_root : ∃ d, Directory Mkfs.sb ROOTINO d ∧
    Explained Mkfs.sb ROOTINO d [(.lookup [65], .found (some 2))] d := by
  obtain ⟨s, h⟩ := exists_image
  have hroot : ([sample 0 1].length + 2) % (BSIZE / direntSize) ≠ 0 := by decide
  have hdir := root_directory sample_valid h hroot
  have hbound : bindings Mkfs.sb ROOTINO s.disk (key [65]) = some 2 :=
    bindings_root (k := 0) sample_valid h hroot rfl
  have hcall := dirCall_lookup (fun _ => none) (fun _ => none) hdir [65]
  rw [answer, hbound] at hcall
  have hstep : dirStep Mkfs.sb (fun _ => none) (fun _ => none) ROOTINO s.disk
      (.lookup [65], .found (some 2)) s.disk := ⟨trivial, hcall⟩
  exact ⟨s.disk, hdir, (directory_is_map hdir (.snoc (.nil _) hstep)).1⟩

end Root

end Xv6.Disk
