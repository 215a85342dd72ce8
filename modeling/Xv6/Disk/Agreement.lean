import Xv6.Disk.Root

/-!
# `mkfs` and the kernel agree

`Agrees`: on the image of some files the kernel finds each of them by its name, with its bytes,
and nothing else in the root directory.

The root directory has a hole when its entries fill their blocks. A search that gets there takes
a block, and when the files have taken all of them there is none.
-/

namespace Xv6.Disk
open Lib
open Mkfs hiding sb slash

def Finds (sb : Superblock) (devsw : ℕ → Option (ℕ → List UInt8)) (d : Sectors) (f : Input) :
    Prop :=
  ∃ inum, (∀ cwd, namei sb devsw cwd (slash :: f.name) d = .ret (some inum, d)) ∧
    (inodeOf sb d inum).type = T_FILE ∧ (inodeOf sb d inum).size = f.bytes.length ∧
    readi sb devsw (inodeOf sb d inum) 0 f.bytes.length d =
      .ret ((inodeOf sb d inum, some f.bytes), d)

def Absent (files : List Input) (name : List UInt8) : Prop :=
  key name ≠ [dot] ∧ key name ≠ [dot, dot] ∧ ∀ f ∈ files, key name ≠ key f.name

structure Agrees (files : List Input) (d : Sectors) : Prop where
  found : ∀ devsw, ∀ f ∈ files, Finds (Superblock.decode (d 1)) devsw d f
  missing : ∀ devsw name, Absent files name → ∃ dp d',
    dirlookup (Superblock.decode (d 1)) devsw (inodeOf (Superblock.decode (d 1)) d ROOTINO) name d =
      .ret ((dp, none), d')

section Paths

variable {devsw : ℕ → Option (ℕ → List UInt8)} {files : List Input} {s : St} {k : ℕ} {f : Input}
  {name : List UInt8}

theorem skipelem_name (hne : name ≠ []) (hslash : slash ∉ name) :
    skipelem (slash :: name) = some (name.take DIRSIZ, []) := by
  have hdrop : (slash :: name).dropWhile (· = slash) = name := by
    obtain ⟨b, l, rfl⟩ := List.exists_cons_of_ne_nil hne
    have hb : b ≠ slash := fun e => hslash (e ▸ List.mem_cons_self)
    rw [List.dropWhile_cons_of_pos (by decide), List.dropWhile_cons_of_neg (by simpa using hb)]
  have hall : ∀ b ∈ name, decide (b ≠ slash) = true := by
    intro b hb
    rw [decide_eq_true_eq]
    rintro rfl
    exact hslash hb
  unfold skipelem
  simp only [hdrop]
  rw [if_neg hne, List.takeWhile_eq_self_iff.2 hall, List.dropWhile_eq_nil_iff.2 hall]
  rfl

theorem slash_name (h : Mkfs.slash ∉ f.arg) : slash ∉ f.name := by
  unfold Input.name
  split_ifs
  · exact fun hmem => h (List.mem_of_mem_tail hmem)
  · exact h

theorem key_take (name : List UInt8) : key (name.take DIRSIZ) = key name := by
  rw [key, key, List.take_take, Nat.min_self]

theorem namei_file (hv : Valid files) (h : Final files s) (hk : files[k]? = some f) (cwd : ℕ) :
    namei Mkfs.sb devsw cwd (slash :: f.name) s.disk = .ret (some (2 + k), s.disk) := by
  have hmem := List.mem_of_getElem? hk
  have hskip := skipelem_name (hv.names f hmem).1 (slash_name (h.names f hmem))
  have htype := root_type h
  have hlock : ilock Mkfs.sb ROOTINO s.disk = .ret (inodeOf Mkfs.sb s.disk ROOTINO, s.disk) := by
    unfold ilock
    rw [Prog.bind_apply, Prog.read_apply, Outcome.ret_bind]
    change (if (inodeOf Mkfs.sb s.disk ROOTINO).type = 0 then _ else _ : K _) s.disk = _
    rw [if_neg (by rw [htype]; decide)]
    rfl
  unfold namei
  rw [List.head?_cons, if_pos rfl, List.length_cons, namexLoop, hskip]
  simp only
  rw [Prog.bind_of_ret hlock, if_neg (not_not.2 htype),
    Prog.bind_of_ret (root_found hv h hk (key_take f.name))]
  rfl

theorem finds_file (hv : Valid files) (h : Final files s) (hf : f ∈ files) :
    Finds Mkfs.sb devsw s.disk f := by
  obtain ⟨k, hlt, rfl⟩ := List.getElem_of_mem hf
  have hk : files[k]? = some files[k] := List.getElem?_eq_getElem hlt
  have hi : 2 + k < Mkfs.sb.ninodes := by
    have := hv.inodes
    change 2 + k < NINODES
    omega
  have hinode : inodeOf Mkfs.sb s.disk (2 + k) =
      fileInode T_FILE (files[k]).bytes.length (table s.disk (2 + k)).addrs := by
    rw [inodeOf_of_lt hi]
    exact h.file k _ hk
  have htype : (inodeOf Mkfs.sb s.disk (2 + k)).type = T_FILE := by
    rw [hinode]
    rfl
  have hsize : (inodeOf Mkfs.sb s.disk (2 + k)).size = (files[k]).bytes.length := by
    rw [hinode]
    rfl
  have hsmall : (files[k]).bytes.length < 2 ^ 32 :=
    Nat.lt_of_le_of_lt (hv.sizes _ hf) (by decide)
  refine ⟨2 + k, namei_file hv h hk, htype, hsize, ?_⟩
  rw [readi_spec (fun a ha _ _ => ?_) (by rw [htype]; decide) (by decide) hsmall,
    if_neg (by omega), content_image h hv.inodes hk, List.drop_zero,
    List.take_of_length_le (Nat.le_refl _)]
  have hblock : a / BSIZE < blocksOf (contents files (2 + k)).length := by
    rw [contents_file hk, ← hsize, blocksOf, BSIZE]
    omega
  exact (byte_image h hv.inodes (by omega) (by omega) hblock).1

end Paths

section Agreement

variable {files : List Input} {s : St} {name : List UInt8}

theorem Absent.notMem (h : Absent files name) : key name ∉ (rootNames files).map Prod.fst := by
  intro hmem
  rw [rootNames, List.map_cons, List.map_cons, List.mem_cons, List.mem_cons] at hmem
  rcases hmem with he | he | hmem
  · exact h.1 he
  · exact h.2.1 he
  · obtain ⟨p, hp, he⟩ := List.mem_map.1 hmem
    obtain ⟨q, hq, rfl⟩ := List.mem_map.1 hp
    exact h.2.2 q.1 (List.fst_mem_of_mem_zipIdx hq) he.symm

theorem absent_nil (hv : Valid files) : Absent files [] := by
  refine ⟨by decide, by decide, fun f hf he => ?_⟩
  rw [key_name] at he
  rcases List.take_eq_nil_iff.1 he.symm with h0 | hnil
  · exact absurd h0 (by decide)
  · exact (hv.names f hf).1 hnil

theorem Final.agrees_iff (hv : Valid files) (h : Final files s) : Agrees files s.disk ↔
    (files.length + 2) % (BSIZE / direntSize) ≠ 0 ∨ total files < FSSIZE := by
  have hsb := h.superblock
  constructor
  · intro hagree
    by_contra hno
    obtain ⟨hroot, hfull⟩ := not_or.1 hno
    obtain ⟨dp, d', hrun⟩ := hagree.missing (fun _ => none) [] (absent_nil hv)
    rw [hsb, root_missing_full h hv.inodes (not_not.1 hroot) (Nat.le_of_not_lt hfull)
      (absent_nil hv).notMem] at hrun
    cases hrun
  · intro hcond
    refine ⟨fun devsw f hf => ?_, fun devsw name hname => ?_⟩
    · rw [hsb]
      exact finds_file hv h hf
    · rw [hsb]
      by_cases hroot : (files.length + 2) % (BSIZE / direntSize) = 0
      · exact root_missing_hole h hv.inodes hroot (hcond.resolve_left (not_not.2 hroot))
          hname.notMem
      · exact ⟨_, _, root_missing h hv.inodes hroot hname.notMem⟩

/-- There is an image when no argument has a slash, and the kernel agrees on it unless the root
directory has a hole and no block is left. -/
theorem mkfs_agrees_iff (hv : Valid files) :
    ((∃ s, mkfs files = .ret s) ↔ ∀ f ∈ files, Mkfs.slash ∉ f.arg) ∧
    ∀ s, mkfs files = .ret s → (Agrees files s.disk ↔
      (files.length + 2) % (BSIZE / direntSize) ≠ 0 ∨ total files < FSSIZE) := by
  have hslots : files.length + 2 ≤ inodeSlots := Nat.le_trans hv.inodes (by decide)
  refine ⟨⟨?_, fun hnames => ?_⟩, fun s hs => Final.agrees_iff hv (mkfs_final hslots hs)⟩
  · rintro ⟨s, hs⟩
    exact (mkfs_final hslots hs).names
  · exact mkfs_finishes hslots ⟨hnames, hv.sizes, hv.blocks⟩

end Agreement

section Thirty

variable {blocks : Fin 30 → ℕ}

theorem sample_name (k : Fin 30) (n : ℕ) : (sample k n).name = [UInt8.ofNat (65 + k.1)] := by
  have hne : ∀ k : Fin 30, UInt8.ofNat (65 + k.1) ≠ underscore := by decide
  unfold Input.name
  rw [if_neg]
  · rfl
  · intro he
    exact hne k (Option.some.inj he)

theorem thirty_valid (hb : ∀ k, blocks k ≤ MAXFILE) (ht : total (thirty blocks) ≤ FSSIZE) :
    Valid (thirty blocks) := by
  have hdot : ∀ k : Fin 30, UInt8.ofNat (65 + k.1) ≠ dot := by decide
  refine ⟨fun f hf => ?_, ?_, (thirty_fit hb ht).sizes, ht, ?_⟩
  · obtain ⟨k, _, rfl⟩ := List.mem_map.1 hf
    rw [sample_name]
    refine ⟨List.cons_ne_nil _ _, fun he => hdot k (List.cons.inj he).1, fun he => ?_⟩
    cases (List.cons.inj he).2
  · have hmap : (thirty blocks).map (fun f => f.name.take DIRSIZ) =
        (List.finRange 30).map fun k => [UInt8.ofNat (65 + k.1)] := by
      rw [thirty, List.map_map]
      apply List.map_congr_left
      intro k _
      rw [Function.comp_apply, sample_name]
      rfl
    rw [hmap]
    decide
  · rw [length_thirty]
    decide

def full (k : Fin 30) : ℕ := if k.1 < 6 then 140 else if k.1 = 6 then 93 else 0

/-- The search for the name "a" stops the kernel. -/
theorem thirty_disagrees : Valid (thirty full) ∧ ∃ s, mkfs (thirty full) = .ret s ∧
    Absent (thirty full) [97] ∧
    dirlookup Mkfs.sb (fun _ => none) (inodeOf Mkfs.sb s.disk ROOTINO) [97] s.disk =
      .panic "balloc: out of blocks" ∧ ¬Agrees (thirty full) s.disk := by
  have hb : ∀ k, full k ≤ MAXFILE := by decide
  have ht : total (thirty full) = FSSIZE := by
    rw [total_thirty]
    decide
  have hv := thirty_valid hb (Nat.le_of_eq ht)
  have hslots : (thirty full).length + 2 ≤ inodeSlots := Nat.le_trans hv.inodes (by decide)
  obtain ⟨s, hs⟩ := mkfs_finishes hslots (thirty_fit hb (Nat.le_of_eq ht))
  have h := mkfs_final hslots hs
  have hroot : ((thirty full).length + 2) % (BSIZE / direntSize) = 0 := by
    rw [length_thirty]
    rfl
  have habsent : Absent (thirty full) [97] := by
    have hne : ∀ k : Fin 30, [97] ≠ [UInt8.ofNat (65 + k.1)] := by decide
    refine ⟨by decide, by decide, fun f hf he => ?_⟩
    obtain ⟨k, _, rfl⟩ := List.mem_map.1 hf
    rw [key_name, sample_name] at he
    exact hne k he
  refine ⟨hv, s, hs, habsent, root_missing_full h hv.inodes hroot (Nat.le_of_eq ht.symm)
    habsent.notMem, ?_⟩
  rw [Final.agrees_iff hv h, not_or, not_not, ht]
  exact ⟨hroot, Nat.lt_irrefl _⟩

end Thirty

/-- The kernel finds thirty files that leave room. -/
theorem mkfs_agrees_thirty : ∃ s, mkfs (thirty fun _ => 1) = .ret s ∧
    Agrees (thirty fun _ => 1) s.disk := by
  have ht : total (thirty fun _ => 1) < FSSIZE := by
    rw [total_thirty]
    decide
  have hb : ∀ _ : Fin 30, 1 ≤ MAXFILE := fun _ => by decide
  obtain ⟨hmkfs, hiff⟩ := mkfs_agrees_iff (thirty_valid hb (Nat.le_of_lt ht))
  obtain ⟨s, hs⟩ := hmkfs.2 (thirty_fit hb (Nat.le_of_lt ht)).names
  exact ⟨s, hs, (hiff s hs).2 (.inr ht)⟩

end Xv6.Disk
