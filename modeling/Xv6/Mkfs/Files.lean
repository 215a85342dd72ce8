import Xv6.Mkfs.Image

/-!
# The files of the image

Each input file has the next inode, its bytes, and an entry in the root directory.
-/

namespace Xv6.Mkfs
open Lib Disk

theorem length_direntBytes (inum : ℕ) (name : List UInt8) :
    (direntBytes inum name).length = direntSize := by
  have : ((name ++ List.replicate DIRSIZ 0).take DIRSIZ).length = DIRSIZ := by
    rw [List.length_take, List.length_append, List.length_replicate]
    omega
  rw [direntBytes, List.length_append, this]
  rfl

def need (len : ℕ) : ℕ := nodes (blocksOf len)

theorem need_mono {len len' : ℕ} (h : len ≤ len') : need len ≤ need len' := by
  refine nodes_mono ?_
  unfold blocksOf
  rw [BSIZE]
  omega

section Chunks

variable {s : St} {ty : ℕ → ℕ} {cs : ℕ → List UInt8} {inum : ℕ}

theorem appendChunks_spec (chunks : List (List UInt8)) (h : Image s ty cs)
    (hi : 1 ≤ inum ∧ inum < s.freeinode) :
    Prog.Wp (appendChunks inum chunks) (fun _ => Grown s ty cs inum chunks.flatten)
      (fun _ => ¬Room s (cs inum).length chunks.flatten.length) s := by
  induction chunks generalizing s cs with
  | nil =>
    refine ⟨?_, rfl, by rw [List.flatten_nil, List.append_nil]⟩
    rw [List.flatten_nil, List.append_nil, Function.update_eq_self]
    exact h
  | cons c chunks ih =>
    have hmono : need ((cs inum).length + c.length) ≤
        need ((cs inum).length + (c :: chunks).flatten.length) := need_mono (by
      rw [List.flatten_cons, List.length_append]
      omega)
    have hlen : (cs inum ++ c).length = (cs inum).length + c.length := List.length_append
    refine Prog.wp_bind.2 ((iappend_spec h hi c).mono (fun _ s₁ hg => ?_) fun _ hE hroom => hE ?_)
    · have hcount := hg.count
      have hrec := ih hg.image (hg.freeinode ▸ hi)
      simp only [Function.update_self, hlen] at hrec hcount
      refine hrec.mono (fun _ s' hg' => ?_) fun _ hE hroom => hE ?_
      · obtain ⟨himage, hfree, hcount'⟩ := hg'
        have hcs : cs inum ++ c ++ chunks.flatten = cs inum ++ (c :: chunks).flatten := by
          rw [List.flatten_cons, List.append_assoc]
        simp only [Function.update_self, Function.update_idem, hcs, hlen] at himage hcount'
        refine ⟨himage, hfree.trans hg.freeinode, ?_⟩
        omega
      · obtain ⟨h1, h2⟩ := hroom
        rw [List.flatten_cons, List.length_append, ← Nat.add_assoc] at h1 h2
        exact ⟨h1, by omega⟩
    · obtain ⟨h1, h2⟩ := hroom
      unfold need at hmono
      rw [List.flatten_cons, List.length_append] at h1 h2 hmono
      exact ⟨by omega, by omega⟩

end Chunks

section Files

variable {s : St} {ty : ℕ → ℕ} {cs : ℕ → List UInt8}

def withFile (n : ℕ) (f : Input) (cs : ℕ → List UInt8) : ℕ → List UInt8 :=
  Function.update (Function.update cs ROOTINO (cs ROOTINO ++ direntBytes n f.name)) n f.bytes

structure Addable (s : St) (len : ℕ) (files : List Input) : Prop where
  names : ∀ f ∈ files, slash ∉ f.arg
  sizes : ∀ f ∈ files, f.bytes.length ≤ MAXFILE * BSIZE
  root : len + direntSize * files.length ≤ MAXFILE * BSIZE
  blocks : s.freeblock + need (len + direntSize * files.length) +
    (files.map fun f => need f.bytes.length).sum ≤ FSSIZE + need len

structure Added (s : St) (ty : ℕ → ℕ) (cs : ℕ → List UInt8) (f : Input) (s' : St) : Prop where
  image : Image s' (Function.update ty s.freeinode T_FILE) (withFile s.freeinode f cs)
  freeinode : s'.freeinode = s.freeinode + 1
  count : s'.freeblock + need (cs ROOTINO).length =
    s.freeblock + need ((cs ROOTINO).length + direntSize) + need f.bytes.length
  name : slash ∉ f.arg

theorem addFile_spec (f : Input) (h : Image s ty cs) (hroot : ROOTINO < s.freeinode)
    (hn : s.freeinode < inodeSlots) :
    Prog.Wp (addFile ROOTINO f) (fun _ => Added s ty cs f)
      (fun _ => ¬Addable s (cs ROOTINO).length [f]) s := by
  have hne : ROOTINO ≠ s.freeinode := Nat.ne_of_lt hroot
  refine Prog.wp_bind.2 (wp_assert (fun hslash => ?_) fun hslash hadd =>
    hslash (hadd.names f List.mem_cons_self))
  refine Prog.wp_bind.2 ((ialloc_spec (E := fun _ => False) h hn (by decide)).mono
    (fun inum s₁ hs₁ => ?_) nofun)
  obtain ⟨rfl, himage, hfreeinode, hfree⟩ := hs₁
  generalize hin : s.freeinode = inum at *
  have hlen : (Function.update cs inum [] ROOTINO).length = (cs ROOTINO).length := by
    rw [Function.update_of_ne hne]
  have hin₁ : 1 ≤ ROOTINO ∧ ROOTINO < s₁.freeinode := ⟨le_rfl, by omega⟩
  have hroot₁ := iappend_spec himage hin₁ (direntBytes inum f.name)
  rw [hlen, length_direntBytes] at hroot₁
  refine Prog.wp_bind.2 (hroot₁.mono (fun _ s₂ hg => ?_) fun _ hE hadd => hE ?_)
  · obtain ⟨himage₂, hfree₂, hcount₂⟩ := hg
    rw [Function.update_of_ne hne] at himage₂ hcount₂
    have hinum : Function.update (Function.update cs inum []) ROOTINO
        (cs ROOTINO ++ direntBytes inum f.name) inum = [] := by
      rw [Function.update_of_ne hne.symm, Function.update_self]
    have hin₂ : 1 ≤ inum ∧ inum < s₂.freeinode := ⟨by omega, by omega⟩
    have hchunks := appendChunks_spec f.chunks himage₂ hin₂
    rw [hinum] at hchunks
    rw [List.length_append, length_direntBytes] at hcount₂
    refine hchunks.mono (fun _ s₃ hg₃ => ?_) fun _ hE hadd => hE ?_
    · obtain ⟨himage₃, hfree₃, hcount₃⟩ := hg₃
      rw [hinum, List.nil_append] at himage₃ hcount₃
      refine ⟨?_, by omega, ?_, hslash⟩
      · have hcs := Function.update_comm hne.symm [] (cs ROOTINO ++ direntBytes inum f.name) cs
        rw [hcs, Function.update_idem] at himage₃
        rw [hin]
        exact himage₃
      · have h0 : nodes (blocksOf ([] : List UInt8).length) = 0 := by decide
        unfold need Input.bytes
        omega
    · have h1 := hadd.sizes f List.mem_cons_self
      have h2 := hadd.blocks
      have h0 : nodes (blocksOf 0) = 0 := by decide
      simp only [List.length_singleton, Nat.mul_one, List.map_cons, List.map_nil, List.sum_cons,
        List.sum_nil, Nat.add_zero] at h2
      unfold need Input.bytes at *
      refine ⟨by rw [List.length_nil, Nat.zero_add]; exact h1, ?_⟩
      rw [List.length_nil, Nat.zero_add, h0]
      omega
  · have h1 := hadd.root
    have h2 := hadd.blocks
    simp only [List.length_singleton, Nat.mul_one, List.map_cons, List.map_nil, List.sum_cons,
      List.sum_nil, Nat.add_zero] at h1 h2
    unfold need at h2
    exact ⟨h1, by omega⟩

def dirents : ℕ → List Input → List UInt8
  | _, [] => []
  | n, f :: files => direntBytes n f.name ++ dirents (n + 1) files

theorem length_dirents (n : ℕ) (files : List Input) :
    (dirents n files).length = direntSize * files.length := by
  induction files generalizing n with
  | nil => rfl
  | cons f files ih =>
    rw [dirents, List.length_append, length_direntBytes, ih, List.length_cons, Nat.mul_succ,
      Nat.add_comm]

def withFiles : ℕ → List Input → (ℕ → List UInt8) → ℕ → List UInt8
  | _, [], cs => cs
  | n, f :: files, cs => withFiles (n + 1) files (withFile n f cs)

theorem withFiles_root {n : ℕ} (files : List Input) (hn : ROOTINO < n) :
    withFiles n files cs ROOTINO = cs ROOTINO ++ dirents n files := by
  induction files generalizing n cs with
  | nil => exact (List.append_nil _).symm
  | cons f files ih =>
    have hf : withFile n f cs ROOTINO = cs ROOTINO ++ direntBytes n f.name := by
      rw [withFile, Function.update_of_ne (Nat.ne_of_lt hn), Function.update_self]
    rw [withFiles, ih (Nat.lt_succ_of_lt hn), hf, List.append_assoc]
    rfl

theorem withFiles_of_lt {n i : ℕ} (files : List Input) (hi : i < n) (hroot : i ≠ ROOTINO) :
    withFiles n files cs i = cs i := by
  induction files generalizing n cs with
  | nil => rfl
  | cons f files ih =>
    rw [withFiles, ih (Nat.lt_succ_of_lt hi), withFile, Function.update_of_ne (Nat.ne_of_lt hi),
      Function.update_of_ne hroot]

theorem withFiles_file {n k : ℕ} {files : List Input} {f : Input} (hn : ROOTINO < n)
    (hk : files[k]? = some f) : withFiles n files cs (n + k) = f.bytes := by
  induction files generalizing n k cs with
  | nil => cases hk
  | cons f' files ih =>
    cases k with
    | zero =>
      obtain rfl : f' = f := Option.some.inj hk
      rw [Nat.add_zero, withFiles, withFiles_of_lt files (Nat.lt_succ_self n) (Nat.ne_of_gt hn),
        withFile, Function.update_self]
    | succ k =>
      rw [withFiles, Nat.add_comm k 1, ← Nat.add_assoc]
      exact ih (Nat.lt_succ_of_lt hn) hk

def withTypes (n m : ℕ) (ty : ℕ → ℕ) (i : ℕ) : ℕ := if n ≤ i ∧ i < n + m then T_FILE else ty i

theorem withTypes_succ (n m : ℕ) :
    withTypes (n + 1) m (Function.update ty n T_FILE) = withTypes n (m + 1) ty := by
  funext i
  unfold withTypes
  by_cases hi : i = n
  · subst hi
    rw [if_neg (by omega), if_pos (by omega), Function.update_self]
  · have : n + 1 ≤ i ∧ i < n + 1 + m ↔ n ≤ i ∧ i < n + (m + 1) := by omega
    simp only [this, Function.update_of_ne hi]

theorem Addable.head {len : ℕ} {f : Input} {files : List Input} (h : Addable s len (f :: files)) :
    Addable s len [f] := by
  have hroot := h.root
  have hblocks := h.blocks
  simp only [List.length_cons, List.map_cons, List.sum_cons] at hroot hblocks
  have hle : direntSize * 1 ≤ direntSize * (files.length + 1) :=
    Nat.mul_le_mul_left _ (Nat.succ_pos _)
  have hmono := need_mono (Nat.add_le_add_left hle len)
  refine ⟨fun g hg => h.names g ?_, fun g hg => h.sizes g ?_, ?_, ?_⟩
  · exact List.mem_singleton.1 hg ▸ List.mem_cons_self
  · exact List.mem_singleton.1 hg ▸ List.mem_cons_self
  · simp only [List.length_singleton]
    omega
  · simp only [List.length_singleton, List.map_cons, List.map_nil, List.sum_cons, List.sum_nil]
    omega

theorem Addable.tail {len : ℕ} {f : Input} {files : List Input} {s' : St}
    (h : Addable s len (f :: files))
    (hcount : s'.freeblock + need len = s.freeblock + need (len + direntSize) +
      need f.bytes.length) : Addable s' (len + direntSize) files := by
  have hroot := h.root
  have hblocks := h.blocks
  have hlen : len + direntSize * (files.length + 1) =
      len + direntSize + direntSize * files.length := by
    rw [Nat.mul_succ]
    omega
  simp only [List.length_cons, List.map_cons, List.sum_cons, hlen] at hroot hblocks
  exact ⟨fun g hg => h.names g (List.mem_cons_of_mem f hg),
    fun g hg => h.sizes g (List.mem_cons_of_mem f hg), hroot, by omega⟩

structure AllAdded (s : St) (ty : ℕ → ℕ) (cs : ℕ → List UInt8) (files : List Input) (s' : St) :
    Prop where
  image : Image s' (withTypes s.freeinode files.length ty) (withFiles s.freeinode files cs)
  freeinode : s'.freeinode = s.freeinode + files.length
  count : s'.freeblock + need (cs ROOTINO).length =
    s.freeblock + need ((cs ROOTINO).length + direntSize * files.length) +
      (files.map fun f => need f.bytes.length).sum
  names : ∀ f ∈ files, slash ∉ f.arg

theorem addFiles_spec (files : List Input) (h : Image s ty cs) (hroot : ROOTINO < s.freeinode)
    (hn : s.freeinode + files.length ≤ inodeSlots) :
    Prog.Wp (addFiles ROOTINO files) (fun _ => AllAdded s ty cs files)
      (fun _ => ¬Addable s (cs ROOTINO).length files) s := by
  induction files generalizing s ty cs with
  | nil =>
    have hty : withTypes s.freeinode 0 ty = ty := funext fun i => if_neg (by omega)
    exact ⟨hty.symm ▸ h, rfl, rfl, nofun⟩
  | cons f files ih =>
    rw [List.length_cons] at hn
    refine Prog.wp_bind.2 ((addFile_spec f h hroot (by omega)).mono (fun _ s₁ hf => ?_)
      fun _ hE hadd => hE hadd.head)
    have hcs : (withFile s.freeinode f cs ROOTINO).length = (cs ROOTINO).length + direntSize := by
      rw [withFile, Function.update_of_ne (Nat.ne_of_lt hroot), Function.update_self,
        List.length_append, length_direntBytes]
    have hfree := hf.freeinode
    have hcount := hf.count
    refine (ih hf.image (by omega) (by omega)).mono (fun _ s' ha => ?_) fun _ hE hadd => hE ?_
    · obtain ⟨himage, hfree', hcount', hnames⟩ := ha
      rw [hcs] at hcount'
      rw [hfree, withTypes_succ] at himage
      refine ⟨himage, ?_, ?_, fun g hg => ?_⟩
      · rw [List.length_cons]
        omega
      · simp only [List.length_cons, List.map_cons, List.sum_cons, Nat.mul_succ]
        rw [Nat.add_comm (direntSize * files.length), ← Nat.add_assoc (cs ROOTINO).length]
        omega
      · rcases List.mem_cons.1 hg with rfl | hg
        · exact hf.name
        · exact hnames g hg
    · rw [hcs]
      exact hadd.tail hcount

end Files

end Xv6.Mkfs
