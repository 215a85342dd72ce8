import Xv6.Disk.Reader
import Xv6.Mkfs.Files

/-!
# The image that mkfs leaves
-/

namespace Xv6.Mkfs
open Lib Disk

section Start

theorem wipe_run (n : ℕ) (s : St) (h : s.disk = fun _ => Bytes.zero) :
    wipe n s = .ret ((), { s with sectors := max s.sectors n }) := by
  induction n with
  | zero =>
    rw [Nat.max_zero]
    rfl
  | succ n ih =>
    have hd : Function.update s.disk n Bytes.zero = s.disk := by
      rw [h]
      exact Function.update_eq_self n _
    have hn : max (max s.sectors n) (n + 1) = max s.sectors (n + 1) := by omega
    rw [wipe, Prog.bind_of_ret ih]
    change Outcome.ret ((), (⟨Function.update s.disk n Bytes.zero, max (max s.sectors n) (n + 1),
      s.freeinode, s.freeblock⟩ : St)) = _
    rw [hd, hn]

def formatted : St where
  disk := Function.update (fun _ => Bytes.zero) 1 (sb.encode Bytes.zero)
  sectors := FSSIZE
  freeinode := 1
  freeblock := nmeta

theorem formatted_disk_of_ne {b : ℕ} (hb : b ≠ 1) : formatted.disk b = Bytes.zero := by
  simp only [formatted, Function.update_of_ne hb]

theorem table_formatted : table formatted.disk = fun _ => Dinode.zero := by
  funext i
  unfold table
  split_ifs with hi
  · have := (IBLOCK_lt hi).1
    rw [diskInode, formatted_disk_of_ne (by omega), Dinode.decode_zero]
  · rfl

theorem image_formatted (ty : ℕ → ℕ) (hty : ∀ i, ty i < 2 ^ 16) :
    Image formatted ty fun _ => [] := by
  have hused : ∀ i sl, ¬Used 1 (fun _ => []) i sl := fun i sl hu =>
    absurd hu.2.1 (Nat.not_lt.2 hu.1)
  refine
    { sectors := rfl
      free := by decide
      inodes := by decide
      super := by simp only [formatted, Function.update_self]
      layout := ⟨fun _ => (0, .ind), ?_⟩
      files := fun i h1 h2 => absurd h2 (Nat.not_lt.2 h1)
      others := fun i _ => congrFun table_formatted i
      types := hty
      sizes := fun i h1 h2 => absurd h2 (Nat.not_lt.2 h1) }
  refine
    { meta_le := le_rfl
      valid := fun i sl hu => absurd hu (hused i sl)
      ind := fun i j hu => absurd hu (hused i _)
      unused := fun i sl hv _ => ?_
      range := fun i sl hu => absurd hu (hused i sl)
      owned := fun b h1 h2 => absurd h2 (Nat.not_lt.2 h1)
      blank := fun b hb => formatted_disk_of_ne fun e => ?_
      content := fun i j hu => absurd hu (hused i _) }
  · rw [table_formatted]
    cases sl with
    | ind => rfl
    | data j =>
      simp only [addr, Dinode.zero, ite_self, if_true]
  · subst e
    exact absurd hb (by decide)

end Start

section Bitmap

theorem bitmap_succ (n : ℕ) : bitmap (n + 1) =
    Function.update (bitmap n) (n / 8) (bitmap n (n / 8) ||| 1 <<< UInt8.ofNat (n % 8)) := by
  unfold bitmap
  rw [List.range_succ, List.foldl_append]
  rfl

theorem bitmap_bit (n b : ℕ) :
    bitmap n (b / 8) &&& 1 <<< UInt8.ofNat (b % 8) = 0 ↔ n ≤ b := by
  induction n with
  | zero => exact iff_of_true (UInt8.zero_and) (Nat.zero_le b)
  | succ n ih =>
    rw [bitmap_succ]
    by_cases hb : b / 8 = n / 8
    · rw [hb, Function.update_self, Bytes.or_and, UInt8.or_eq_zero_iff, ← hb, ih,
        Bytes.mask_and_mask _ (Nat.mod_lt n (by decide)) _ (Nat.mod_lt b (by decide))]
      omega
    · rw [Function.update_of_ne hb, ih]
      omega

end Bitmap

section Main

variable {s : St} {files : List Input}

def dots : List UInt8 := direntBytes ROOTINO [dot] ++ direntBytes ROOTINO [dot, dot]

def contents (files : List Input) : ℕ → List UInt8 :=
  withFiles 2 files (Function.update (fun _ => []) ROOTINO dots)

theorem contents_root (files : List Input) :
    contents files ROOTINO = dots ++ dirents 2 files := by
  rw [contents, withFiles_root files (by decide), Function.update_self]

theorem contents_file {k : ℕ} {f : Input} (hk : files[k]? = some f) :
    contents files (2 + k) = f.bytes := withFiles_file (by decide) hk

def rootLength (files : List Input) : ℕ := direntSize * (files.length + 2)

theorem length_contents_root (files : List Input) :
    (contents files ROOTINO).length = rootLength files := by
  have h : dots.length = direntSize * 2 := by
    rw [dots, List.length_append, length_direntBytes, length_direntBytes]
    rfl
  rw [contents_root, List.length_append, length_dirents, h, rootLength, Nat.mul_add, Nat.add_comm]

def total (files : List Input) : ℕ :=
  nmeta + need (rootLength files) + (files.map fun f => need f.bytes.length).sum

structure Fit (files : List Input) : Prop where
  names : ∀ f ∈ files, slash ∉ f.arg
  sizes : ∀ f ∈ files, f.bytes.length ≤ MAXFILE * BSIZE
  blocks : total files ≤ FSSIZE

structure Final (files : List Input) (s : St) : Prop where
  super : s.disk 1 = sb.encode Bytes.zero
  freeblock : s.freeblock = total files
  free : s.freeblock ≤ FSSIZE
  layout : ∃ own, Layout s.disk (table s.disk) s.freeblock
    (Used (files.length + 2) (contents files)) own (contents files)
  root : table s.disk ROOTINO = fileInode T_DIR ((rootLength files / BSIZE + 1) * BSIZE)
    (table s.disk ROOTINO).addrs
  file : ∀ k f, files[k]? = some f →
    table s.disk (2 + k) = fileInode T_FILE f.bytes.length (table s.disk (2 + k)).addrs
  others : ∀ i, i = 0 ∨ files.length + 2 ≤ i → table s.disk i = Dinode.zero
  bitmap : s.disk sb.bmapstart = bitmap s.freeblock
  names : ∀ f ∈ files, slash ∉ f.arg
  sizes : ∀ f ∈ files, f.bytes.length ≤ MAXFILE * BSIZE

theorem finish_spec {ty : ℕ → ℕ} (h : Image s (withTypes 2 files.length ty) (contents files))
    (hty : ty ROOTINO = T_DIR) (hn : s.freeinode = files.length + 2)
    (hfree : s.freeblock = total files) (hnames : ∀ f ∈ files, slash ∉ f.arg) :
    Prog.Wp (do
      let din ← rinode ROOTINO
      winode ROOTINO { din with size := (din.size / BSIZE + 1) * BSIZE }
      let freeblock ← .read (·.freeblock)
      balloc freeblock) (fun _ => Final files) (fun _ => False) s := by
  obtain ⟨own, hl⟩ := h.layout
  have hslots := h.inodes.2
  have hslot : ROOTINO < inodeSlots := by decide
  have hsmall := h.sizes ROOTINO le_rfl (by rw [hn, ROOTINO]; omega)
  have hdin : table s.disk ROOTINO =
      fileInode T_DIR (rootLength files) (table s.disk ROOTINO).addrs := by
    have := h.files ROOTINO le_rfl (by rw [hn, ROOTINO]; omega)
    rw [length_contents_root, withTypes, if_neg (by rw [ROOTINO]; omega), hty] at this
    exact this
  rw [length_contents_root] at hsmall
  refine Prog.wp_bind.2 (wp_rinode h.sectors hslot (Prog.wp_bind.2 (wp_winode h.sectors hslot
    (Prog.wp_bind.2 (Prog.wp_read.2 (Prog.wp_bind.2 (wp_assert (fun _ => ?_) fun hno => ?_)))))))
  swap
  · have : s.freeblock < BSIZE * 8 := Nat.lt_of_le_of_lt h.free (by decide)
    exact hno this
  refine wp_wsect (by rw [h.sectors]; decide) ?_
  have hroot : ({ table s.disk ROOTINO with
      size := ((table s.disk ROOTINO).size / BSIZE + 1) * BSIZE } : Dinode) =
      fileInode T_DIR ((rootLength files / BSIZE + 1) * BSIZE) (table s.disk ROOTINO).addrs := by
    rw [hdin]
    rfl
  have hfits : (fileInode T_DIR ((rootLength files / BSIZE + 1) * BSIZE)
      (table s.disk ROOTINO).addrs).Fits := by
    refine fileInode_fits (by decide) ?_ (hl.addrs_lt h.free (table_beyond _ _))
      (table_beyond _ _)
    unfold rootLength at hsmall ⊢
    have h1 : inodeSlots = 208 := by decide
    have h2 : MAXFILE = 140 := by decide
    rw [h2, BSIZE, direntSize]
    omega
  rw [hroot]
  generalize hdin' : fileInode T_DIR ((rootLength files / BSIZE + 1) * BSIZE)
    (table s.disk ROOTINO).addrs = din at hfits
  generalize hs' : ({ s with disk := putInode s.disk ROOTINO din } : St).put sb.bmapstart
    (Mkfs.bitmap s.freeblock) = s'
  have hdisk : s'.disk = Function.update (putInode s.disk ROOTINO din) sb.bmapstart
    (Mkfs.bitmap s.freeblock) := hs' ▸ rfl
  have hfree' : s'.freeblock = s.freeblock := hs' ▸ rfl
  have hhigh : ∀ b, b ≠ sb.bmapstart → b ≠ IBLOCK ROOTINO → s'.disk b = s.disk b :=
    fun b h1 h2 => by rw [hdisk, Function.update_of_ne h1, putInode_of_ne h2]
  have htable : table s'.disk = Function.update (table s.disk) ROOTINO din := by
    rw [hdisk, ← table_put hslot hfits]
    exact table_congr fun b hb => Function.update_of_ne (Nat.ne_of_lt hb) _ _
  refine
    { super := ?_
      freeblock := hfree'.trans hfree
      free := hfree' ▸ h.free
      layout := ⟨own, ?_⟩
      root := ?_
      file := fun k f hk => ?_
      others := fun i hi => ?_
      bitmap := by rw [hdisk, Function.update_self, hfree']
      names := hnames
      sizes := fun f hf => ?_ }
  · rw [hhigh 1 (by decide) (by decide), h.super]
  · rw [hfree']
    refine hl.congr (fun b hb => hhigh b ?_ ?_) (fun i => ?_) (fun i sl => hn ▸ Iff.rfl)
      fun _ _ _ => rfl
    · exact Nat.ne_of_gt (Nat.lt_of_lt_of_le bmapstart_lt hb)
    · exact Nat.ne_of_gt (Nat.lt_of_lt_of_le (by decide) hb)
    · rw [htable]
      by_cases he : i = ROOTINO
      · subst he
        rw [Function.update_self, ← hdin']
        rfl
      · rw [Function.update_of_ne he]
  · rw [htable, Function.update_self, ← hdin']
    rfl
  · have hlt := (List.getElem?_eq_some_iff.1 hk).1
    have := h.files (2 + k) (by omega) (by omega)
    rw [contents_file hk, withTypes, if_pos (by omega)] at this
    rwa [htable, Function.update_of_ne (by rw [ROOTINO]; omega)]
  · rw [htable, Function.update_of_ne (by rw [ROOTINO]; omega)]
    exact h.others i (hn ▸ hi)
  · obtain ⟨k, hk⟩ := List.mem_iff_getElem?.1 hf
    have hlt := (List.getElem?_eq_some_iff.1 hk).1
    have := h.sizes (2 + k) (by omega) (by omega)
    rwa [contents_file hk] at this

theorem root_spec {Q : Unit → St → Prop} {E : String → Prop} {k : ℕ → M Unit}
    (himage : Image s (fun _ => 0) fun _ => []) (hfreeinode : s.freeinode = ROOTINO)
    (hfree : s.freeblock = nmeta)
    (h : ∀ s, Image s (Function.update (fun _ => 0) ROOTINO T_DIR)
      (Function.update (fun _ => []) ROOTINO dots) → s.freeinode = 2 →
      s.freeblock = nmeta + need dots.length → Prog.Wp (k ROOTINO) Q E s) :
    Prog.Wp (do
      let rootino ← ialloc T_DIR
      assert (rootino = ROOTINO)
      iappend rootino (direntBytes rootino [dot])
      iappend rootino (direntBytes rootino [dot, dot])
      k rootino) Q E s := by
  have hlen : ∀ name, (direntBytes ROOTINO name).length = 16 := length_direntBytes ROOTINO
  have hnmeta : nmeta = 59 := by decide
  refine Prog.wp_bind.2 ((ialloc_spec himage (hfreeinode ▸ by decide) (by decide)).mono
    (fun r s₁ hs₁ => ?_) fun _ hE => hE)
  obtain ⟨hr, himage₁, hfreeinode₁, hfree₁⟩ := hs₁
  obtain rfl := hr.trans hfreeinode
  have hin : 1 ≤ ROOTINO ∧ ROOTINO < s₁.freeinode := by
    rw [hfreeinode₁, hfreeinode]
    decide
  refine Prog.wp_bind.2 (wp_assert (fun _ => ?_) fun hno => absurd rfl hno)
  refine Prog.wp_bind.2 ((iappend_spec himage₁ hin _).mono (fun _ s₂ h₂ => ?_) fun _ hE => ?_)
  swap
  · refine absurd ?_ hE
    rw [Function.update_self]
    change Room s₁ 0 (direntBytes ROOTINO [dot]).length
    rw [hlen]
    exact ⟨by decide, by rw [hfree₁, hfree]; decide⟩
  obtain ⟨himage₂, hfree₂, hcount₂⟩ := h₂
  rw [Function.update_self, Function.update_idem, List.nil_append] at himage₂
  rw [Function.update_self, List.nil_append] at hcount₂
  have hb₁ : nodes (blocksOf ([] : List UInt8).length) = 0 := by decide
  have hb₂ : nodes (blocksOf 16) = 1 := by decide
  change s₂.freeblock + _ = _ + nodes (blocksOf (direntBytes ROOTINO [dot]).length) at hcount₂
  rw [hlen] at hcount₂
  refine Prog.wp_bind.2 ((iappend_spec himage₂ (hfree₂ ▸ hin) _).mono (fun _ s₃ h₃ => ?_)
    fun _ hE => ?_)
  swap
  · refine absurd ?_ hE
    rw [Function.update_self]
    rw [hlen, hlen]
    refine ⟨by decide, ?_⟩
    have : nodes (blocksOf (16 + 16)) = 1 := by decide
    have : FSSIZE = 1000 := rfl
    omega
  obtain ⟨himage₃, hfree₃, hcount₃⟩ := h₃
  rw [Function.update_self, Function.update_idem] at himage₃
  rw [Function.update_self] at hcount₃
  refine h s₃ himage₃ (by rw [hfree₃, hfree₂, hfreeinode₁, hfreeinode, ROOTINO]) ?_
  change s₃.freeblock + nodes (blocksOf (direntBytes ROOTINO [dot]).length) =
    s₂.freeblock + need dots.length at hcount₃
  rw [hlen] at hcount₃
  omega

theorem populate_spec (hn : files.length + 2 ≤ inodeSlots)
    (himage : Image s (fun _ => 0) fun _ => []) (hroot : s.freeinode = ROOTINO)
    (hmeta : s.freeblock = nmeta) :
    Prog.Wp (populate files) (fun _ => Final files) (fun _ => ¬Fit files) s := by
  refine root_spec himage hroot hmeta fun s himage hfreeinode hfree => ?_
  have hdots : dots.length = 32 := by
    rw [dots, List.length_append, length_direntBytes, length_direntBytes]
    rfl
  have hlen : 32 + direntSize * files.length = rootLength files := by
    rw [rootLength, direntSize]
    omega
  have hspec := addFiles_spec files himage (hfreeinode ▸ by decide) (by omega)
  rw [Function.update_self, hdots] at hspec
  refine Prog.wp_bind.2 (hspec.mono (fun _ s' ha => ?_) fun _ hE hfit => hE ?_)
  · obtain ⟨himage', hfree', hcount, hnames⟩ := ha
    rw [Function.update_self, hdots, hlen, hfree, hdots] at hcount
    rw [hfreeinode] at himage'
    refine (finish_spec himage' (Function.update_self _ _ _) (by omega) ?_ hnames).mono
      (fun _ _ hs => hs) fun _ => False.elim
    rw [total]
    omega
  · have := hfit.blocks
    rw [total] at this
    refine ⟨hfit.names, hfit.sizes, ?_, ?_⟩
    · have h1 : inodeSlots = 208 := by decide
      have h2 : MAXFILE * BSIZE = 71680 := by decide
      rw [direntSize]
      omega
    · rw [hlen, hfree, hdots]
      omega

theorem main_start (files : List Input) : main files start = populate files formatted := by
  rw [main, Prog.bind_of_ret rfl, Prog.bind_of_ret (wipe_run FSSIZE _ rfl), Prog.bind_of_ret rfl]
  rfl

theorem main_spec (hn : files.length + 2 ≤ inodeSlots) :
    ∀ o, main files start = o → o.Post (fun r => Final files r.2) fun _ => ¬Fit files := by
  rintro o rfl
  rw [main_start]
  -- only these facts about the state are used
  have himage := image_formatted (fun _ => 0) fun _ => Nat.two_pow_pos 16
  have hroot : formatted.freeinode = ROOTINO := rfl
  have hmeta : formatted.freeblock = nmeta := rfl
  generalize formatted = s at himage hroot hmeta
  exact populate_spec hn himage hroot hmeta

theorem mkfs_final (hn : files.length + 2 ≤ inodeSlots) (h : mkfs files = .ret s) :
    Final files s := by
  have hspec := main_spec hn
  unfold mkfs at h
  generalize main files start = o at h hspec
  specialize hspec o rfl
  cases o with
  | ret r => exact Outcome.ret.inj h ▸ hspec
  | panic m => cases h
  | hang => cases h

theorem mkfs_finishes (hn : files.length + 2 ≤ inodeSlots) (hfit : Fit files) :
    ∃ s, mkfs files = .ret s := by
  have hspec := main_spec hn
  unfold mkfs
  generalize main files start = o at hspec
  specialize hspec o rfl
  cases o with
  | ret r => exact ⟨r.2, rfl⟩
  | panic m => exact absurd hfit hspec
  | hang => exact hspec.elim

end Main

end Xv6.Mkfs
