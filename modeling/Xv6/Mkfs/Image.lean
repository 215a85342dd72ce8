import Xv6.Mkfs.Append

/-!
# The image between two calls

`Image s ty cs`: the inodes up to `freeinode` are those of files with the types `ty` and the
bytes `cs`, and their blocks are laid out on the disk.
-/

namespace Xv6.Mkfs
open Lib Disk

section Table

variable {d : Sectors} {i i' : ℕ} {din : Dinode}

theorem IBLOCK_lt (hi : i < inodeSlots) : 2 ≤ IBLOCK i ∧ IBLOCK i < sb.bmapstart := by
  have h1 : inodeSlots = 208 := by decide
  have h2 : sb.bmapstart = 58 := by decide
  have h3 : IBLOCK i = i / 8 + 32 := rfl
  omega

theorem bmapstart_lt : sb.bmapstart < nmeta := by decide

def table (d : Sectors) (i : ℕ) : Dinode := if i < inodeSlots then diskInode d i else Dinode.zero

theorem table_congr {d' : Sectors} (h : ∀ b < sb.bmapstart, d' b = d b) : table d' = table d := by
  funext i
  unfold table
  split_ifs with hi
  · rw [diskInode, diskInode, h _ (IBLOCK_lt hi).2]
  · rfl

def putInode (d : Sectors) (i : ℕ) (din : Dinode) : Sectors :=
  Function.update d (IBLOCK i) (din.encode (d (IBLOCK i)) (dinodeSize * (i % IPB)))

theorem diskInode_put_of_ne (hne : i' ≠ i) :
    diskInode (putInode d i din) i' = diskInode d i' := by
  rw [diskInode, diskInode, putInode]
  by_cases hb : IBLOCK i' = IBLOCK i
  · -- another place in the same block
    have hmod : i' % 8 ≠ i % 8 := fun e => hne (by
      have h1 : i' / 8 + 32 = i / 8 + 32 := hb
      omega)
    rw [hb, Function.update_self]
    refine Dinode.decode_congr fun a h1 h2 => Dinode.encode_outside _ _ ?_
    simp only [show IPB = 8 by decide, dinodeSize] at *
    omega
  · rw [Function.update_of_ne hb]

theorem table_put (hi : i < inodeSlots) (hd : din.Fits) :
    table (putInode d i din) = Function.update (table d) i din := by
  funext k
  by_cases hk : k = i
  · subst hk
    rw [Function.update_self, table, if_pos hi, diskInode, putInode, Function.update_self]
    exact Dinode.decode_encode hd _ _
  · rw [Function.update_of_ne hk, table, table, diskInode_put_of_ne hk]

theorem putInode_of_ne {b : ℕ} (hb : b ≠ IBLOCK i) : putInode d i din b = d b :=
  Function.update_of_ne hb _ _

end Table

section Congr

variable {d d' : Sectors} {dins dins' : ℕ → Dinode} {free : ℕ} {used used' : ℕ → Slot → Prop}
  {own : ℕ → ℕ × Slot} {cs cs' : ℕ → List UInt8}

theorem Layout.congr (h : Layout d dins free used own cs) (hd : ∀ b, nmeta ≤ b → d' b = d b)
    (ha : ∀ i, (dins' i).addrs = (dins i).addrs) (hu : ∀ i sl, used i sl ↔ used' i sl)
    (hc : ∀ i sl, used i sl → cs' i = cs i) : Layout d' dins' free used' own cs' := by
  obtain rfl : used = used' := funext fun i => funext fun sl => propext (hu i sl)
  have haddr : ∀ i sl, addr d' (dins' i) sl = addr d (dins i) sl := fun i sl => by
    cases sl with
    | ind => simp only [addr, ha]
    | data j =>
      simp only [addr, ha]
      split_ifs with hj h0
      · rfl
      · rfl
      · have hlo : nmeta ≤ (dins i).addrs NDIRECT :=
          (h.range i .ind (h.used_ind h0)).1
        rw [hd _ hlo]
  refine
    { meta_le := h.meta_le
      valid := h.valid
      ind := h.ind
      unused := fun i sl hv hu' => (haddr i sl).trans (h.unused i sl hv hu')
      range := fun i sl hu' => by
        rw [haddr]
        exact h.range i sl hu'
      owned := fun b hb hlt => by
        rw [haddr]
        exact h.owned b hb hlt
      blank := fun b hb => (hd b (Nat.le_trans h.meta_le hb)).trans (h.blank b hb)
      content := fun i j hu' o ho => ?_ }
  rw [haddr, hd _ (h.range i _ hu').1, hc i _ hu']
  exact h.content i j hu' o ho

end Congr

def fileInode (type len : ℕ) (addrs : ℕ → ℕ) : Dinode := ⟨type, 0, 0, 1, len, addrs⟩

theorem fileInode_fits {type len : ℕ} {addrs : ℕ → ℕ} (ht : type < 2 ^ 16)
    (hl : len ≤ MAXFILE * BSIZE) (ha : ∀ k, addrs k < 2 ^ 32)
    (hb : ∀ k, NDIRECT + 1 ≤ k → addrs k = 0) : (fileInode type len addrs).Fits :=
  ⟨ht, Nat.two_pow_pos 16, Nat.two_pow_pos 16, Nat.one_lt_two_pow (by decide),
    Nat.lt_of_le_of_lt hl (by decide), ha, hb⟩

structure Image (s : St) (ty : ℕ → ℕ) (cs : ℕ → List UInt8) : Prop where
  sectors : s.sectors = FSSIZE
  free : s.freeblock ≤ FSSIZE
  inodes : 1 ≤ s.freeinode ∧ s.freeinode ≤ inodeSlots
  super : s.disk 1 = sb.encode Bytes.zero
  layout : ∃ own, Layout s.disk (table s.disk) s.freeblock (Used s.freeinode cs) own cs
  files : ∀ i, 1 ≤ i → i < s.freeinode →
    table s.disk i = fileInode (ty i) (cs i).length (table s.disk i).addrs
  others : ∀ i, i = 0 ∨ s.freeinode ≤ i → table s.disk i = Dinode.zero
  types : ∀ i, ty i < 2 ^ 16
  sizes : ∀ i, 1 ≤ i → i < s.freeinode → (cs i).length ≤ MAXFILE * BSIZE

section Calls

variable {s : St} {ty : ℕ → ℕ} {cs : ℕ → List UInt8} {inum : ℕ} {E : String → Prop}

theorem wp_rinode {Q : Dinode → St → Prop} (hs : s.sectors = FSSIZE) (hi : inum < inodeSlots)
    (h : Q (table s.disk inum) s) : Prog.Wp (rinode inum) Q E s := by
  have hlt : IBLOCK inum < FSSIZE := Nat.lt_trans (IBLOCK_lt hi).2 (by decide)
  rw [table, if_pos hi] at h
  exact Prog.wp_bind.2 (wp_rsect (fun _ => h) fun hno => absurd (hs ▸ hlt) hno)

theorem wp_winode {din : Dinode} {Q : Unit → St → Prop} (hs : s.sectors = FSSIZE)
    (hi : inum < inodeSlots) (h : Q () { s with disk := putInode s.disk inum din }) :
    Prog.Wp (winode inum din) Q E s := by
  have hlt : IBLOCK inum < FSSIZE := Nat.lt_trans (IBLOCK_lt hi).2 (by decide)
  exact Prog.wp_bind.2 (wp_rsect (fun hsec => wp_wsect hsec h) fun hno => absurd (hs ▸ hlt) hno)

theorem table_beyond (d : Sectors) (i k : ℕ) (hk : NDIRECT + 1 ≤ k) :
    (table d i).addrs k = 0 := by
  unfold table
  split_ifs with hi
  · exact if_neg (Nat.not_lt.2 hk)
  · rfl

theorem Layout.addrs_lt {d : Sectors} {dins : ℕ → Dinode} {free i : ℕ}
    {used : ℕ → Slot → Prop} {own : ℕ → ℕ × Slot} (h : Layout d dins free used own cs)
    (hfree : free ≤ FSSIZE) (hb : ∀ k, NDIRECT + 1 ≤ k → (dins i).addrs k = 0) (k : ℕ) :
    (dins i).addrs k < 2 ^ 32 := by
  have hslot : ∀ sl : Slot, sl.Valid → addr d (dins i) sl < 2 ^ 32 := fun sl hv => by
    by_cases hu : used i sl
    · exact Nat.lt_trans (Nat.lt_of_lt_of_le (h.range i sl hu).2.1 hfree) (by decide)
    · rw [h.unused i sl hv hu]
      decide
  rcases Nat.lt_trichotomy k NDIRECT with hk | hk | hk
  · have := hslot (.data k) (Nat.lt_of_lt_of_le hk (by decide))
    rwa [addr, if_pos hk] at this
  · exact hk ▸ hslot .ind trivial
  · rw [hb k hk]
    decide

structure Grown (s : St) (ty : ℕ → ℕ) (cs : ℕ → List UInt8) (inum : ℕ) (p : List UInt8)
    (s' : St) : Prop where
  image : Image s' ty (Function.update cs inum (cs inum ++ p))
  freeinode : s'.freeinode = s.freeinode
  count : s'.freeblock + nodes (blocksOf (cs inum).length) =
    s.freeblock + nodes (blocksOf (cs inum ++ p).length)

theorem iappend_spec (h : Image s ty cs) (hi : 1 ≤ inum ∧ inum < s.freeinode) (p : List UInt8) :
    Prog.Wp (iappend inum p) (fun _ => Grown s ty cs inum p)
      (fun _ => ¬Room s (cs inum).length p.length) s := by
  have hslot : inum < inodeSlots := Nat.lt_of_lt_of_le hi.2 h.inodes.2
  refine Prog.wp_bind.2 (wp_rinode h.sectors hslot (Prog.wp_bind.2 ?_))
  have hsz : (table s.disk inum).size = (cs inum).length := by
    rw [h.files inum hi.1 hi.2]
    rfl
  rw [hsz]
  refine (append_spec p.length le_rfl ⟨h.sectors, h.layout, table_beyond s.disk⟩ h.free hi
    (h.sizes inum hi.1 hi.2)).mono (fun r s₁ ha => ?_) fun _ hE => hE
  obtain ⟨own, hl⟩ := ha.mid.layout
  have hdin : ({ r.1 with size := r.2 } : Dinode) =
      fileInode (ty inum) (cs inum ++ p).length r.1.addrs := by
    have hsame := ha.same
    rw [h.files inum hi.1 hi.2] at hsame
    rw [hsame, ha.off]
    rfl
  have hfits : (fileInode (ty inum) (cs inum ++ p).length r.1.addrs).Fits := by
    refine fileInode_fits (h.types inum) ha.size ?_ ?_
    · have := hl.addrs_lt (i := inum) ha.le (ha.mid.beyond inum)
      rwa [Function.update_self] at this
    · have := ha.mid.beyond inum
      rwa [Function.update_self] at this
  have htable : table s₁.disk = table s.disk :=
    table_congr fun b hb => ha.frame.low b (Nat.lt_trans hb bmapstart_lt)
  refine wp_winode (ha.frame.sectors.trans h.sectors) hslot ?_
  rw [hdin]
  generalize hdin' : fileInode (ty inum) (cs inum ++ p).length r.1.addrs = din at hfits
  have htable' : table (putInode s₁.disk inum din) = Function.update (table s.disk) inum din :=
    (table_put hslot hfits).trans (by rw [htable])
  have hib := IBLOCK_lt hslot
  have hn := ha.frame.freeinode
  refine ⟨?_, hn, ha.count⟩
  refine
    { sectors := ha.frame.sectors.trans h.sectors
      free := ha.le
      inodes := hn ▸ h.inodes
      super := ?_
      layout := ⟨own, ?_⟩
      files := fun i h1 h2 => ?_
      others := fun i hi' => ?_
      types := h.types
      sizes := fun i h1 h2 => ?_ }
  · change putInode s₁.disk inum din 1 = _
    rw [putInode_of_ne (by omega), ha.frame.low 1 (by decide), h.super]
  · refine hl.congr (fun b hb => putInode_of_ne ?_) (fun i => ?_) (fun i sl => ?_) fun _ _ _ => rfl
    · have := bmapstart_lt
      omega
    · change (table (putInode s₁.disk inum din) i).addrs = _
      rw [htable']
      by_cases he : i = inum
      · subst he
        rw [Function.update_self, Function.update_self, ← hdin']
        rfl
      · rw [Function.update_of_ne he, Function.update_of_ne he]
    · exact hn ▸ Iff.rfl
  · change table (putInode s₁.disk inum din) i = fileInode _ _
      (table (putInode s₁.disk inum din) i).addrs
    rw [htable']
    by_cases he : i = inum
    · subst he
      rw [Function.update_self, Function.update_self, ← hdin']
      rfl
    · rw [Function.update_of_ne he, Function.update_of_ne he]
      exact h.files i h1 (hn ▸ h2)
  · change table (putInode s₁.disk inum din) i = _
    have hne : i ≠ inum := by
      change i = 0 ∨ s₁.freeinode ≤ i at hi'
      omega
    rw [htable', Function.update_of_ne hne]
    exact h.others i (hn ▸ hi')
  · by_cases he : i = inum
    · subst he
      rw [Function.update_self]
      exact ha.size
    · rw [Function.update_of_ne he]
      exact h.sizes i h1 (hn ▸ h2)

theorem ialloc_spec (h : Image s ty cs) (hn : s.freeinode < inodeSlots) {type : ℕ}
    (ht : type < 2 ^ 16) :
    Prog.Wp (ialloc type) (fun r s' => r = s.freeinode ∧
      Image s' (Function.update ty r type) (Function.update cs r []) ∧
      s'.freeinode = s.freeinode + 1 ∧ s'.freeblock = s.freeblock) E s := by
  obtain ⟨own, hl⟩ := h.layout
  have hib := IBLOCK_lt hn
  have hfits : (fileInode type 0 fun _ => 0).Fits :=
    fileInode_fits ht (Nat.zero_le _) (fun _ => Nat.two_pow_pos 32) fun _ _ => rfl
  refine Prog.wp_bind.2 (Prog.wp_read.2 (Prog.wp_bind.2 (Prog.wp_modify.2 (Prog.wp_bind.2
    (wp_winode h.sectors hn ?_)))))
  generalize hdin' : (fileInode type 0 fun _ => 0) = din at hfits
  rw [show ({ Dinode.zero with type := type, nlink := 1 } : Dinode) = din from hdin']
  have htable : table (putInode s.disk s.freeinode din) =
      Function.update (table s.disk) s.freeinode din := table_put hn hfits
  -- a file without bytes uses no slot
  have hused : ∀ i sl, Used s.freeinode cs i sl ↔
      Used (s.freeinode + 1) (Function.update cs s.freeinode []) i sl := fun i sl => by
    unfold Used
    by_cases he : i = s.freeinode
    · subst he
      have hempty : ¬sl.Below (blocksOf ([] : List UInt8).length) := by
        cases sl <;> simp [Slot.Below, blocksOf, BSIZE, NDIRECT]
      rw [Function.update_self]
      exact ⟨fun hu => absurd hu.2.1 (Nat.lt_irrefl _), fun hu => absurd hu.2.2 hempty⟩
    · rw [Function.update_of_ne he]
      have : i < s.freeinode ↔ i < s.freeinode + 1 := by omega
      rw [this]
  refine ⟨rfl, ?_, rfl, rfl⟩
  refine
    { sectors := h.sectors
      free := h.free
      inodes := ⟨Nat.succ_pos _, hn⟩
      super := by
        change putInode s.disk s.freeinode din 1 = _
        rw [putInode_of_ne (by omega), h.super]
      layout := ⟨own, ?_⟩
      files := fun i h1 h2 => ?_
      others := fun i hi' => ?_
      types := fun i => ?_
      sizes := fun i h1 h2 => ?_ }
  · refine hl.congr (fun b hb => putInode_of_ne ?_) (fun i => ?_) hused fun i sl hu => ?_
    · have := bmapstart_lt
      omega
    · change (table (putInode s.disk s.freeinode din) i).addrs = _
      rw [htable]
      by_cases he : i = s.freeinode
      · subst he
        rw [Function.update_self, h.others s.freeinode (.inr le_rfl), ← hdin']
        rfl
      · rw [Function.update_of_ne he]
    · exact Function.update_of_ne (Nat.ne_of_lt hu.2.1) _ _
  · change table (putInode s.disk s.freeinode din) i = fileInode _ _
      (table (putInode s.disk s.freeinode din) i).addrs
    rw [htable]
    by_cases he : i = s.freeinode
    · subst he
      rw [Function.update_self, Function.update_self, Function.update_self, ← hdin']
      rfl
    · rw [Function.update_of_ne he, Function.update_of_ne he, Function.update_of_ne he]
      exact h.files i h1 (by change i < s.freeinode + 1 at h2; omega)
  · change table (putInode s.disk s.freeinode din) i = _
    change i = 0 ∨ s.freeinode + 1 ≤ i at hi'
    have := h.inodes.1
    rw [htable, Function.update_of_ne (by omega)]
    exact h.others i (by omega)
  · by_cases he : i = s.freeinode
    · subst he
      rwa [Function.update_self]
    · rw [Function.update_of_ne he]
      exact h.types i
  · by_cases he : i = s.freeinode
    · subst he
      rw [Function.update_self]
      exact Nat.zero_le _
    · rw [Function.update_of_ne he]
      exact h.sizes i h1 (by change i < s.freeinode + 1 at h2; omega)

end Calls

end Xv6.Mkfs
