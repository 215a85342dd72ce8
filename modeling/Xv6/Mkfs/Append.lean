import Xv6.Mkfs.Layout

/-!
# Appending to a file

`iappend` gives a file the blocks it needs and no others, and writes the bytes behind those
that it has.
-/

namespace Xv6.Mkfs
open Lib Disk

def blocksOf (len : ℕ) : ℕ := (len + BSIZE - 1) / BSIZE

def nodes (k : ℕ) : ℕ := k + if NDIRECT < k then 1 else 0

def Used (n : ℕ) (cs : ℕ → List UInt8) (i : ℕ) (sl : Slot) : Prop :=
  1 ≤ i ∧ i < n ∧ sl.Below (blocksOf (cs i).length)

def diskInode (d : Sectors) (i : ℕ) : Dinode :=
  Dinode.decode (d (IBLOCK i)) (dinodeSize * (i % IPB))

def inodeSlots : ℕ := IPB * ninodeblocks

section Rules

variable {α : Type} {Q : α → St → Prop} {E : String → Prop} {s : St}

theorem wp_assert {c : Prop} [Decidable c] {Q : Unit → St → Prop} (h : c → Q () s)
    (hE : ¬c → E "assert") : Prog.Wp (assert c) Q E s := by
  unfold assert
  split_ifs with hc
  · exact h hc
  · exact hE hc

theorem wp_rsect {sec : ℕ} {Q : Bytes → St → Prop} (h : sec < s.sectors → Q (s.disk sec) s)
    (hE : ¬sec < s.sectors → E "read") : Prog.Wp (rsect sec) Q E s := by
  unfold Prog.Wp rsect
  split_ifs with hc
  · exact h hc
  · exact hE hc

def St.put (s : St) (sec : ℕ) (buf : Bytes) : St :=
  { s with disk := Function.update s.disk sec buf }

theorem wp_wsect {sec : ℕ} {buf : Bytes} {Q : Unit → St → Prop} (hsec : sec < s.sectors)
    (h : Q () (s.put sec buf)) : Prog.Wp (wsect sec buf) Q E s := by
  have : max s.sectors (sec + 1) = s.sectors := by omega
  unfold wsect
  rw [Prog.wp_modify, this]
  exact h

theorem wp_nextBlock {Q : ℕ → St → Prop}
    (h : Q s.freeblock { s with freeblock := s.freeblock + 1 }) : Prog.Wp nextBlock Q E s := h

end Rules

structure Mid (s : St) (dins : ℕ → Dinode) (used : ℕ → Slot → Prop) (cs : ℕ → List UInt8) :
    Prop where
  sectors : s.sectors = FSSIZE
  layout : ∃ own, Layout s.disk dins s.freeblock used own cs
  beyond : ∀ i k, NDIRECT + 1 ≤ k → (dins i).addrs k = 0

structure Frame (s s' : St) : Prop where
  sectors : s'.sectors = s.sectors
  freeinode : s'.freeinode = s.freeinode
  low : ∀ b < nmeta, s'.disk b = s.disk b

theorem Frame.refl (s : St) : Frame s s := ⟨rfl, rfl, fun _ _ => rfl⟩

theorem Frame.trans {s t u : St} (h : Frame s t) (h' : Frame t u) : Frame s u :=
  ⟨h'.sectors.trans h.sectors, h'.freeinode.trans h.freeinode, fun b hb =>
    (h'.low b hb).trans (h.low b hb)⟩

section GetBlock

variable {s : St} {dins : ℕ → Dinode} {cs : ℕ → List UInt8} {n inum : ℕ}

def UsedUpTo (n : ℕ) (cs : ℕ → List UInt8) (inum k : ℕ) (i : ℕ) (sl : Slot) : Prop :=
  if i = inum then sl.Below k else Used n cs i sl

structure Got (s : St) (dins : ℕ → Dinode) (cs : ℕ → List UInt8) (n inum fbn : ℕ)
    (r : Dinode × ℕ) (s' : St) : Prop where
  frame : Frame s s'
  mid : Mid s' (Function.update dins inum r.1) (UsedUpTo n cs inum (fbn + 1)) cs
  same : r.1 = { dins inum with addrs := r.1.addrs }
  block : r.2 = addr s'.disk r.1 (.data fbn)
  count : s'.freeblock = s.freeblock + (nodes (fbn + 1) - nodes (blocksOf (cs inum).length))
  last : s'.freeblock ≤ FSSIZE ∨ r.2 + 1 = s'.freeblock

theorem Layout.congr_used {d : Sectors} {free : ℕ} {used used' : ℕ → Slot → Prop}
    {own : ℕ → ℕ × Slot} (h : Layout d dins free used own cs)
    (he : ∀ i sl, used i sl ↔ used' i sl) : Layout d dins free used' own cs := by
  obtain rfl : used = used' := funext fun i => funext fun sl => propext (he i sl)
  exact h

theorem wp_ensure_old {din : Dinode} {k : ℕ} {Q : Dinode → St → Prop} {E : String → Prop}
    (hk : din.addrs k ≠ 0) (h : Q din s) : Prog.Wp (ensure din k) Q E s := by
  unfold ensure
  rw [if_neg hk]
  exact h

theorem wp_ensure_new {din : Dinode} {k : ℕ} {Q : Dinode → St → Prop} {E : String → Prop}
    (hk : din.addrs k = 0)
    (h : Q (setAddr din k s.freeblock) { s with freeblock := s.freeblock + 1 }) :
    Prog.Wp (ensure din k) Q E s := by
  unfold ensure
  rw [if_pos hk]
  exact h

theorem setAddr_beyond {din : Dinode} {k b : ℕ} (hk : k ≤ NDIRECT)
    (h : ∀ k, NDIRECT + 1 ≤ k → din.addrs k = 0) :
    ∀ k', NDIRECT + 1 ≤ k' → (setAddr din k b).addrs k' = 0 := fun k' hk' => by
  rw [Layout.setAddr_ne _ _ (by omega)]
  exact h k' hk'

theorem update_beyond {din : Dinode} (hd : ∀ k, NDIRECT + 1 ≤ k → din.addrs k = 0)
    (h : ∀ i k, NDIRECT + 1 ≤ k → (dins i).addrs k = 0) :
    ∀ i k, NDIRECT + 1 ≤ k → (Function.update dins inum din i).addrs k = 0 := fun i k hk => by
  by_cases hi : i = inum
  · subst hi
    rw [Function.update_self]
    exact hd k hk
  · rw [Function.update_of_ne hi]
    exact h i k hk

variable {fbn : ℕ} {E : String → Prop}

theorem getBlock_old (h : Mid s dins (Used n cs) cs) (hfree : s.freeblock ≤ FSSIZE)
    (hi : 1 ≤ inum ∧ inum < n) (hk : blocksOf (cs inum).length = fbn + 1) :
    Prog.Wp (getBlock (dins inum) fbn) (Got s dins cs n inum fbn) E s := by
  obtain ⟨own, hl⟩ := h.layout
  have hused : ∀ i sl, Used n cs i sl ↔ UsedUpTo n cs inum (fbn + 1) i sl := fun i sl => by
    unfold UsedUpTo
    split_ifs with he
    · subst he
      simp only [Used, hi, true_and, hk]
    · exact Iff.rfl
  have hu : Used n cs inum (.data fbn) := (hused _ _).2 (by simp [UsedUpTo, Slot.Below])
  have hne := hl.ne_zero hu
  have hgot : ∀ x, x = addr s.disk (dins inum) (.data fbn) →
      Got s dins cs n inum fbn (dins inum, x) s := fun x hx => by
    refine ⟨Frame.refl s, ⟨h.sectors, ⟨own, ?_⟩, ?_⟩, rfl, hx, ?_, .inl hfree⟩
    · rw [Function.update_eq_self]
      exact hl.congr_used hused
    · rw [Function.update_eq_self]
      exact h.beyond
    · rw [hk, Nat.sub_self, Nat.add_zero]
  unfold getBlock
  split_ifs with hd
  · rw [addr, if_pos hd] at hne
    refine Prog.wp_bind.2 (wp_ensure_old hne (hgot _ ?_))
    rw [addr, if_pos hd]
  · have hind : Used n cs inum .ind := hl.ind inum fbn hu (Nat.le_of_not_lt hd)
    have hne12 : (dins inum).addrs NDIRECT ≠ 0 := hl.ne_zero hind
    have hlt : (dins inum).addrs NDIRECT < s.freeblock := (hl.range inum .ind hind).2.1
    rw [addr, if_neg hd, if_neg hne12] at hne
    refine Prog.wp_bind.2 (wp_ensure_old hne12 (Prog.wp_bind.2 (wp_rsect (fun _ => ?_) ?_)))
    · rw [if_neg hne]
      refine hgot _ ?_
      rw [addr, if_neg hd, if_neg hne12]
    · intro hsec
      refine absurd ?_ hsec
      rw [h.sectors]
      exact Nat.lt_of_lt_of_le hlt hfree

theorem usedUpTo_succ (hi : 1 ≤ inum ∧ inum < n) (hk : blocksOf (cs inum).length = fbn)
    (hne : fbn ≠ NDIRECT) (i : ℕ) (sl : Slot) :
    Used n cs i sl ∨ (i, sl) = (inum, .data fbn) ↔ UsedUpTo n cs inum (fbn + 1) i sl := by
  unfold UsedUpTo
  split_ifs with he
  · subst he
    cases sl with
    | data j =>
      simp only [Used, hi, true_and, hk, Slot.Below, Prod.mk.injEq, Slot.data.injEq]
      omega
    | ind =>
      simp only [Used, hi, true_and, hk, Slot.Below, Prod.mk.injEq, reduceCtorEq, and_false,
        or_false]
      omega
  · simp [he]

theorem usedUpTo_first (hi : 1 ≤ inum ∧ inum < n) (hk : blocksOf (cs inum).length = NDIRECT)
    (i : ℕ) (sl : Slot) :
    (Used n cs i sl ∨ (i, sl) = (inum, .ind)) ∨ (i, sl) = (inum, .data NDIRECT) ↔
      UsedUpTo n cs inum (NDIRECT + 1) i sl := by
  unfold UsedUpTo
  split_ifs with he
  · subst he
    cases sl with
    | data j =>
      simp only [Used, hi, true_and, hk, Slot.Below, Prod.mk.injEq, Slot.data.injEq, reduceCtorEq,
        and_false, or_false]
      omega
    | ind => simp [Slot.Below]
  · simp [he]

theorem getBlock_direct (h : Mid s dins (Used n cs) cs) (hi : 1 ≤ inum ∧ inum < n)
    (hk : blocksOf (cs inum).length = fbn) (hlen : (cs inum).length ≤ BSIZE * fbn)
    (hd : fbn < NDIRECT) : Prog.Wp (getBlock (dins inum) fbn) (Got s dins cs n inum fbn) E s := by
  obtain ⟨own, hl⟩ := h.layout
  have hu : ¬Used n cs inum (.data fbn) := fun hu => by
    have : fbn < blocksOf (cs inum).length := hu.2.2
    omega
  have h0 : (dins inum).addrs fbn = 0 := by
    have := hl.unused inum (.data fbn) (Nat.lt_of_lt_of_le hd (by decide)) hu
    rwa [addr, if_pos hd] at this
  unfold getBlock
  rw [if_pos hd]
  have hlay := (hl.alloc_direct hd hu hlen).congr_used (usedUpTo_succ hi hk (Nat.ne_of_lt hd))
  refine Prog.wp_bind.2 (wp_ensure_new h0 ⟨⟨rfl, rfl, fun _ _ => rfl⟩,
    ⟨h.sectors, ⟨_, hlay⟩, ?_⟩, rfl, ?_, ?_, .inr ?_⟩)
  · exact update_beyond (setAddr_beyond (Nat.le_of_lt hd) (h.beyond inum)) h.beyond
  · exact (if_pos hd).symm
  · have h1 : nodes (fbn + 1) = fbn + 1 := by
      rw [nodes, if_neg (by omega)]
    have h2 : nodes fbn = fbn := by
      rw [nodes, if_neg (by omega), Nat.add_zero]
    rw [hk, h1, h2]
    change s.freeblock + 1 = _
    omega
  · exact congrArg (· + 1) (Layout.setAddr_self _ _ _)

theorem entry_new {t : St} {din : Dinode} {used : ℕ → Slot → Prop} {Q : Dinode × ℕ → St → Prop}
    (h : Mid t dins used cs) (hdin : dins inum = din) (hind : used inum .ind)
    (hu : ¬used inum (.data fbn)) (hle : NDIRECT ≤ fbn) (hv : fbn < MAXFILE)
    (hlen : (cs inum).length ≤ BSIZE * fbn) (hfree : t.freeblock < 2 ^ 32)
    (hQ : ∀ s' : St, Frame t s' → s'.freeblock = t.freeblock + 1 →
      Mid s' dins (fun i sl => used i sl ∨ (i, sl) = (inum, .data fbn)) cs →
      addr s'.disk din (.data fbn) = t.freeblock →
      Q (din, addr s'.disk din (.data fbn)) s')
    (hE : ¬t.freeblock ≤ FSSIZE → E "read") :
    Prog.Wp (do
      let indirect ← rsect (din.addrs NDIRECT)
      if indirect.read32 (4 * (fbn - NDIRECT)) = 0 then do
        let b ← nextBlock
        let indirect := indirect.write32 (4 * (fbn - NDIRECT)) b
        wsect (din.addrs NDIRECT) indirect
        return (din, indirect.read32 (4 * (fbn - NDIRECT)))
      else return (din, indirect.read32 (4 * (fbn - NDIRECT)))) Q E t := by
  subst hdin
  obtain ⟨own, hl⟩ := h.layout
  obtain ⟨hlo, hlt, -⟩ := hl.range inum .ind hind
  have hne12 : (dins inum).addrs NDIRECT ≠ 0 := hl.ne_zero hind
  have h0 : (t.disk ((dins inum).addrs NDIRECT)).read32 (4 * (fbn - NDIRECT)) = 0 := by
    have := hl.unused inum (.data fbn) hv hu
    rwa [addr, if_neg (by omega), if_neg hne12] at this
  refine Prog.wp_bind.2 (wp_rsect (fun hsec => ?_) fun hsec => hE fun hle => hsec ?_)
  · rw [if_pos h0]
    refine Prog.wp_bind.2 (wp_nextBlock (Prog.wp_bind.2 (wp_wsect hsec ?_)))
    have hlay := hl.alloc_entry hle hv hind hu hlen hfree
    generalize hbuf : (t.disk ((dins inum).addrs NDIRECT)).write32 (4 * (fbn - NDIRECT))
      t.freeblock = buf at hlay ⊢
    have hx : addr (Function.update t.disk ((dins inum).addrs NDIRECT) buf) (dins inum)
        (.data fbn) = buf.read32 (4 * (fbn - NDIRECT)) := by
      rw [addr, if_neg (by omega), if_neg hne12, Function.update_self]
    have hgot := hQ { t with
        disk := Function.update t.disk ((dins inum).addrs NDIRECT) buf
        freeblock := t.freeblock + 1 }
      ⟨rfl, rfl, fun b hb => Function.update_of_ne (fun e => ?_) _ _⟩ rfl
      ⟨h.sectors, ⟨_, hlay⟩, h.beyond⟩ (hx.trans ?_)
    · rwa [hx] at hgot
    · have hlo' : nmeta ≤ (dins inum).addrs NDIRECT := hlo
      omega
    · rw [← hbuf, Bytes.read32_write32, Nat.mod_eq_of_lt hfree]
  · rw [h.sectors]
    exact Nat.lt_of_lt_of_le hlt hle

theorem getBlock_spec (h : Mid s dins (Used n cs) cs) (hfree : s.freeblock ≤ FSSIZE)
    (hi : 1 ≤ inum ∧ inum < n) (hfbn : fbn = (cs inum).length / BSIZE) (hv : fbn < MAXFILE) :
    Prog.Wp (getBlock (dins inum) fbn) (Got s dins cs n inum fbn)
      (fun _ => ¬s.freeblock + (nodes (fbn + 1) - nodes (blocksOf (cs inum).length)) ≤ FSSIZE)
      s := by
  have hlt : s.freeblock < 2 ^ 32 := Nat.lt_of_le_of_lt hfree (by decide)
  by_cases hmod : (cs inum).length % BSIZE = 0
  · have hk : blocksOf (cs inum).length = fbn := by
      rw [blocksOf]
      rw [BSIZE] at *
      omega
    have hlen : (cs inum).length ≤ BSIZE * fbn := by
      rw [BSIZE] at *
      omega
    obtain ⟨own, hl⟩ := h.layout
    have hu : ¬Used n cs inum (.data fbn) := fun hu => by
      have : fbn < blocksOf (cs inum).length := hu.2.2
      omega
    rcases Nat.lt_trichotomy fbn NDIRECT with hd | hd | hd
    · exact getBlock_direct h hi hk hlen hd
    · subst hd
      have hu12 : ¬Used n cs inum .ind := fun hu => by
        have : NDIRECT < blocksOf (cs inum).length := hu.2.2
        omega
      have hcount : nodes (NDIRECT + 1) - nodes (blocksOf (cs inum).length) = 2 := by
        rw [hk]
        decide
      rw [hcount]
      unfold getBlock
      rw [if_neg (Nat.lt_irrefl _)]
      have hmid : Mid { s with freeblock := s.freeblock + 1 }
          (Function.update dins inum (setAddr (dins inum) NDIRECT s.freeblock))
          (fun i sl => Used n cs i sl ∨ (i, sl) = (inum, .ind)) cs :=
        ⟨h.sectors, ⟨_, hl.alloc_ind hu12⟩,
          update_beyond (setAddr_beyond le_rfl (h.beyond inum)) h.beyond⟩
      refine Prog.wp_bind.2 (wp_ensure_new (hl.unused inum .ind trivial hu12) ?_)
      refine entry_new hmid (Function.update_self _ _ _) (.inr rfl)
        (fun hu' => hu'.elim hu fun e => absurd (Prod.mk.inj e).2 nofun) le_rfl hv hlen
        (Nat.lt_of_le_of_lt (Nat.succ_le_succ hfree) (by decide)) (fun s' hf hc hm hx => ?_)
        fun hno => ?_
      · refine ⟨⟨hf.sectors, hf.freeinode, hf.low⟩, ⟨hm.sectors, ?_, hm.beyond⟩, rfl, rfl, ?_,
          .inr ((congrArg (· + 1) hx).trans hc.symm)⟩
        · obtain ⟨own', hl'⟩ := hm.layout
          exact ⟨own', hl'.congr_used (usedUpTo_first hi hk)⟩
        · rw [hc, hcount]
      · change ¬s.freeblock + 1 ≤ FSSIZE at hno
        omega
    · have hind : Used n cs inum .ind := ⟨hi.1, hi.2, by
        change NDIRECT < blocksOf (cs inum).length
        omega⟩
      have hcount : nodes (fbn + 1) - nodes (blocksOf (cs inum).length) = 1 := by
        rw [hk, nodes, nodes, if_pos (by omega), if_pos (by omega)]
        omega
      rw [hcount]
      unfold getBlock
      rw [if_neg (by omega)]
      refine Prog.wp_bind.2 (wp_ensure_old (hl.ne_zero hind) ?_)
      refine entry_new h rfl hind hu (by omega) hv hlen hlt (fun s' hf hc hm hx => ?_)
        fun hno => absurd hfree hno
      refine ⟨hf, ⟨hm.sectors, ?_, ?_⟩, rfl, rfl, ?_, .inr ((congrArg (· + 1) hx).trans hc.symm)⟩
      · obtain ⟨own', hl'⟩ := hm.layout
        rw [Function.update_eq_self]
        exact ⟨own', hl'.congr_used (usedUpTo_succ hi hk (Nat.ne_of_gt hd))⟩
      · rw [Function.update_eq_self]
        exact hm.beyond
      · rw [hc, hcount]
  · refine getBlock_old h hfree hi ?_
    rw [blocksOf]
    rw [BSIZE] at *
    omega

end GetBlock

section Append

variable {s : St} {dins : ℕ → Dinode} {cs : ℕ → List UInt8} {n inum : ℕ}

structure Appended (s : St) (dins : ℕ → Dinode) (cs : ℕ → List UInt8) (n inum : ℕ)
    (p : List UInt8) (r : Dinode × ℕ) (s' : St) : Prop where
  frame : Frame s s'
  mid : Mid s' (Function.update dins inum r.1) (Used n (Function.update cs inum (cs inum ++ p)))
    (Function.update cs inum (cs inum ++ p))
  same : r.1 = { dins inum with addrs := r.1.addrs }
  off : r.2 = (cs inum ++ p).length
  le : s'.freeblock ≤ FSSIZE
  size : (cs inum ++ p).length ≤ MAXFILE * BSIZE
  count : s'.freeblock + nodes (blocksOf (cs inum).length) =
    s.freeblock + nodes (blocksOf (cs inum ++ p).length)

def Room (s : St) (len more : ℕ) : Prop :=
  len + more ≤ MAXFILE * BSIZE ∧
    s.freeblock + nodes (blocksOf (len + more)) ≤ FSSIZE + nodes (blocksOf len)

theorem nodes_mono {k k' : ℕ} (h : k ≤ k') : nodes k ≤ nodes k' := by
  unfold nodes
  split_ifs <;> omega

theorem copy_content {c p : List UInt8} {buf : Bytes} {n1 : ℕ}
    (hbuf : ∀ o < BSIZE, buf o = c.getD (BSIZE * (c.length / BSIZE) + o) 0)
    (hn : n1 ≤ p.length) :
    ∀ o < BSIZE, buf.copy (c.length - c.length / BSIZE * BSIZE) (p.take n1) o =
      (c ++ p.take n1).getD (BSIZE * (c.length / BSIZE) + o) 0 := by
  intro o ho
  have hlen : (p.take n1).length = n1 := by
    rw [List.length_take, Nat.min_eq_left hn]
  have hoff : c.length - c.length / BSIZE * BSIZE = c.length % BSIZE := by
    rw [BSIZE]
    omega
  have hdiv : BSIZE * (c.length / BSIZE) + c.length % BSIZE = c.length := Nat.div_add_mod _ _
  rw [hoff]
  by_cases hin : c.length % BSIZE ≤ o ∧ o < c.length % BSIZE + n1
  · obtain ⟨k, rfl⟩ := Nat.exists_eq_add_of_le hin.1
    rw [Bytes.copy_inside _ (by omega), List.getD_append_right _ _ _ _ (by omega)]
    congr 1
    omega
  · rw [Bytes.copy_outside _ (by omega), hbuf o ho]
    by_cases hlt : o < c.length % BSIZE
    · rw [List.getD_append _ _ _ _ (by omega)]
    · rw [List.getD_eq_default _ _ (by omega), List.getD_eq_default]
      rw [List.length_append, hlen]
      omega

theorem Got.write {fbn n1 : ℕ} {p : List UInt8} {r : Dinode × ℕ} {s₁ : St}
    (h : Got s dins cs n inum fbn r s₁) (hi : 1 ≤ inum ∧ inum < n)
    (hfbn : fbn = (cs inum).length / BSIZE) (hn : n1 ≤ p.length) (hpos : 0 < n1)
    (hfit : (cs inum).length % BSIZE + n1 ≤ BSIZE) :
    Mid (s₁.put r.2 ((s₁.disk r.2).copy ((cs inum).length - fbn * BSIZE) (p.take n1)))
      (Function.update dins inum r.1)
      (Used n (Function.update cs inum (cs inum ++ p.take n1)))
      (Function.update cs inum (cs inum ++ p.take n1)) ∧
    Frame s₁ (s₁.put r.2 ((s₁.disk r.2).copy ((cs inum).length - fbn * BSIZE) (p.take n1))) := by
  obtain ⟨own, hl⟩ := h.mid.layout
  have hlen : (cs inum ++ p.take n1).length = (cs inum).length + n1 := by
    rw [List.length_append, List.length_take, Nat.min_eq_left hn]
  have hdiv : BSIZE * fbn + (cs inum).length % BSIZE = (cs inum).length := by
    rw [hfbn]
    exact Nat.div_add_mod _ _
  have hu : UsedUpTo n cs inum (fbn + 1) inum (.data fbn) := by simp [UsedUpTo, Slot.Below]
  have hx : addr s₁.disk (Function.update dins inum r.1 inum) (.data fbn) = r.2 := by
    rw [Function.update_self, h.block]
  have hcontent := hl.content inum fbn hu
  rw [hx] at hcontent
  have hlay := hl.write hu
    ((s₁.disk r.2).copy ((cs inum).length - fbn * BSIZE) (p.take n1)) (cs inum ++ p.take n1)
    (fun o ho => by
      subst hfbn
      exact copy_content hcontent hn o ho)
    (fun k hk hne o ho => by
      have hk' : k < fbn + 1 := by simpa [UsedUpTo, Slot.Below] using hk
      have hlt : BSIZE * k + o < (cs inum).length := by
        rw [BSIZE] at *
        omega
      exact List.getD_append _ _ _ _ hlt)
  rw [hx] at hlay
  refine ⟨⟨h.mid.sectors, ⟨own, hlay.congr_used fun i sl => ?_⟩, h.mid.beyond⟩, rfl, rfl,
    fun b hb => ?_⟩
  · unfold UsedUpTo Used
    by_cases he : i = inum
    · subst he
      have hk : blocksOf (cs i ++ p.take n1).length = fbn + 1 := by
        rw [hlen, blocksOf]
        rw [BSIZE] at *
        omega
      rw [if_pos rfl, Function.update_self, hk]
      simp only [hi, true_and]
    · rw [if_neg he, Function.update_of_ne he]
  · refine Function.update_of_ne (fun e => ?_) _ _
    have := (hl.range inum (.data fbn) hu).1
    rw [hx] at this
    omega

theorem appended_nil (h : Mid s dins (Used n cs) cs) (hfree : s.freeblock ≤ FSSIZE)
    (hsize : (cs inum).length ≤ MAXFILE * BSIZE) :
    Appended s dins cs n inum [] (dins inum, (cs inum).length) s := by
  refine ⟨Frame.refl s, ?_, rfl, by rw [List.append_nil], hfree, by rwa [List.append_nil],
    by rw [List.append_nil]⟩
  rw [List.append_nil, Function.update_eq_self, Function.update_eq_self]
  exact h

theorem Appended.after {fbn n1 : ℕ} {p : List UInt8} {r r' : Dinode × ℕ} {s₁ s₂ s' : St}
    (hg : Got s dins cs n inum fbn r s₁) (hframe : Frame s₁ s₂)
    (hfree : s₂.freeblock = s₁.freeblock)
    (hk : blocksOf (cs inum ++ p.take n1).length = fbn + 1)
    (hmono : nodes (blocksOf (cs inum).length) ≤ nodes (fbn + 1))
    (h : Appended s₂ (Function.update dins inum r.1)
      (Function.update cs inum (cs inum ++ p.take n1)) n inum (p.drop n1) r' s') :
    Appended s dins cs n inum p r' s' := by
  have hcs : cs inum ++ p.take n1 ++ p.drop n1 = cs inum ++ p := by
    rw [List.append_assoc, List.take_append_drop]
  obtain ⟨hfr, hmid, hsame, hoff, hle, hsize, hcount⟩ := h
  simp only [Function.update_self, Function.update_idem, hcs] at hmid hsame hoff hsize hcount
  have hc := hg.count
  rw [hk] at hcount
  refine ⟨(hg.frame.trans hframe).trans hfr, hmid, ?_, hoff, hle, hsize, by omega⟩
  rw [hsame, hg.same]

theorem append_spec (fuel : ℕ) {p : List UInt8} (hp : p.length ≤ fuel)
    (h : Mid s dins (Used n cs) cs) (hfree : s.freeblock ≤ FSSIZE) (hi : 1 ≤ inum ∧ inum < n)
    (hsize : (cs inum).length ≤ MAXFILE * BSIZE) :
    Prog.Wp (append fuel (dins inum) (cs inum).length p) (Appended s dins cs n inum p)
      (fun _ => ¬Room s (cs inum).length p.length) s := by
  induction fuel generalizing s dins cs p with
  | zero =>
    obtain rfl := List.eq_nil_of_length_eq_zero (Nat.le_zero.1 hp)
    exact appended_nil h hfree hsize
  | succ fuel ih =>
    unfold append
    split_ifs with hnil
    · obtain rfl := List.eq_nil_of_length_eq_zero hnil
      exact appended_nil h hfree hsize
    · generalize hfbn : (cs inum).length / BSIZE = fbn
      generalize hn1 : min p.length ((fbn + 1) * BSIZE - (cs inum).length) = n1
      have hb : blocksOf ((cs inum).length + p.length) ≥ fbn + 1 := by
        rw [blocksOf]
        rw [BSIZE] at *
        omega
      have hmono := nodes_mono hb
      have hmono' : nodes (blocksOf (cs inum).length) ≤ nodes (fbn + 1) := nodes_mono (by
        rw [blocksOf]
        rw [BSIZE] at *
        omega)
      have hfacts : n1 ≤ p.length ∧ 0 < n1 ∧ (cs inum).length % BSIZE + n1 ≤ BSIZE := by
        rw [BSIZE] at *
        omega
      refine Prog.wp_bind.2 (wp_assert (fun hv => Prog.wp_bind.2 ?_) fun hv hroom => hv ?_)
      · refine (getBlock_spec h hfree hi hfbn.symm hv).mono (fun r s₁ hg => ?_) fun _ hE hroom =>
          hE (by have := hroom.2; omega)
        obtain ⟨hmid, hframe⟩ := hg.write hi hfbn.symm hfacts.1 hfacts.2.1 hfacts.2.2
        obtain ⟨own, hl⟩ := hg.mid.layout
        have hlen : (cs inum ++ p.take n1).length = (cs inum).length + n1 := by
          rw [List.length_append, List.length_take, Nat.min_eq_left hfacts.1]
        have hk : blocksOf (cs inum ++ p.take n1).length = fbn + 1 := by
          rw [hlen, blocksOf]
          rw [BSIZE] at *
          omega
        have hx : r.2 < s₁.freeblock := by
          have := (hl.range inum (.data fbn) (by simp [UsedUpTo, Slot.Below])).2.1
          rwa [Function.update_self, ← hg.block] at this
        have hc := hg.count
        have hsec₁ : s₁.sectors = FSSIZE := hg.frame.sectors.trans h.sectors
        refine Prog.wp_bind.2 (wp_rsect (fun hsec => Prog.wp_bind.2 (wp_wsect hsec ?_))
          fun hsec hroom => ?_)
        · have hle : s₁.freeblock ≤ FSSIZE := hg.last.elim id fun e => by omega
          have hrec := ih (p := p.drop n1) (by rw [List.length_drop]; omega) hmid hle (by
            rw [Function.update_self, hlen]
            rw [MAXFILE, BSIZE] at *
            omega)
          simp only [Function.update_self, hlen] at hrec
          rw [hn1]
          refine hrec.mono (fun r' s' ha => ha.after hg hframe rfl hk hmono') fun _ hE hroom => hE ?_
          refine ⟨?_, ?_⟩
          · have := hroom.1
            rw [List.length_drop]
            omega
          · have := hroom.2
            rw [hlen] at hk
            rw [List.length_drop, hk, show (cs inum).length + n1 + (p.length - n1) =
              (cs inum).length + p.length by omega]
            change s₁.freeblock + _ ≤ _
            omega
        · have := hroom.2
          omega
      · have := hroom.1
        rw [MAXFILE, BSIZE] at *
        omega

end Append

end Xv6.Mkfs
