import Xv6.Fs.Inv

/-!
# Operations on the inode cache

`iget`, `idup`, the sleep locks, `ilock` and `iput` keep the invariant of the shares. One
lemma covers a change of one slot of the cache; what is left for each operation is what it
does to the share of its process.
-/

namespace Xv6.Fs
open Lib

variable {P : Type} {s s' : State P} {p q : P} {l l' : Share P} {ls : P → Share P}
  {ip jp : Slot} {f : FileId} {k : Key}

namespace State

@[simp] theorem setInode_self (s : State P) (ip : Slot) (g : Inode P → Inode P) :
    (s.setInode ip g).inode ip = g (s.inode ip) := Function.update_self ..

theorem setInode_ne (s : State P) (g : Inode P → Inode P) (h : jp ≠ ip) :
    (s.setInode ip g).inode jp = s.inode jp := Function.update_of_ne h ..

end State

section Shares

theorem Share.Holds.add {n : ℤ} (h : l.Holds ip) (hn : 0 ≤ n) : (l.add k n).Holds ip :=
  h.imp_left fun h => h.trans (Share.has_add_ge hn l k _)

theorem Fits.add_pos {n : ℤ} (h : Fits s p l) (hb : l.busy = true) (hn : 0 ≤ n) :
    Fits s p (l.add k n) where
  own := h.own
  rest hr := absurd hr (ne_false_of_eq_true hb)
  nonneg k' := by
    have := h.nonneg k'
    simp only [Share.add, Pi.add_apply, Pi.single_apply]
    split_ifs <;> omega
  held := h.held
  loaded ip hip := ⟨(h.loaded ip hip).1, (h.loaded ip hip).2.1, (h.loaded ip hip).2.2.add hn⟩
  seen ip hip := ⟨(h.seen ip hip).1.add hn, (h.seen ip hip).2⟩
  lame ip hl := (h.lame ip hl).trans (Share.has_add_ge hn _ _ _)
  sole ip hs := ⟨(h.sole ip hs).1, (h.sole ip hs).2.1.trans (Share.has_add_ge hn _ _ _),
    (h.sole ip hs).2.2⟩
  blank f hf := ⟨(h.blank f hf).1, (h.blank f hf).2.1,
    (h.blank f hf).2.2.trans (Share.has_add_ge hn _ _ _)⟩
  via f ip hv := ⟨(h.via f ip hv).1, (h.via f ip hv).2.trans (Share.has_add_ge hn _ _ _)⟩
  child := h.child
  new ip hi := ⟨(h.new ip hi).1, (h.new ip hi).2.trans (Share.has_add_ge hn _ _ _)⟩
  work := h.work

end Shares

structure Apart (s : State P) (ls : P → Share P) (p : P) (l : Share P) : Prop where
  home : l.busy = false → (s.proc p).cwd = none
  sole : ∀ ip, l.sole = some ip → ∀ q ≠ p, ip ∉ (ls q).seen ∧
    ((ls q).busy = false → (s.proc q).cwd ≠ some ip)
  seen : ∀ ip ∈ l.seen, ∀ q ≠ p, (ls q).sole ≠ some ip
  blank : ∀ f ∈ l.blank, ∀ q ≠ p, f ∉ (ls q).blank
  child : ∀ c, l.child = some c → ∀ q ≠ p, (ls q).child ≠ some c

theorem apart_empty (hcwd : (s.proc p).cwd = none) : Apart s ls p .empty where
  home _ := hcwd
  sole ip hi := by cases hi
  seen ip hi := absurd hi (Finset.notMem_empty ip)
  blank f hf := absurd hf (Finset.notMem_empty f)
  child c hc := by cases hc

theorem Pairs.apart (h : Pairs s ls) (hb : l'.busy = true)
    (hsole : ∀ ip, l'.sole = some ip → (ls p).sole = some ip)
    (hseen : l'.seen ⊆ (ls p).seen) (hblank : l'.blank ⊆ (ls p).blank)
    (hchild : ∀ c, l'.child = some c → (ls p).child = some c) : Apart s ls p l' where
  home hr := absurd hr (ne_false_of_eq_true hb)
  sole ip hs q hq := h.sole p q ip hq (hsole ip hs)
  seen ip hi q hq hs := (h.sole q p ip (Ne.symm hq) hs).1 (hseen hi)
  blank f hf q hq hf' := hq (h.blank q p f hf' (hblank hf))
  child c hc q hq hc' := hq (h.child q p c hc' (hchild c hc))

theorem Pairs.apart_self (h : Pairs s ls) (hb : (ls p).busy = true) : Apart s ls p (ls p) :=
  h.apart hb (fun _ => id) (Finset.Subset.refl _) (Finset.Subset.refl _) fun _ => id

variable [DecidableEq P]

theorem Pairs.step (h : Pairs s ls) (ha : Apart s ls p l')
    (hself : l'.busy = false → (s'.proc p).cwd = (s.proc p).cwd)
    (hcwd : ∀ q ≠ p, ∀ ip, (ls q).busy = false → (s'.proc q).cwd = some ip →
      s'.Alloc ip ∧ ((s.proc q).cwd = some ip ∨ (∀ q', (ls q').sole ≠ some ip) ∧ l'.sole = none)) :
    Pairs s' (Function.update ls p l') where
  sole q q' ip hne hs := by
    by_cases hq : q = p
    · subst hq
      rw [Function.update_self] at hs
      rw [Function.update_of_ne hne]
      refine ⟨(ha.sole ip hs q' hne).1, fun hb hc => ?_⟩
      rcases (hcwd q' hne ip hb hc).2 with h1 | ⟨-, h1⟩
      · exact (ha.sole ip hs q' hne).2 hb h1
      · cases h1.symm.trans hs
    · rw [Function.update_of_ne hq] at hs
      by_cases hq' : q' = p
      · subst hq'
        rw [Function.update_self]
        refine ⟨fun hi => ha.seen ip hi q hq hs, fun hb hc => ?_⟩
        rw [hself hb, ha.home hb] at hc
        cases hc
      · rw [Function.update_of_ne hq']
        refine ⟨(h.sole q q' ip hne hs).1, fun hb hc => ?_⟩
        rcases (hcwd q' hq' ip hb hc).2 with h1 | ⟨h1, -⟩
        · exact (h.sole q q' ip hne hs).2 hb h1
        · exact h1 q hs
  blank q q' f hf hf' := by
    by_cases hq : q = p <;> by_cases hq' : q' = p
    · rw [hq, hq']
    · rw [hq, Function.update_self] at hf
      rw [Function.update_of_ne hq'] at hf'
      exact absurd hf' (ha.blank f hf q' hq')
    · rw [hq', Function.update_self] at hf'
      rw [Function.update_of_ne hq] at hf
      exact absurd hf (ha.blank f hf' q hq)
    · rw [Function.update_of_ne hq] at hf
      rw [Function.update_of_ne hq'] at hf'
      exact h.blank q q' f hf hf'
  child q q' c hc hc' := by
    by_cases hq : q = p <;> by_cases hq' : q' = p
    · rw [hq, hq']
    · rw [hq, Function.update_self] at hc
      rw [Function.update_of_ne hq'] at hc'
      exact absurd hc' (ha.child c hc q' hq')
    · rw [hq', Function.update_self] at hc'
      rw [Function.update_of_ne hq] at hc
      exact absurd hc (ha.child c hc' q hq)
    · rw [Function.update_of_ne hq] at hc
      rw [Function.update_of_ne hq'] at hc'
      exact h.child q q' c hc hc'
  home q ip hb hc := by
    by_cases hq : q = p
    · subst hq
      rw [Function.update_self] at hb
      rw [hself hb, ha.home hb] at hc
      cases hc
    · rw [Function.update_of_ne hq] at hb
      exact (hcwd q hq ip hb hc).1

variable [Fintype P]

theorem Inv.turn (h : Inv s ls) (hp : Fits s' p l') (hq : ∀ q ≠ p, Frame s s' q (ls q))
    (hdue : ∀ k, s'.count k - s'.files k - due s' (Function.update ls p l') k =
      s.count k - s.files k - due s ls k)
    (ht : Tables s') (hpairs : Pairs s' (Function.update ls p l')) :
    Inv s' (Function.update ls p l') where
  fits q := by
    by_cases hqp : q = p
    · rw [hqp, Function.update_self]
      exact hp
    · rw [Function.update_of_ne hqp]
      exact (h.fits q).frame (hq q hqp)
  balance k := by
    have h1 := h.balance k
    have h2 := hdue k
    omega
  tables := ht
  pairs := hpairs

theorem Inv.step_of (h : Inv s ls) (hproc : s'.proc = s.proc) (hp : Fits s' p l')
    (hq : ∀ q ≠ p, Frame s s' q (ls q)) {d : Key → ℤ} (hbal : l'.bal = (ls p).bal + d)
    (hcount : ∀ k, s'.count k - s'.files k = s.count k - s.files k + d k) (ht : Tables s')
    (ha : Apart s ls p l')
    (halloc : ∀ q ≠ p, ∀ ip, (ls q).busy = false → (s.proc q).cwd = some ip → s'.Alloc ip) :
    Inv s' (Function.update ls p l') := by
  refine h.turn hp hq (fun k => ?_) ht
    (h.pairs.step ha (fun _ => by rw [hproc]) fun q hq ip hb hc => ?_)
  · have h1 := hcount k
    have h2 : due s' (Function.update ls p l') k = due s ls k + d k :=
      due_change (fun q hq => by rw [Function.update_of_ne hq, hproc])
        (by rw [Function.update_self, hproc, hbal, Pi.add_apply, add_assoc])
    omega
  · rw [hproc] at hc
    exact ⟨halloc q hq ip hb hc, Or.inl hc⟩

theorem Inv.share (h : Inv s ls) (hp : Fits s p l') (hbal : l'.bal = (ls p).bal)
    (ha : Apart s ls p l') : Inv s (Function.update ls p l') :=
  h.step_of rfl hp (fun q _ => ⟨fun _ => rfl, fun _ => le_rfl, fun _ _ => rfl, fun _ => Iff.rfl,
      fun _ _ => rfl, fun _ _ _ => id, fun _ _ => id, fun _ _ => ⟨rfl, rfl⟩, fun _ _ => rfl, fun _ _ => id,
      rfl⟩)
    (d := 0) (by rw [hbal, add_zero]) (fun k => by simp) h.tables ha
    fun q _ ip hb hc => h.pairs.home q ip hb hc

section Slot

variable {g : Inode P → Inode P}

structure Keep (x y : Inode P) : Prop where
  inum : 0 < x.ref → y.inum = x.inum
  valid : 0 < x.ref → x.valid = true → y.valid = true

omit [DecidableEq P] [Fintype P] in
theorem alloc_setInode (hkeep : jp = ip → (g (s.inode ip)).inum = (s.inode ip).inum) :
    (s.setInode ip g).Alloc jp ↔ s.Alloc jp := by
  have : ((s.setInode ip g).inode jp).inum = (s.inode jp).inum := by
    by_cases hj : jp = ip
    · subst hj
      rw [State.setInode_self, hkeep rfl]
    · rw [State.setInode_ne s g hj]
  unfold State.Alloc
  rw [this]
  rfl

omit [DecidableEq P] [Fintype P] in
theorem count_setInode (k : Key) : (s.setInode ip g).count k = s.count k +
    if k = .inode ip then ((g (s.inode ip)).ref : ℤ) - (s.inode ip).ref else 0 := by
  cases k with
  | inode jp =>
    by_cases hj : jp = ip
    · subst hj
      simp only [State.count, State.setInode_self, if_pos]
      omega
    · rw [if_neg (by simpa using hj), add_zero]
      simp only [State.count, State.setInode_ne s g hj]
  | file f => exact (add_zero _).symm
  | pipeEnd a w => cases w <;> exact (add_zero _).symm
  | page a => exact (add_zero _).symm

omit [DecidableEq P] in
theorem Inv.frame_slot (h : Inv s ls) (hkeep : Keep (s.inode ip) (g (s.inode ip)))
    (hlock : (g (s.inode ip)).lock = some q ↔ (s.inode ip).lock = some q) :
    Frame s (s.setInode ip g) q (ls q) where
  proc _ := rfl
  assets _ := le_rfl
  child _ _ := rfl
  lock jp := by
    by_cases hj : jp = ip
    · rw [hj, State.setInode_self, hlock]
    · rw [State.setInode_ne s g hj]
  inum jp hh := by
    by_cases hj : jp = ip
    · subst hj
      rw [State.setInode_self, hkeep.inum (h.ref_pos hh)]
    · rw [State.setInode_ne s g hj]
  valid jp _ hh hv := by
    by_cases hj : jp = ip
    · subst hj
      rw [State.setInode_self]
      exact hkeep.valid (h.ref_pos hh) hv
    · rw [State.setInode_ne s g hj]
      exact hv
  alloc jp hs ha := by
    refine (alloc_setInode fun hj => ?_).mpr ha
    subst hj
    exact hkeep.inum (h.ref_pos ((h.fits q).seen jp hs).1)
  file _ _ := ⟨rfl, rfl⟩
  blank _ _ := rfl
  files _ _ := id
  dir := rfl

omit [DecidableEq P] in
theorem Inv.ref_pos_of_cwd (h : Inv s ls) (hb : (ls q).busy = false)
    (hc : (s.proc q).cwd = some ip) : 0 < (s.inode ip).ref := by
  have h1 := h.balance (.inode ip)
  have h2 := h.due_ge (k := .inode ip) q
  have h3 := files_nonneg s (.inode ip)
  rw [(h.fits q).rest hb] at h2
  simp only [Proc.assets, hc, if_pos, Share.empty, Pi.zero_apply, State.count] at h1 h2
  omega

omit [DecidableEq P] in
theorem Inv.ref_pos_of_file (h : Inv s ls) (hf : (s.file f).type = .inode) :
    0 < (s.inode (s.file f).ip).ref := by
  have h1 := h.balance (.inode (s.file f).ip)
  have h2 : (0 : ℤ) ≤ due s ls (.inode (s.file f).ip) :=
    Finset.sum_nonneg fun q _ => (h.fits q).nonneg _
  have h3 := files_pos (s := s) (f := f) (k := .inode (s.file f).ip) ⟨hf, rfl⟩
  simp only [State.count] at h1
  omega

omit [DecidableEq P] in
theorem Inv.tables_slot (h : Inv s ls) (hkeep : Keep (s.inode ip) (g (s.inode ip)))
    (huniq : ∀ j ≠ ip, 0 < (g (s.inode ip)).ref → 0 < (s.inode j).ref →
      (g (s.inode ip)).inum ≠ (s.inode j).inum)
    (hcache : 0 < (g (s.inode ip)).ref → (g (s.inode ip)).valid = true →
      (g (s.inode ip)).copy = s.disk (g (s.inode ip)).inum ∧
        (s.disk (g (s.inode ip)).inum).type ≠ .free) : Tables (s.setInode ip g) where
  unique i j hi hj hij := by
    by_cases h1 : i = ip <;> by_cases h2 : j = ip
    · rw [h1, h2]
    · subst h1
      rw [State.setInode_self] at hi hij
      rw [State.setInode_ne s g h2] at hj hij
      exact absurd hij (huniq j h2 hi hj)
    · subst h2
      rw [State.setInode_self] at hj hij
      rw [State.setInode_ne s g h1] at hi hij
      exact absurd hij.symm (huniq i h1 hj hi)
    · rw [State.setInode_ne s g h1] at hi hij
      rw [State.setInode_ne s g h2] at hj hij
      exact h.tables.unique i j hi hj hij
  cached jp hr hv := by
    by_cases hj : jp = ip
    · subst hj
      unfold State.Alloc
      rw [State.setInode_self] at hr hv ⊢
      exact hcache hr hv
    · unfold State.Alloc
      rw [State.setInode_ne s g hj] at hr hv ⊢
      exact h.tables.cached jp hr hv
  closed := h.tables.closed
  opened f hf := by
    refine (alloc_setInode fun hj => ?_).mpr (h.tables.opened f hf)
    rw [← hj]
    refine hkeep.inum ?_ |> fun hi => by simpa only [hj] using hi
    rw [← hj]
    exact h.ref_pos_of_file hf
  unused := h.tables.unused
  paged := h.tables.paged

theorem Inv.slot (h : Inv s ls) (hkeep : Keep (s.inode ip) (g (s.inode ip)))
    (hlock : ∀ q ≠ p, ((g (s.inode ip)).lock = some q ↔ (s.inode ip).lock = some q))
    (huniq : ∀ j ≠ ip, 0 < (g (s.inode ip)).ref → 0 < (s.inode j).ref →
      (g (s.inode ip)).inum ≠ (s.inode j).inum)
    (hcache : 0 < (g (s.inode ip)).ref → (g (s.inode ip)).valid = true →
      (g (s.inode ip)).copy = s.disk (g (s.inode ip)).inum ∧
        (s.disk (g (s.inode ip)).inum).type ≠ .free)
    (hp : Fits (s.setInode ip g) p l') (ha : Apart s ls p l')
    (hbal : l'.bal = (ls p).bal +
      Pi.single (.inode ip) (((g (s.inode ip)).ref : ℤ) - (s.inode ip).ref)) :
    Inv (s.setInode ip g) (Function.update ls p l') := by
  refine h.step_of rfl hp (fun q hq => h.frame_slot hkeep (hlock q hq)) hbal (fun k => ?_)
    (h.tables_slot hkeep huniq hcache) ha fun q _ jp hb hc => ?_
  · have hfiles : (s.setInode ip g).files k = s.files k := rfl
    rw [hfiles, Pi.single_apply, count_setInode]
    split_ifs <;> omega
  · refine (alloc_setInode fun hj => ?_).mpr (h.pairs.home q jp hb hc)
    subst hj
    exact hkeep.inum (h.ref_pos_of_cwd hb hc)

end Slot

end Xv6.Fs
