import Xv6.Fs.Effects

/-!
# Inodes without links

`iput` reads `ref` and gives up its own reference later, without the lock in between. Two
processes that put the last two references of an inode without links can both find `ref` to
be two. If no process looks at `ref` while another is between the two, some reference is
always left to free the inode (`Kept`).
-/

namespace Xv6.Fs
open Lib

variable {P : Type}

def State.Unlinked (s : State P) (i : ℕ) : Prop := (s.disk i).type ≠ .free ∧ (s.disk i).nlink = 0

variable [Fintype P]

def lames (ls : P → Share P) (ip : Slot) : ℤ :=
  (Finset.univ.filter fun q => (ls q).lame = some ip).card

structure Kept (s : State P) (ls : P → Share P) : Prop where
  held : ∀ i, s.Unlinked i → (∃ q, (ls q).fresh = some i) ∨
    ∃ ip, (s.inode ip).inum = i ∧ (s.inode ip).valid = true ∧ lames ls ip < (s.inode ip).ref
  empty : ∀ i, (s.disk i).type = .free → (s.disk i).size = 0

variable [DecidableEq P] {s s' : State P} {ls : P → Share P} {p q : P} {l' : Share P}
  {ip jp : Slot}

omit [DecidableEq P] in
theorem lames_nonneg (ls : P → Share P) (ip : Slot) : 0 ≤ lames ls ip := Int.natCast_nonneg _

theorem lames_update (ip : Slot) : lames (Function.update ls p l') ip =
    lames ls ip - (if (ls p).lame = some ip then 1 else 0) + if l'.lame = some ip then 1 else 0 :=
  card_filter_update ls p l' fun l => l.lame = some ip

theorem lames_congr (h : l'.lame = (ls p).lame) :
    lames (Function.update ls p l') = lames ls := by
  funext ip
  rw [lames_update, h]
  omega

theorem Kept.step (h : Kept s ls)
    (hdisk : ∀ i, s'.Unlinked i → s.Unlinked i ∨ l'.fresh = some i ∨
      ∃ ip, (s'.inode ip).inum = i ∧ (s'.inode ip).valid = true ∧
        lames (Function.update ls p l') ip < (s'.inode ip).ref)
    (hfresh : ∀ i, (ls p).fresh = some i → s'.Unlinked i → l'.fresh = some i)
    (hslot : ∀ ip, (s.inode ip).valid = true → lames ls ip < (s.inode ip).ref →
      s'.Unlinked (s.inode ip).inum → (s'.inode ip).inum = (s.inode ip).inum ∧
        (s'.inode ip).valid = true ∧ lames (Function.update ls p l') ip < (s'.inode ip).ref)
    (hempty : ∀ i, (s'.disk i).type = .free → (s'.disk i).size = 0) :
    Kept s' (Function.update ls p l') where
  held i hi := by
    rcases hdisk i hi with hold | hnew | hnew
    · rcases h.held i hold with ⟨q, hq⟩ | ⟨ip, rfl, hv, hr⟩
      · refine Or.inl ⟨q, ?_⟩
        by_cases hqp : q = p
        · subst hqp
          rw [Function.update_self]
          exact hfresh i hq hi
        · rw [Function.update_of_ne hqp]
          exact hq
      · exact Or.inr ⟨ip, hslot ip hv hr hi⟩
    · exact Or.inl ⟨p, by rwa [Function.update_self]⟩
    · exact Or.inr hnew
  empty := hempty

theorem Kept.slots (h : Kept s ls) (hdisk : s'.disk = s.disk) (hfresh : l'.fresh = (ls p).fresh)
    (hlame : l'.lame = (ls p).lame)
    (hslot : ∀ ip, 0 < (s.inode ip).ref → (s.inode ip).valid = true →
      (s'.inode ip).inum = (s.inode ip).inum ∧ (s'.inode ip).valid = true ∧
        (s.inode ip).ref ≤ (s'.inode ip).ref) : Kept s' (Function.update ls p l') := by
  refine h.step (fun i hi => ?_) (fun i hi _ => hfresh.trans hi) (fun ip hv hr _ => ?_) fun i => ?_
  · left
    unfold State.Unlinked at hi ⊢
    rwa [hdisk] at hi
  · have h0 := lames_nonneg ls ip
    obtain ⟨h1, h2, h3⟩ := hslot ip (by omega) hv
    refine ⟨h1, h2, ?_⟩
    rw [lames_congr hlame]
    omega
  · rw [hdisk]
    exact h.empty i

section Operations

variable {g : Inode P → Inode P}

theorem Kept.setInode (h : Kept s ls) (hfresh : l'.fresh = (ls p).fresh)
    (hlame : l'.lame = (ls p).lame) (hkeep : Keep (s.inode ip) (g (s.inode ip)))
    (href : (s.inode ip).ref ≤ (g (s.inode ip)).ref) :
    Kept (s.setInode ip g) (Function.update ls p l') := by
  refine h.slots rfl hfresh hlame fun jp hr hv => ?_
  by_cases hj : jp = ip
  · subst hj
    rw [State.setInode_self]
    exact ⟨hkeep.inum hr, hkeep.valid hr hv, href⟩
  · rw [State.setInode_ne s g hj]
    exact ⟨rfl, hv, le_rfl⟩

theorem Kept.iget {n : ℕ} (h : Kept s ls) (hfresh : l'.fresh = (ls p).fresh)
    (hlame : l'.lame = (ls p).lame) (he : s.iget n = .ret (ip, s')) :
    Kept s' (Function.update ls p l') := by
  rcases iget_cases he with ⟨-, -, rfl⟩ | ⟨hr, -, rfl⟩
  · exact h.setInode hfresh hlame ⟨fun _ => rfl, fun _ => id⟩ (Nat.le_succ _)
  · refine h.setInode hfresh hlame ⟨fun h0 => ?_, fun h0 => ?_⟩ ?_
    · omega
    · omega
    · rw [hr]
      exact Nat.zero_le _

theorem Inv.lames_lt (h : Inv s ls) (hH : 1 ≤ (ls p).has (.inode ip))
    (hl : (ls p).lame ≠ some ip) : lames ls ip < (s.inode ip).ref := by
  have hle : ∀ q, (if (ls q).lame = some ip then (1 : ℤ) else 0) + (if q = p then 1 else 0) ≤
      (s.proc q).assets (.inode ip) + (ls q).bal (.inode ip) := by
    intro q
    have hnn := (h.fits q).nonneg (.inode ip)
    have heq : 1 ≤ (ls q).has (.inode ip) → 1 ≤ (s.proc q).assets (.inode ip) +
        (ls q).bal (.inode ip) := fun h1 =>
      ((h.fits q).has_eq ((h.fits q).busy_of_has h1) (.inode ip)) ▸ h1
    by_cases hqp : q = p
    · subst hqp
      rw [if_neg hl, if_pos rfl]
      exact heq hH
    · rw [if_neg hqp, add_zero]
      split_ifs with hq
      · exact heq ((h.fits q).lame ip hq)
      · exact hnn
  have hsum := Finset.sum_le_sum fun q (_ : q ∈ Finset.univ) => hle q
  rw [Finset.sum_add_distrib, Finset.sum_ite_eq' Finset.univ p fun _ => (1 : ℤ),
    if_pos (Finset.mem_univ p), ← Finset.natCast_card_filter] at hsum
  have hb := h.balance (.inode ip)
  have hf := files_nonneg s (.inode ip)
  change lames ls ip + 1 ≤ due s ls (.inode ip) at hsum
  simp only [State.count] at hb
  omega

theorem Kept.lastRef {last : Bool} (h : Inv s ls) (hk : Kept s ls)
    (hlame : (ls p).lame = none)
    (hlast : last = ((s.inode ip).valid && decide ((s.inode ip).copy.nlink = 0) &&
      decide ((s.inode ip).ref = 1)))
    (hcalm : (s.inode ip).valid = true → (s.inode ip).copy.nlink = 0 →
      ∀ q ≠ p, (ls q).lame ≠ some ip) :
    Kept s (Function.update ls p
      (if last then { ls p with sole := some ip } else { ls p with lame := some ip })) := by
  cases last with
  | true => exact hk.slots rfl rfl rfl fun jp _ hv => ⟨rfl, hv, le_rfl⟩
  | false =>
    refine hk.step (fun i hi => Or.inl hi) (fun i hi _ => hi) (fun jp hv hr hu => ?_) hk.empty
    refine ⟨rfl, hv, ?_⟩
    rw [lames_update, hlame, if_neg nofun]
    change lames ls jp - 0 + (if some ip = some jp then 1 else 0) < _
    by_cases hj : jp = ip
    · subst hj
      have h0 := lames_nonneg ls jp
      have hnl : (s.inode jp).copy.nlink = 0 := by
        rw [(h.tables.cached jp (by omega) hv).1]
        exact hu.2
      -- nobody else is done with the inode, so the count is not the caller's alone
      have hnone : lames ls jp = 0 := by
        have : (Finset.univ.filter fun q => (ls q).lame = some jp) = ∅ := by
          refine Finset.filter_eq_empty_iff.mpr fun q _ hq => ?_
          by_cases hqp : q = p
          · rw [hqp, hlame] at hq
            cases hq
          · exact hcalm hv hnl q hqp hq
        rw [lames, this, Finset.card_empty, Nat.cast_zero]
      have hone : (s.inode jp).ref ≠ 1 := by
        simpa [hv, hnl] using hlast
      rw [if_pos rfl]
      omega
    · rw [if_neg fun he => hj (Option.some.inj he).symm]
      omega

theorem Kept.ifree (hk : Kept s ls) (hf : l'.fresh = (ls p).fresh)
    (hlame : ∀ jp ≠ ip, l'.lame = some jp → (ls p).lame = some jp) :
    Kept (s.ifree ip) (Function.update ls p l') := by
  have hfree : ¬ (s.ifree ip).Unlinked (s.inode ip).inum := by
    rw [State.Unlinked, ifree_disk_self]
    exact fun hn => hn.1 rfl
  have hne : ∀ i, (s.ifree ip).Unlinked i → i ≠ (s.inode ip).inum := fun i hi he =>
    hfree (he ▸ hi)
  refine hk.step (fun i hi => ?_) (fun i hi _ => hf.trans hi) (fun jp hv hr hu => ?_) fun i hi => ?_
  · left
    unfold State.Unlinked at hi ⊢
    rwa [ifree_disk (hne i hi)] at hi
  · have hj : jp ≠ ip := fun he => hne _ hu (he ▸ rfl)
    have hsame : (s.ifree ip).inode jp = s.inode jp := by
      rw [State.ifree, State.setInode_ne _ _ hj]
      exact Function.update_of_ne hj ..
    rw [hsame, lames_update]
    refine ⟨rfl, hv, ?_⟩
    have := hlame jp hj
    split_ifs <;> first | omega | (exfalso; tauto)
  · by_cases hin : i = (s.inode ip).inum
    · rw [hin, ifree_disk_self]
    · rw [ifree_disk hin] at hi ⊢
      exact hk.empty i hi

theorem Kept.unref (hk : Kept s ls) (hf : l'.fresh = (ls p).fresh) (hl : (ls p).lame = some ip)
    (hl' : l'.lame = none) :
    Kept (s.setInode ip fun x => { x with ref := x.ref - 1 }) (Function.update ls p l') := by
  refine hk.step (fun i => Or.inl) (fun i hi _ => hf.trans hi) (fun jp hv hr _ => ?_) hk.empty
  have h0 := lames_nonneg (Function.update ls p l') jp
  rw [lames_update, hl, hl', if_neg (show ¬ (none : Option Slot) = some jp from nofun),
    add_zero] at h0 ⊢
  by_cases hj : jp = ip
  · subst hj
    rw [if_pos rfl] at h0 ⊢
    rw [State.setInode_self]
    refine ⟨rfl, hv, ?_⟩
    simp only
    omega
  · rw [if_neg fun he => hj (Option.some.inj he).symm, State.setInode_ne _ _ hj]
    exact ⟨rfl, hv, by omega⟩

theorem Kept.ialloc {N n m : ℕ} {type : IType} (hk : Kept s ls) (htype : type ≠ .free)
    (hfresh : (ls p).fresh = none) (hl : l'.lame = (ls p).lame) (hl' : l'.fresh = some m)
    (he : s.ialloc N n type = .ret (m, s')) : Kept s' (Function.update ls p l') := by
  unfold State.ialloc at he
  split_ifs at he with hno hn
  obtain ⟨rfl, rfl⟩ := Outcome.ret_inj he
  have hdisk : ∀ i ≠ n, Function.update s.disk n (⟨type, 0, 0, 0, 0⟩ : Dinode) i = s.disk i :=
    fun i hi => Function.update_of_ne hi ..
  refine hk.step (fun i hi => ?_) (fun i hi => absurd (hfresh.symm.trans hi) nofun)
    (fun jp hv hr _ => ?_) fun i hi => ?_
  · by_cases hin : i = n
    · exact Or.inr (Or.inl (hin ▸ hl'))
    · left
      simp only [State.Unlinked, hdisk i hin] at hi
      exact hi
  · rw [lames_congr hl]
    exact ⟨rfl, hv, hr⟩
  · change (Function.update s.disk n _ i).size = 0
    change (Function.update s.disk n _ i).type = .free at hi
    by_cases hin : i = n
    · rw [hin, Function.update_self] at hi
      exact absurd hi htype
    · rw [hdisk i hin] at hi ⊢
      exact hk.empty i hi

theorem Kept.update {g : Dinode → Dinode} (hk : Kept s ls) (hl : l'.lame = (ls p).lame)
    (htype : (g (s.inode ip).copy).type ≠ .free)
    (hfresh : ∀ i, (ls p).fresh = some i → l'.fresh = some i ∨
      i = (s.inode ip).inum ∧ (g (s.inode ip).copy).nlink ≠ 0)
    (hlink : (g (s.inode ip).copy).nlink = 0 → s.Unlinked (s.inode ip).inum ∨
      (s.inode ip).valid = true ∧ lames ls ip < (s.inode ip).ref) :
    Kept (s.update ip g) (Function.update ls p l') := by
  have hself : (s.update ip g).disk (s.inode ip).inum = g (s.inode ip).copy :=
    update_disk_self s ip g
  refine hk.step (fun i hi => ?_) (fun i hi hu => ?_) (fun jp hv hr _ => ?_) fun i hi => ?_
  · by_cases hin : i = (s.inode ip).inum
    · subst hin
      rw [State.Unlinked, hself] at hi
      rcases hlink hi.2 with hold | ⟨hv, hr⟩
      · exact Or.inl hold
      · obtain ⟨h1, h2, -, h4⟩ := update_inode s ip ip g
        refine Or.inr (Or.inr ⟨ip, h1, h4.trans hv, ?_⟩)
        rwa [lames_congr hl, h2]
    · left
      unfold State.Unlinked at hi ⊢
      rwa [update_disk_ne hin] at hi
  · rcases hfresh i hi with h1 | ⟨rfl, h1⟩
    · exact h1
    · rw [State.Unlinked, hself] at hu
      exact absurd hu.2 h1
  · obtain ⟨h1, h2, -, h4⟩ := update_inode s ip jp g
    rw [h1, h2, h4, lames_congr hl]
    exact ⟨rfl, hv, hr⟩
  · by_cases hin : i = (s.inode ip).inum
    · rw [hin, hself] at hi
      exact absurd hi htype
    · rw [update_disk_ne hin] at hi ⊢
      exact hk.empty i hi

theorem Kept.resize (hk : Kept s ls) (p : P) (n : ℕ)
    (hc : (s.inode ip).copy = s.disk (s.inode ip).inum) (ha : s.Alloc ip) :
    Kept (s.update ip fun d => { d with size := n }) ls := by
  have : Kept (s.update ip fun d => { d with size := n }) (Function.update ls p (ls p)) := by
    refine hk.update rfl (hc ▸ ha) (fun i hi => Or.inl hi) fun h0 => Or.inl ⟨ha, ?_⟩
    rw [← hc]
    exact h0
  rwa [Function.update_eq_self] at this

end Operations

end Xv6.Fs
