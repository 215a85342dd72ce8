import Xv6.Fs.Slots

/-!
# References and locks of cached inodes

The operations of `iget`, `idup`, `ilock`, `iunlock` and `iput` that leave the disk alone.
-/

namespace Xv6.Fs
open Lib

variable {P : Type} {s s' : State P} {p q : P} {l l' : Share P} {ls : P → Share P}
  {ip jp : Slot} {f : FileId} {k : Key}

theorem Fits.busy_of_holds (h : Fits s q l) (hh : l.Holds ip) : l.busy = true := by
  rcases hh with hh | ⟨f, hv⟩
  · exact h.busy_of_has hh
  · by_contra hb
    rw [h.rest (by simpa using hb)] at hv
    cases hv

theorem Fits.busy_of_held (h : Fits s q l) (hh : ip ∈ l.held) : l.busy = true := by
  by_contra hb
  rw [h.rest (by simpa using hb)] at hh
  exact absurd hh (Finset.notMem_empty ip)

theorem Fits.made {b : Bool} (h : Fits s p l) (hf : l.fresh = some (s.inode ip).inum)
    (hh : 1 ≤ l.has (.inode ip)) : Fits s p { l with new := some ip, kid := some (ip, b) } where
  own := h.own
  rest hr := by
    have := h.busy_of_has hh
    cases this.symm.trans hr
  nonneg := h.nonneg
  held := h.held
  loaded := h.loaded
  seen := h.seen
  lame := h.lame
  sole := h.sole
  blank := h.blank
  via := h.via
  child := h.child
  new jp hj := by
    obtain rfl := Option.some.inj hj
    exact ⟨hf, hh⟩
  work := h.work

variable [DecidableEq P] [Fintype P]

section Iget

theorem Inv.addRef (h : Inv s ls) (hb : (ls p).busy = true) (hr : 0 < (s.inode ip).ref) :
    Inv (s.setInode ip fun x => { x with ref := x.ref + 1 })
      (Function.update ls p ((ls p).add (.inode ip) 1)) := by
  have hkeep : Keep (s.inode ip) { s.inode ip with ref := (s.inode ip).ref + 1 } :=
    ⟨fun _ => rfl, fun _ => id⟩
  refine h.slot (g := fun x => { x with ref := x.ref + 1 }) hkeep (fun q _ => Iff.rfl)
    (fun j hj _ hj0 heq => hj (h.tables.unique j ip hj0 hr heq.symm))
    (fun _ hv => h.tables.cached ip hr hv) ?_ ?_ ?_
  · exact ((h.fits p).frame (h.frame_slot hkeep Iff.rfl)).add_pos hb (by decide)
  · exact h.pairs.apart hb (fun _ => id) (Finset.Subset.refl _) (Finset.Subset.refl _)
      fun _ => id
  · simp [Share.add]

theorem Inv.recycle {n : ℕ} (h : Inv s ls) (hb : (ls p).busy = true)
    (hr : (s.inode ip).ref = 0) (hn : ∀ j, 0 < (s.inode j).ref → (s.inode j).inum ≠ n) :
    Inv (s.setInode ip fun x => { x with inum := n, ref := 1, valid := false })
      (Function.update ls p ((ls p).add (.inode ip) 1)) := by
  have hkeep : Keep (s.inode ip) { s.inode ip with inum := n, ref := 1, valid := false } :=
    ⟨fun h0 => by omega, fun h0 => by omega⟩
  refine h.slot (g := fun x => { x with inum := n, ref := 1, valid := false }) hkeep
    (fun q _ => Iff.rfl) (fun j hj _ hj0 heq => hn j hj0 heq.symm)
    (fun _ hv => absurd hv nofun) ?_ ?_ ?_
  · exact ((h.fits p).frame (h.frame_slot hkeep Iff.rfl)).add_pos hb (by decide)
  · exact h.pairs.apart hb (fun _ => id) (Finset.Subset.refl _) (Finset.Subset.refl _)
      fun _ => id
  · simp [Share.add, hr]

omit [DecidableEq P] [Fintype P] in
theorem first_some {n : ℕ} {f : Fin n → Bool} {i : Fin n} (h : first f = some i) : f i = true :=
  List.find?_some h

omit [DecidableEq P] [Fintype P] in
theorem first_none {n : ℕ} {f : Fin n → Bool} (h : first f = none) (i : Fin n) : ¬ f i = true :=
  List.find?_eq_none.mp h i (List.mem_finRange i)

omit [DecidableEq P] [Fintype P] in
theorem iget_cases {n : ℕ} (he : s.iget n = .ret (ip, s')) :
    (0 < (s.inode ip).ref ∧ (s.inode ip).inum = n ∧
      s' = s.setInode ip fun x => { x with ref := x.ref + 1 }) ∨
    ((s.inode ip).ref = 0 ∧ (∀ j, 0 < (s.inode j).ref → (s.inode j).inum ≠ n) ∧
      s' = s.setInode ip fun x => { x with inum := n, ref := 1, valid := false }) := by
  unfold State.iget at he
  split at he
  · rename_i jp hj
    obtain ⟨rfl, rfl⟩ := Outcome.ret_inj he
    have hfound := of_decide_eq_true (first_some hj)
    exact Or.inl ⟨hfound.1, hfound.2, rfl⟩
  · rename_i hnone
    split at he
    · rename_i jp hj
      obtain ⟨rfl, rfl⟩ := Outcome.ret_inj he
      exact Or.inr ⟨of_decide_eq_true (first_some hj),
        fun j hj hn => first_none hnone j (decide_eq_true ⟨hj, hn⟩), rfl⟩
    · cases he

omit [DecidableEq P] [Fintype P] in
theorem dirlookup_cases {dp : Slot} {name : Name} {r : Option (Slot × ℕ)}
    (he : s.dirlookup dp name = .ret (r, s')) :
    r = none ∧ s' = s ∨ ∃ ip off n, r = some (ip, off) ∧ s.iget n = .ret (ip, s') := by
  simp only [State.dirlookup] at he
  split_ifs at he
  obtain ⟨o, -, he⟩ := Outcome.bind_eq_ret.mp he
  cases o with
  | none =>
    obtain ⟨rfl, rfl⟩ := Outcome.ret_inj he
    exact Or.inl ⟨rfl, rfl⟩
  | some off =>
    obtain ⟨⟨ip, t⟩, hget, he⟩ := Outcome.bind_eq_ret.mp he
    obtain ⟨rfl, rfl⟩ := Outcome.ret_inj he
    exact Or.inr ⟨ip, off, _, rfl, hget⟩

theorem Inv.iget {n : ℕ} (h : Inv s ls) (hb : (ls p).busy = true)
    (he : s.iget n = .ret (ip, s')) :
    (s'.inode ip).inum = n ∧ Inv s' (Function.update ls p ((ls p).add (.inode ip) 1)) := by
  rcases iget_cases he with ⟨hr, hn, rfl⟩ | ⟨hr, hno, rfl⟩
  · rw [State.setInode_self]
    exact ⟨hn, h.addRef hb hr⟩
  · rw [State.setInode_self]
    exact ⟨rfl, h.recycle hb hr hno⟩

theorem Inv.reshare (h : Inv s (Function.update ls p l)) (hp : Fits s p l')
    (hbal : l'.bal = l.bal) (hb : l'.busy = true)
    (hsole : ∀ ip, l'.sole = some ip → l.sole = some ip) (hseen : l'.seen ⊆ l.seen)
    (hblank : l'.blank ⊆ l.blank) (hchild : ∀ c, l'.child = some c → l.child = some c) :
    Inv s (Function.update ls p l') := by
  have : Inv s (Function.update (Function.update ls p l) p l') := h.share hp (by rw [Function.update_self]; exact hbal)
    (h.pairs.apart hb (by rwa [Function.update_self]) (by rwa [Function.update_self])
      (by rwa [Function.update_self]) (by rwa [Function.update_self]))
  rwa [Function.update_idem] at this

theorem Inv.iget_post {n : ℕ} (h : Inv s ls) (hb : (ls p).busy = true)
    (he : s.iget n = .ret (ip, s')) : ∃ l, post (.iget n) (ls p) ip l ∧
      Inv s' (Function.update ls p l) := by
  obtain ⟨hn, hi⟩ := h.iget hb he
  refine ⟨_, rfl, ?_⟩
  split_ifs with hf
  · have hfit := hi.fits p
    rw [Function.update_self] at hfit
    have hone : 1 ≤ ((ls p).add (.inode ip) 1).has (.inode ip) := by
      have := (h.fits p).nonneg (.inode ip)
      rw [Share.has_add_self, (h.fits p).has_eq hb]
      omega
    exact hi.reshare (hfit.made (by rw [hn]; exact hf) hone) rfl hb (fun _ => id)
      (Finset.Subset.refl _) (Finset.Subset.refl _) fun _ => id
  · exact hi

end Iget

section Locks

omit [DecidableEq P] [Fintype P] in
theorem Fits.relock {o : Option P} {h' : Finset Slot} (ld : Finset Slot) (h : Fits s p l)
    (hheld : ∀ jp, ((if jp = ip then o else (s.inode jp).lock) = some p ↔ jp ∈ h'))
    (hload : ∀ jp ∈ ld, jp ∈ l.loaded ∧ jp ∈ h')
    (hsole : ∀ jp, l.sole = some jp → jp ∈ h') (hb : l.busy = true) :
    Fits (s.setInode ip fun x => { x with lock := o }) p { l with held := h', loaded := ld } := by
  have hsame : ∀ jp, ((s.setInode ip fun x => { x with lock := o }).inode jp).inum =
      (s.inode jp).inum ∧ ((s.setInode ip fun x => { x with lock := o }).inode jp).valid =
      (s.inode jp).valid := by
    intro jp
    by_cases hj : jp = ip
    · subst hj
      rw [State.setInode_self]
      exact ⟨rfl, rfl⟩
    · rw [State.setInode_ne _ _ hj]
      exact ⟨rfl, rfl⟩
  have halloc : ∀ jp, (s.setInode ip fun x => { x with lock := o }).Alloc jp ↔ s.Alloc jp :=
    fun jp => alloc_setInode fun _ => rfl
  refine
    { h with
      rest := fun hr => absurd hr (ne_false_of_eq_true hb)
      held := fun jp => ?_
      loaded := fun jp hj => ?_
      seen := fun jp hj => ⟨(h.seen jp hj).1, (halloc jp).mpr (h.seen jp hj).2⟩
      sole := fun jp hj => ⟨hsole jp hj, (h.sole jp hj).2⟩
      new := fun jp hj => ?_ }
  · rw [← hheld jp]
    by_cases hj : jp = ip
    · subst hj
      rw [State.setInode_self, if_pos rfl]
    · rw [State.setInode_ne _ _ hj, if_neg hj]
  · obtain ⟨h1, h2, h3⟩ := h.loaded jp (hload jp hj).1
    refine ⟨(hload jp hj).2, ?_, h3⟩
    rw [(hsame jp).2]
    exact h2
  · rw [(hsame jp).1]
    exact h.new jp hj

theorem Inv.acquiresleep (h : Inv s ls) (hh : (ls p).Holds ip) (hl : (s.inode ip).lock = none) :
    ip ∉ (ls p).held ∧ Inv (s.setInode ip fun x => { x with lock := some p })
      (Function.update ls p { ls p with held := insert ip (ls p).held }) := by
  have hb := (h.fits p).busy_of_holds hh
  have hnot : ∀ q, ip ∉ (ls q).held := fun q hq => by
    have := ((h.fits q).held ip).mpr hq
    rw [hl] at this
    cases this
  refine ⟨hnot p, h.slot (g := fun x => { x with lock := some p }) ⟨fun _ => rfl, fun _ => id⟩
    (fun q hq => ?_) (fun j hj hi hj0 heq => hj (h.tables.unique j ip hj0 hi heq.symm))
    (h.tables.cached ip) ?_ ?_ (by simp)⟩
  · rw [hl]
    simp [Ne.symm hq]
  · refine (h.fits p).relock (ls p).loaded (fun jp => ?_)
      (fun jp hj => ⟨hj, Finset.mem_insert_of_mem ((h.fits p).loaded jp hj).1⟩)
      (fun jp hj => Finset.mem_insert_of_mem ((h.fits p).sole jp hj).1) hb
    by_cases hj : jp = ip
    · simp [hj]
    · rw [if_neg hj, (h.fits p).held jp, Finset.mem_insert, or_iff_right hj]
  · exact h.pairs.apart hb (fun _ => id) (Finset.Subset.refl _) (Finset.Subset.refl _)
      fun _ => id

theorem Inv.releasesleep (h : Inv s ls) (hh : ip ∈ (ls p).held) (hs : (ls p).sole = none) :
    Inv (s.setInode ip fun x => { x with lock := none })
      (Function.update ls p
        { ls p with held := (ls p).held.erase ip, loaded := (ls p).loaded.erase ip }) := by
  have hb := (h.fits p).busy_of_held hh
  have hlock := ((h.fits p).held ip).mpr hh
  refine h.slot (g := fun x => { x with lock := none }) ⟨fun _ => rfl, fun _ => id⟩
    (fun q hq => ?_) (fun j hj hi hj0 heq => hj (h.tables.unique j ip hj0 hi heq.symm))
    (h.tables.cached ip) ?_ ?_ (by simp)
  · rw [hlock]
    simp [Ne.symm hq]
  · refine (h.fits p).relock _ (fun jp => ?_) (fun jp hj => ?_) (fun jp hj => ?_) hb
    · by_cases hj : jp = ip
      · simp [hj]
      · rw [if_neg hj, (h.fits p).held jp, Finset.mem_erase, and_iff_right hj]
    · have hj' := Finset.mem_of_mem_erase hj
      exact ⟨hj', Finset.mem_erase.mpr ⟨Finset.ne_of_mem_erase hj, ((h.fits p).loaded jp hj').1⟩⟩
    · rw [hs] at hj
      cases hj
  · exact h.pairs.apart hb (fun _ => id) (Finset.Subset.refl _) (Finset.Subset.refl _)
      fun _ => id

omit [DecidableEq P] [Fintype P] in
theorem Fits.load (h : Fits s p l) (hh : ip ∈ l.held) (hH : l.Holds ip)
    (hv : (s.inode ip).valid = true) (ha : s.Alloc ip) :
    Fits s p { l with loaded := insert ip l.loaded, seen := insert ip l.seen } :=
  { h with
    rest := fun hr => absurd ((h.busy_of_held hh).symm.trans hr) nofun
    loaded := fun jp hj => by
      rcases Finset.mem_insert.mp hj with rfl | hj
      · exact ⟨hh, hv, hH⟩
      · exact h.loaded jp hj
    seen := fun jp hj => by
      rcases Finset.mem_insert.mp hj with rfl | hj
      · exact ⟨hH, ha⟩
      · exact h.seen jp hj }

omit [DecidableEq P] in
theorem Inv.sole_ne (h : Inv s ls) (hh : ip ∈ (ls p).held) (hq : q ≠ p) :
    (ls q).sole ≠ some ip := by
  intro hs
  have h1 := ((h.fits q).held ip).mpr ((h.fits q).sole ip hs).1
  have h2 := ((h.fits p).held ip).mpr hh
  exact hq (Option.some.inj (h1.symm.trans h2))

omit [Fintype P] [DecidableEq P] in
theorem Apart.insert_seen (h : Apart s ls p l) (hi : ∀ q ≠ p, (ls q).sole ≠ some ip)
    (hb : l'.busy = true) (hsole : l'.sole = l.sole) (hseen : l'.seen = insert ip l.seen)
    (hblank : l'.blank ⊆ l.blank) (hchild : l'.child = l.child) : Apart s ls p l' where
  home hr := absurd hr (ne_false_of_eq_true hb)
  sole jp hj := h.sole jp (hsole ▸ hj)
  seen jp hj q hq := by
    rw [hseen] at hj
    rcases Finset.mem_insert.mp hj with rfl | hj
    · exact hi q hq
    · exact h.seen jp hj q hq
  blank f hf := h.blank f (hblank hf)
  child c hc := h.child c (hchild ▸ hc)

theorem Inv.load (h : Inv s ls) (hh : ip ∈ (ls p).held) (hH : (ls p).Holds ip)
    (he : s.load ip = .ret ((), s')) : Inv s' (Function.update ls p
      { ls p with loaded := insert ip (ls p).loaded, seen := insert ip (ls p).seen }) := by
  have hb := (h.fits p).busy_of_held hh
  have hr := h.ref_pos hH
  have hapart : Apart s ls p
      { ls p with loaded := insert ip (ls p).loaded, seen := insert ip (ls p).seen } :=
    (h.pairs.apart_self hb).insert_seen (fun q hq => h.sole_ne hh hq) hb rfl rfl
      (Finset.Subset.refl _) rfl
  simp only [State.load] at he
  split_ifs at he with hv htype
  · obtain rfl := (Outcome.ret_inj he).2
    exact h.share ((h.fits p).load hh hH hv (h.tables.cached ip hr hv).2) rfl hapart
  · obtain rfl := (Outcome.ret_inj he).2
    refine h.slot
      (g := fun x => { x with copy := s.disk (s.inode ip).inum, valid := true })
      ⟨fun _ => rfl, fun _ _ => rfl⟩ (fun q _ => Iff.rfl)
      (fun j hj hi hj0 heq => hj (h.tables.unique j ip hj0 hi heq.symm))
      (fun _ _ => ⟨rfl, htype⟩) ?_ hapart (by simp)
    refine ((h.fits p).frame (h.frame_slot ⟨fun _ => rfl, fun _ _ => rfl⟩ Iff.rfl)).load hh hH ?_ ?_
    · rw [State.setInode_self]
    · exact (alloc_setInode fun _ => rfl).mpr htype

end Locks

section Iput

theorem Inv.lastRef (h : Inv s ls) {last : Bool} (hh : ip ∈ (ls p).held)
    (hH : 1 ≤ (ls p).has (.inode ip))
    (hlast : last = true → (s.inode ip).ref = 1) :
    (last = true → (ls p).has (.inode ip) ≤ 1) ∧
      Inv s (Function.update ls p
        (if last then { ls p with sole := some ip } else { ls p with lame := some ip })) := by
  have hb := (h.fits p).busy_of_held hh
  have hfit := h.fits p
  have hcount := h.count_ge p hH
  have hfiles := files_nonneg s (.inode ip)
  simp only [State.count] at hcount
  refine ⟨fun ht => by have := hlast ht; omega, ?_⟩
  cases last with
  | false =>
    refine h.share ?_ rfl (h.pairs.apart hb (fun _ => id) (Finset.Subset.refl _)
      (Finset.Subset.refl _) fun _ => id)
    exact
      { hfit with
        rest := fun hr => absurd hr (ne_false_of_eq_true hb)
        lame := fun jp hj => by
          obtain rfl := Option.some.inj hj
          exact hH }
  | true =>
    have hone := hlast rfl
    have hzero : s.files (.inode ip) = 0 := by omega
    have hother : ∀ q ≠ p, (s.proc q).assets (.inode ip) + (ls q).bal (.inode ip) ≤ 0 := by
      intro q hq
      have h1 := h.due_ge_two (k := .inode ip) (Ne.symm hq)
      have h2 := h.balance (.inode ip)
      rw [hfit.has_eq hb] at hH
      simp only [State.count] at h2
      omega
    refine h.share ?_ rfl ⟨(h.pairs.apart_self hb).home, fun jp hj q hq => ?_, fun jp hj q hq =>
      (h.pairs.apart_self hb).seen jp hj q hq, (h.pairs.apart_self hb).blank,
      (h.pairs.apart_self hb).child⟩
    · exact
        { hfit with
          rest := fun hr => absurd hr (ne_false_of_eq_true hb)
          sole := fun jp hj => by
            obtain rfl := Option.some.inj hj
            exact ⟨hh, hH, hzero⟩ }
    · obtain rfl := Option.some.inj hj
      refine ⟨fun hseen => ?_, fun hbq hc => ?_⟩
      · rcases ((h.fits q).seen ip hseen).1 with hhas | ⟨f, hv⟩
        · rw [(h.fits q).has_eq ((h.fits q).busy_of_has hhas)] at hhas
          have := hother q hq
          omega
        · have := files_pos ((h.fits q).via f ip hv).1
          omega
      · have := hother q hq
        rw [(h.fits q).rest hbq] at this
        simp [Proc.assets, hc, Share.empty] at this

omit [DecidableEq P] [Fintype P] in
theorem Share.drop_seen (l : Share P) (ip : Slot) : (l.drop ip).seen ⊆ l.seen := by
  simp only [Share.drop]
  split_ifs
  · exact Finset.Subset.refl _
  · exact Finset.erase_subset _ _

omit [DecidableEq P] [Fintype P] in
theorem Fits.drop (h : Fits s p l) (hH : 1 ≤ l.has (.inode ip)) (hh : ip ∉ l.held)
    (hnew : l.new = none) :
    Fits s p (l.drop ip) := by
  have hb := h.busy_of_has hH
  have hne : ∀ {jp : Slot}, jp ≠ ip →
      (l.add (.inode ip) (-1)).has (.inode jp) = l.has (.inode jp) := fun hj => by
    rw [Share.has_add, if_neg (by simpa using hj), add_zero]
  have hfile : ∀ f, (l.add (.inode ip) (-1)).has (.file f) = l.has (.file f) := fun f => by
    rw [Share.has_add, if_neg (by simp), add_zero]
  refine
    { h with
      rest := fun hr => absurd hr (ne_false_of_eq_true hb)
      nonneg := fun k => ?_
      loaded := fun jp hj => ?_
      seen := fun jp hj => ?_
      lame := nofun
      sole := fun jp hj => ?_
      blank := fun f hf => ?_
      via := fun f jp hv => ?_
      new := fun jp hj => absurd (hnew.symm.trans hj) nofun }
  · have h1 := h.nonneg k
    have h2 := h.has_eq hb k
    simp only [Share.drop, Share.add, Pi.add_apply, Pi.single_apply]
    split_ifs with hk
    · rw [hk] at h1 h2 ⊢
      omega
    · omega
  · obtain ⟨h1, h2, h3⟩ := h.loaded jp hj
    have hji : jp ≠ ip := fun heq => hh (heq ▸ h1)
    exact ⟨h1, h2, h3.imp_left fun h3 => h3.trans_eq (hne hji).symm⟩
  · have hmem : jp ∈ l.seen := by
      simp only [Share.drop] at hj
      split_ifs at hj
      · exact hj
      · exact Finset.mem_of_mem_erase hj
    refine ⟨?_, (h.seen jp hmem).2⟩
    by_cases hji : jp = ip
    · subst hji
      simp only [Share.drop] at hj
      split_ifs at hj with hone
      · refine Or.inl (le_trans ?_ (Share.has_add_self l _ _).ge)
        omega
      · exact absurd rfl (Finset.ne_of_mem_erase hj)
    · exact (h.seen jp hmem).1.imp_left fun h3 => h3.trans_eq (hne hji).symm
  · obtain ⟨h1, h2, h3⟩ := h.sole jp hj
    have hji : jp ≠ ip := fun heq => hh (heq ▸ h1)
    exact ⟨h1, h2.trans_eq (hne hji).symm, h3⟩
  · exact ⟨(h.blank f hf).1, (h.blank f hf).2.1, (h.blank f hf).2.2.trans_eq (hfile f).symm⟩
  · exact ⟨(h.via f jp hv).1, (h.via f jp hv).2.trans_eq (hfile f).symm⟩

theorem Inv.unref (h : Inv s ls) (hH : 1 ≤ (ls p).has (.inode ip)) (hh : ip ∉ (ls p).held)
    (hnew : (ls p).new = none) :
    Inv (s.setInode ip fun x => { x with ref := x.ref - 1 })
      (Function.update ls p ((ls p).drop ip)) := by
  have hb := (h.fits p).busy_of_has hH
  have hr := h.ref_pos (.of_has hH)
  have hkeep : Keep (s.inode ip) { s.inode ip with ref := (s.inode ip).ref - 1 } :=
    ⟨fun _ => rfl, fun _ => id⟩
  refine h.slot (g := fun x => { x with ref := x.ref - 1 }) hkeep (fun q _ => Iff.rfl)
    (fun j hj _ hj0 heq => hj (h.tables.unique j ip hj0 hr heq.symm))
    (fun _ hv => h.tables.cached ip hr hv) ?_ ?_ ?_
  · exact ((h.fits p).frame (h.frame_slot hkeep Iff.rfl)).drop hH hh hnew
  · exact h.pairs.apart hb (fun _ => id) (Share.drop_seen _ _) (Finset.Subset.refl _) fun _ => id
  · simp only [Share.drop, Share.add]
    congr 2
    omega

end Iput

end Xv6.Fs
