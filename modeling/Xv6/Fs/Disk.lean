import Xv6.Fs.Cache

/-!
# Operations on inodes

A process that has locked and loaded an inode may change its fields and contents; `ialloc`
takes an inode that is free on disk, and `iput` frees one to which nobody has a reference.
-/

namespace Xv6.Fs
open Lib

variable {P : Type} {s s' : State P} {p q : P} {l l' : Share P} {ls : P → Share P}
  {ip jp : Slot} {f : FileId} {k : Key} {g : Dinode → Dinode}

theorem Frame.refl (s : State P) (q : P) (l : Share P) : Frame s s q l :=
  ⟨fun _ => rfl, fun _ => le_rfl, fun _ _ => rfl, fun _ => Iff.rfl, fun _ _ => rfl,
    fun _ _ _ => id, fun _ _ => id, fun _ _ => ⟨rfl, rfl⟩, fun _ _ => rfl, fun _ _ => id, rfl⟩

section Update

theorem update_inode (s : State P) (ip jp : Slot) (g : Dinode → Dinode) :
    ((s.update ip g).inode jp).inum = (s.inode jp).inum ∧
    ((s.update ip g).inode jp).ref = (s.inode jp).ref ∧
    ((s.update ip g).inode jp).lock = (s.inode jp).lock ∧
    ((s.update ip g).inode jp).valid = (s.inode jp).valid := by
  by_cases hj : jp = ip
  · subst hj
    simp [State.update]
  · simp [State.update, State.setInode_ne _ _ hj]

theorem update_copy_self (s : State P) (ip : Slot) (g : Dinode → Dinode) :
    ((s.update ip g).inode ip).copy = g (s.inode ip).copy := by
  simp [State.update]

theorem update_copy_ne (h : jp ≠ ip) : ((s.update ip g).inode jp).copy = (s.inode jp).copy := by
  simp [State.update, State.setInode_ne _ _ h]

theorem update_disk_self (s : State P) (ip : Slot) (g : Dinode → Dinode) :
    (s.update ip g).disk (s.inode ip).inum = g (s.inode ip).copy := Function.update_self ..

theorem update_disk_ne {n : ℕ} (h : n ≠ (s.inode ip).inum) :
    (s.update ip g).disk n = s.disk n := Function.update_of_ne h ..

theorem alloc_update (hg : (g (s.inode ip).copy).type ≠ .free) (ha : s.Alloc jp) :
    (s.update ip g).Alloc jp := by
  unfold State.Alloc
  rw [(update_inode s ip jp g).1]
  by_cases hj : (s.inode jp).inum = (s.inode ip).inum
  · rw [hj, update_disk_self]
    exact hg
  · rw [update_disk_ne hj]
    exact ha

theorem count_update (k : Key) : (s.update ip g).count k = s.count k := by
  cases k with
  | inode jp => simp [State.count, (update_inode s ip jp g).2.1]
  | file f => rfl
  | pipeEnd a w => cases w <;> rfl
  | page a => rfl

end Update

variable [Fintype P]

theorem Inv.state (h : Inv s ls) (hf : ∀ q, Frame s s' q (ls q)) (hproc : s'.proc = s.proc)
    (hcount : ∀ k, s'.count k - s'.files k = s.count k - s.files k) (ht : Tables s')
    (halloc : ∀ q ip, (ls q).busy = false → (s.proc q).cwd = some ip → s'.Alloc ip) :
    Inv s' ls where
  fits q := (h.fits q).frame (hf q)
  balance k := by
    have h1 := h.balance k
    have h2 := hcount k
    have h3 : due s' ls k = due s ls k := by
      unfold due
      rw [hproc]
    omega
  tables := ht
  pairs := ⟨fun q q' ip hq hs => by rw [hproc]; exact h.pairs.sole q q' ip hq hs, h.pairs.blank,
    h.pairs.child, fun q ip hb hc => halloc q ip hb (by rwa [hproc] at hc)⟩

theorem Inv.data (h : Inv s ls) (m : ℕ → Bytes) : Inv { s with data := m } ls :=
  h.state (fun q => { Frame.refl s q (ls q) with }) rfl (fun _ => rfl)
    { h.tables with } h.pairs.home

theorem Inv.update (h : Inv s ls) (hl : ip ∈ (ls p).loaded)
    (hg : (g (s.inode ip).copy).type = (s.inode ip).copy.type) : Inv (s.update ip g) ls := by
  obtain ⟨-, hv, hH⟩ := (h.fits p).loaded ip hl
  have hr := h.ref_pos hH
  obtain ⟨hcopy, halloc⟩ := h.tables.cached ip hr hv
  have htype : (g (s.inode ip).copy).type ≠ .free := by
    rw [hg, hcopy]
    exact halloc
  refine h.state (fun q => ?_) rfl (fun k => ?_) ?_ fun q jp hb hc =>
    alloc_update htype (h.pairs.home q jp hb hc)
  · exact
      { Frame.refl s q (ls q) with
        lock := fun jp => by rw [(update_inode s ip jp g).2.2.1]
        inum := fun jp _ => (update_inode s ip jp g).1
        valid := fun jp _ _ hv => by rwa [(update_inode s ip jp g).2.2.2]
        alloc := fun jp _ => alloc_update htype }
  · rw [count_update]
    rfl
  · refine
      { h.tables with
        unique := fun i j hi hj hij => ?_
        cached := fun jp hj hv => ?_
        opened := fun f hf => alloc_update htype (h.tables.opened f hf) }
    · rw [(update_inode s ip i g).2.1] at hi
      rw [(update_inode s ip j g).2.1] at hj
      rw [(update_inode s ip i g).1, (update_inode s ip j g).1] at hij
      exact h.tables.unique i j hi hj hij
    · rw [(update_inode s ip jp g).2.1] at hj
      rw [(update_inode s ip jp g).2.2.2] at hv
      have hold := h.tables.cached jp hj hv
      refine ⟨?_, alloc_update htype hold.2⟩
      rw [(update_inode s ip jp g).1]
      by_cases hji : jp = ip
      · subst hji
        rw [update_copy_self, update_disk_self]
      · rw [update_copy_ne hji, update_disk_ne fun heq => hji (h.tables.unique jp ip hj hr heq)]
        exact hold.1

variable [DecidableEq P]

theorem Inv.setup (h : Inv s ls) {major minor : ℤ} (hl : ip ∈ (ls p).loaded) :
    Inv (s.update ip fun d => { d with major := major, minor := minor, nlink := 1 })
      (Function.update ls p { ls p with fresh := none, new := none }) := by
  have hu := h.update (g := fun d => { d with major := major, minor := minor, nlink := 1 }) hl rfl
  rw [← Function.update_eq_self p ls] at hu
  have hfit := hu.fits p
  rw [Function.update_self] at hfit
  have hb := (h.fits p).busy_of_held ((h.fits p).loaded ip hl).1
  refine hu.reshare ?_ rfl hb (fun _ => id) (Finset.Subset.refl _) (Finset.Subset.refl _)
    fun _ => id
  exact { hfit with rest := fun hr => absurd hr (ne_false_of_eq_true hb), new := nofun }

omit [DecidableEq P] in
theorem Inv.writeData (h : Inv s ls) (off : ℕ) (src : List UInt8) (hl : ip ∈ (ls p).loaded) :
    Inv (s.writeData ip off src).2 ls := by
  simp only [State.writeData]
  split_ifs
  · exact h
  · exact (h.data _).update (g := fun d => { d with size := off + src.length }) hl rfl
  · exact h.data _

theorem Inv.ialloc (h : Inv s ls) {N n m : ℕ} {type : IType} (htype : type ≠ .free)
    (hb : (ls p).busy = true) (hfresh : (ls p).fresh = none)
    (he : s.ialloc N n type = .ret (m, s')) :
    Inv s' (Function.update ls p { ls p with fresh := some m }) := by
  unfold State.ialloc at he
  split_ifs at he with h1 h2
  obtain ⟨rfl, rfl⟩ := Outcome.ret_inj he
  have hkeep : ∀ jp, s.Alloc jp →
      State.Alloc { s with disk := Function.update s.disk n ⟨type, 0, 0, 0, 0⟩ } jp := by
    intro jp ha
    unfold State.Alloc
    dsimp only
    by_cases hj : (s.inode jp).inum = n
    · rw [hj, Function.update_self]
      exact htype
    · rw [Function.update_of_ne hj]
      exact ha
  have hs : Inv { s with disk := Function.update s.disk n ⟨type, 0, 0, 0, 0⟩ } ls := by
    refine h.state (fun q => { Frame.refl s q (ls q) with alloc := fun jp _ => hkeep jp }) rfl
      (fun _ => rfl) ?_ fun q jp hbq hc => hkeep jp (h.pairs.home q jp hbq hc)
    refine
      { h.tables with
        cached := fun jp hj hv => ?_
        opened := fun f hf => hkeep _ (h.tables.opened f hf) }
    have hold := h.tables.cached jp hj hv
    refine ⟨?_, hkeep jp hold.2⟩
    have hne : (s.inode jp).inum ≠ n := fun heq => hold.2 (heq ▸ h2.2.2)
    dsimp only
    rw [Function.update_of_ne hne]
    exact hold.1
  rw [← Function.update_eq_self p ls] at hs
  have hfit := hs.fits p
  rw [Function.update_self] at hfit
  refine hs.reshare ?_ rfl hb (fun _ => id) (Finset.Subset.refl _) (Finset.Subset.refl _)
    fun _ => id
  exact
    { hfit with
      rest := fun hr => absurd hr (ne_false_of_eq_true hb)
      new := fun jp hj => by
        have := ((h.fits p).new jp hj).1
        rw [hfresh] at this
        exact absurd this nofun }

section Ifree

omit [Fintype P] [DecidableEq P] in
theorem ifree_inode (s : State P) (ip jp : Slot) :
    ((s.ifree ip).inode jp).inum = (s.inode jp).inum ∧
    ((s.ifree ip).inode jp).ref = (s.inode jp).ref ∧
    ((s.ifree ip).inode jp).lock = (s.inode jp).lock ∧
    (jp ≠ ip → ((s.ifree ip).inode jp).valid = (s.inode jp).valid ∧
      ((s.ifree ip).inode jp).copy = (s.inode jp).copy) := by
  have hu := update_inode s ip jp fun d => { d with size := 0, type := .free }
  unfold State.ifree
  by_cases hj : jp = ip
  · subst hj
    rw [State.setInode_self]
    exact ⟨hu.1, hu.2.1, hu.2.2.1, fun h => absurd rfl h⟩
  · rw [State.setInode_ne _ _ hj]
    exact ⟨hu.1, hu.2.1, hu.2.2.1, fun _ => ⟨hu.2.2.2, update_copy_ne hj⟩⟩

omit [Fintype P] [DecidableEq P] in
theorem ifree_disk_self (s : State P) (ip : Slot) : (s.ifree ip).disk (s.inode ip).inum =
    { (s.inode ip).copy with size := 0, type := .free } := Function.update_self ..

omit [Fintype P] [DecidableEq P] in
theorem ifree_disk {n : ℕ} (h : n ≠ (s.inode ip).inum) : (s.ifree ip).disk n = s.disk n :=
  update_disk_ne (g := fun d => { d with size := 0, type := .free }) h

theorem Inv.ifree (h : Inv s ls) (hs : (ls p).sole = some ip) :
    Inv (s.ifree ip) (Function.update ls p
      { ls p with sole := none, lame := some ip, loaded := (ls p).loaded.erase ip,
                  seen := (ls p).seen.erase ip }) := by
  obtain ⟨hheld, hH, hfiles⟩ := (h.fits p).sole ip hs
  have hb := (h.fits p).busy_of_held hheld
  have hr := h.ref_pos (.of_has hH)
  have hne : ∀ jp, 0 < (s.inode jp).ref → jp ≠ ip → (s.inode jp).inum ≠ (s.inode ip).inum :=
    fun jp hj hji heq => hji (h.tables.unique jp ip hj hr heq)
  have halloc : ∀ jp, 0 < (s.inode jp).ref → jp ≠ ip → s.Alloc jp → (s.ifree ip).Alloc jp := by
    intro jp hj hji ha
    unfold State.Alloc
    rw [(ifree_inode s ip jp).1, ifree_disk (hne jp hj hji)]
    exact ha
  refine h.step_of rfl ?_ (fun q hq => ?_) (d := 0) (by simp) (fun k => ?_) ?_ ?_
    fun q hq jp hbq hc => ?_
  · refine
      { h.fits p with
        rest := fun hr => absurd hr (ne_false_of_eq_true hb)
        held := fun jp => by rw [(ifree_inode s ip jp).2.2.1]; exact (h.fits p).held jp
        loaded := fun jp hj => ?_
        seen := fun jp hj => ?_
        lame := fun jp hj => Option.some.inj hj ▸ hH
        sole := fun jp hj => by cases hj
        new := fun jp hj => by rw [(ifree_inode s ip jp).1]; exact (h.fits p).new jp hj }
    · obtain ⟨h1, h2, h3⟩ := (h.fits p).loaded jp (Finset.mem_of_mem_erase hj)
      exact ⟨h1, by rw [((ifree_inode s ip jp).2.2.2 (Finset.ne_of_mem_erase hj)).1]; exact h2, h3⟩
    · obtain ⟨h1, h2⟩ := (h.fits p).seen jp (Finset.mem_of_mem_erase hj)
      exact ⟨h1, halloc jp (h.ref_pos h1) (Finset.ne_of_mem_erase hj) h2⟩
  · refine
      { Frame.refl s q (ls q) with
        lock := fun jp => by rw [(ifree_inode s ip jp).2.2.1]
        inum := fun jp _ => (ifree_inode s ip jp).1
        valid := fun jp hj _ hv => ?_
        alloc := fun jp hj ha => ?_ }
    · have hji : jp ≠ ip := by
        rintro rfl
        have h1 := ((h.fits q).held jp).mpr hj
        have h2 := ((h.fits p).held jp).mpr hheld
        exact hq (Option.some.inj (h1.symm.trans h2))
      rw [((ifree_inode s ip jp).2.2.2 hji).1]
      exact hv
    · refine halloc jp (h.ref_pos ((h.fits q).seen jp hj).1) ?_ ha
      rintro rfl
      exact (h.pairs.sole p q jp hq hs).1 hj
  · have : (s.ifree ip).count k = s.count k := by
      cases k with
      | inode jp => simp [State.count, (ifree_inode s ip jp).2.1]
      | file f => rfl
      | pipeEnd a w => cases w <;> rfl
      | page a => rfl
    rw [this]
    exact (add_zero _).symm
  · refine
      { h.tables with
        unique := fun i j hi hj hij => ?_
        cached := fun jp hj hv => ?_
        opened := fun f hf => ?_ }
    · rw [(ifree_inode s ip i).2.1] at hi
      rw [(ifree_inode s ip j).2.1] at hj
      rw [(ifree_inode s ip i).1, (ifree_inode s ip j).1] at hij
      exact h.tables.unique i j hi hj hij
    · have hji : jp ≠ ip := by
        rintro rfl
        rw [State.ifree, State.setInode_self] at hv
        cases hv
      rw [(ifree_inode s ip jp).2.1] at hj
      obtain ⟨h1, h2⟩ := (ifree_inode s ip jp).2.2.2 hji
      rw [h1] at hv
      have hold := h.tables.cached jp hj hv
      rw [h2, (ifree_inode s ip jp).1, ifree_disk (hne jp hj hji)]
      exact ⟨hold.1, halloc jp hj hji hold.2⟩
    · refine halloc _ (h.ref_pos_of_file hf) ?_ (h.tables.opened f hf)
      intro heq
      have := files_pos (s := s) (f := f) (k := .inode ip) ⟨hf, heq⟩
      omega
  · exact h.pairs.apart hb (fun jp hj => by cases hj) (Finset.erase_subset _ _)
      (Finset.Subset.refl _) fun _ => id
  · refine halloc jp (h.ref_pos_of_cwd hbq hc) ?_ (h.pairs.home q jp hbq hc)
    rintro rfl
    exact (h.pairs.sole p q jp hq hs).2 hbq hc

end Ifree

end Xv6.Fs
