import Xv6.Fs.Disk

/-!
# Operations on files and pipes

A file is opened by the process that has just allocated it, and what it holds then passes
from the hands of that process to the file; the last `fileclose` hands it back.
-/

namespace Xv6.Fs
open Lib

variable {P : Type} {s s' : State P} {p q : P} {l l' : Share P} {ls : P → Share P}
  {ip jp : Slot} {f : FileId} {k : Key} {g : File → File}

namespace State

@[simp] theorem setFile_self (s : State P) (f : FileId) (g : File → File) :
    (s.setFile f g).file f = g (s.file f) := Function.update_self ..

theorem setFile_ne {f' : FileId} (s : State P) (g : File → File) (h : f' ≠ f) :
    (s.setFile f g).file f' = s.file f' := Function.update_of_ne h ..

theorem files_setFile (s : State P) (f : FileId) (g : File → File) (k : Key) :
    (s.setFile f g).files k = s.files k - (if (s.file f).holds k then 1 else 0) +
      if (g (s.file f)).holds k then 1 else 0 :=
  card_filter_update s.file f _ fun x => x.holds k

theorem count_setFile (s : State P) (f : FileId) (g : File → File) (k : Key) :
    (s.setFile f g).count k = s.count k +
      if k = .file f then ((g (s.file f)).ref : ℤ) - (s.file f).ref else 0 := by
  cases k with
  | file f' =>
    by_cases hf : f' = f
    · subst hf
      simp only [count, setFile_self, if_pos]
      omega
    · rw [if_neg (by simpa using hf), add_zero]
      simp only [count, setFile_ne s g hf]
  | inode ip => exact (add_zero _).symm
  | pipeEnd a w => cases w <;> exact (add_zero _).symm
  | page a => exact (add_zero _).symm

end State

theorem Fits.setFile (h : Fits s p l)
    (hblank : f ∈ l.blank → (g (s.file f)).type = .none ∧ (g (s.file f)).ref = 1)
    (hvia : ∀ ip, l.via = some (f, ip) → (g (s.file f)).holds (.inode ip))
    (hsole : ∀ ip, l.sole = some ip → ¬ (g (s.file f)).holds (.inode ip)) :
    Fits (s.setFile f g) p l :=
  { h with
    sole := fun ip hs => by
      obtain ⟨h1, h2, h3⟩ := h.sole ip hs
      refine ⟨h1, h2, ?_⟩
      have hold : ¬ (s.file f).holds (.inode ip) := fun hh => by
        have := files_pos hh
        omega
      rw [State.files_setFile, if_neg hold, if_neg (hsole ip hs)]
      omega
    blank := fun f' hf => by
      by_cases hff : f' = f
      · subst hff
        rw [State.setFile_self]
        exact ⟨(hblank hf).1, (hblank hf).2, (h.blank f' hf).2.2⟩
      · rw [State.setFile_ne s g hff]
        exact h.blank f' hf
    via := fun f' ip hv => by
      refine ⟨?_, (h.via f' ip hv).2⟩
      by_cases hff : f' = f
      · subst hff
        rw [State.setFile_self]
        exact hvia ip hv
      · rw [State.setFile_ne s g hff]
        exact (h.via f' ip hv).1 }

theorem Fits.unblank (h : Fits s p l) (hb : l.busy = true) :
    Fits s p { l with blank := l.blank.erase f } :=
  { h with
    rest := fun hr => absurd hr (ne_false_of_eq_true hb)
    blank := fun f' hf => h.blank f' (Finset.mem_of_mem_erase hf) }

theorem Fits.fileDrop (h : Fits s p l) (hH : 1 ≤ l.has (.file f)) (hv : l.via = none) :
    Fits s p { l.add (.file f) (-1) with blank := l.blank.erase f } := by
  have hb := h.busy_of_has hH
  have hne : ∀ {k : Key}, k ≠ .file f → (l.add (.file f) (-1)).has k = l.has k := fun hk => by
    rw [Share.has_add, if_neg hk, add_zero]
  have hinode : ∀ jp, (l.add (.file f) (-1)).has (.inode jp) = l.has (.inode jp) :=
    fun jp => hne nofun
  refine
    { h with
      rest := fun hr => absurd hr (ne_false_of_eq_true hb)
      nonneg := fun k => ?_
      loaded := fun jp hj => ?_
      seen := fun jp hj => ?_
      lame := fun jp hj => (h.lame jp hj).trans_eq (hinode jp).symm
      sole := fun jp hj => ⟨(h.sole jp hj).1, (h.sole jp hj).2.1.trans_eq (hinode jp).symm,
        (h.sole jp hj).2.2⟩
      blank := fun f' hf => ?_
      via := fun f' jp hj => absurd (hv.symm.trans hj) nofun
      new := fun jp hj => ⟨(h.new jp hj).1, (h.new jp hj).2.trans_eq (hinode jp).symm⟩ }
  · have h1 := h.nonneg k
    have h2 := h.has_eq hb k
    simp only [Share.add, Pi.add_apply, Pi.single_apply]
    split_ifs with hk
    · rw [hk] at h1 h2 ⊢
      omega
    · omega
  · obtain ⟨h1, h2, h3⟩ := h.loaded jp hj
    exact ⟨h1, h2, h3.imp_left fun h3 => h3.trans_eq (hinode jp).symm⟩
  · exact ⟨(h.seen jp hj).1.imp_left fun h3 => h3.trans_eq (hinode jp).symm, (h.seen jp hj).2⟩
  · have hff : Key.file f' ≠ .file f := by simpa using Finset.ne_of_mem_erase hf
    obtain ⟨h1, h2, h3⟩ := h.blank f' (Finset.mem_of_mem_erase hf)
    exact ⟨h1, h2, h3.trans_eq (hne hff).symm⟩

def Key.ofPipe : Key → Prop
  | .pipeEnd _ _ | .page _ => True
  | _ => False

theorem Fits.addPipe {n : ℤ} (h : Fits s p l) (hb : l.busy = true) (hk : k.ofPipe)
    (hn : 0 ≤ l.has k + n) : Fits s p (l.add k n) := by
  have hne : ∀ {k'}, ¬ k'.ofPipe → (l.add k n).has k' = l.has k' := by
    intro k' hk'
    have : k' ≠ k := by
      rintro rfl
      exact hk' hk
    rw [Share.has_add, if_neg this, add_zero]
  have hinode : ∀ jp, (l.add k n).has (.inode jp) = l.has (.inode jp) := fun jp => hne id
  have hfile : ∀ f, (l.add k n).has (.file f) = l.has (.file f) := fun f => hne id
  refine
    { h with
      rest := fun hr => absurd hr (ne_false_of_eq_true hb)
      nonneg := fun k' => ?_
      loaded := fun jp hj => ⟨(h.loaded jp hj).1, (h.loaded jp hj).2.1,
        (h.loaded jp hj).2.2.imp_left fun h3 => h3.trans_eq (hinode jp).symm⟩
      seen := fun jp hj => ⟨(h.seen jp hj).1.imp_left fun h3 => h3.trans_eq (hinode jp).symm,
        (h.seen jp hj).2⟩
      lame := fun jp hj => (h.lame jp hj).trans_eq (hinode jp).symm
      sole := fun jp hj => ⟨(h.sole jp hj).1, (h.sole jp hj).2.1.trans_eq (hinode jp).symm,
        (h.sole jp hj).2.2⟩
      blank := fun f hf => ⟨(h.blank f hf).1, (h.blank f hf).2.1,
        (h.blank f hf).2.2.trans_eq (hfile f).symm⟩
      via := fun f jp hv => ⟨(h.via f jp hv).1, (h.via f jp hv).2.trans_eq (hfile f).symm⟩
      new := fun jp hj => ⟨(h.new jp hj).1, (h.new jp hj).2.trans_eq (hinode jp).symm⟩ }
  have h1 := h.nonneg k'
  have h2 := h.has_eq hb k
  simp only [Share.add, Pi.add_apply, Pi.single_apply]
  split_ifs with hk'
  · rw [hk'] at h1 ⊢
    omega
  · omega

variable [DecidableEq P] [Fintype P]

theorem Inv.file (h : Inv s ls)
    (hq : ∀ q ≠ p, 1 ≤ (ls q).has (.file f) →
      (g (s.file f)).type = (s.file f).type ∧ (g (s.file f)).ip = (s.file f).ip)
    (hblank : ∀ q ≠ p, f ∈ (ls q).blank → (g (s.file f)).ref = (s.file f).ref)
    (hsole : ∀ q ≠ p, ∀ ip, (ls q).sole = some ip → ¬ (g (s.file f)).holds (.inode ip))
    (hclosed : (g (s.file f)).ref = 0 → (g (s.file f)).type = .none)
    (hopened : (g (s.file f)).type = .inode → s.Alloc (g (s.file f)).ip)
    (hp : Fits (s.setFile f g) p l') (ha : Apart s ls p l') {d : Key → ℤ}
    (hbal : l'.bal = (ls p).bal + d)
    (hd : ∀ k, d k = (if k = .file f then ((g (s.file f)).ref : ℤ) - (s.file f).ref else 0) +
      (if (s.file f).holds k then 1 else 0) - if (g (s.file f)).holds k then 1 else 0) :
    Inv (s.setFile f g) (Function.update ls p l') := by
  refine h.step_of rfl hp (fun q hqp => ?_) hbal (fun k => ?_) ?_ ha
    fun q _ ip hb hc => h.pairs.home q ip hb hc
  · refine
      { Frame.refl s q (ls q) with
        file := fun f' hf => ?_
        blank := fun f' hf => ?_
        files := fun ip hs h0 => ?_ }
    · by_cases hff : f' = f
      · subst hff
        rw [State.setFile_self]
        exact hq q hqp hf
      · rw [State.setFile_ne s g hff]
        exact ⟨rfl, rfl⟩
    · by_cases hff : f' = f
      · subst hff
        rw [State.setFile_self]
        exact hblank q hqp hf
      · rw [State.setFile_ne s g hff]
    · have hold : ¬ (s.file f).holds (.inode ip) := fun hh => by
        have := files_pos hh
        omega
      rw [State.files_setFile, if_neg hold, if_neg (hsole q hqp ip hs)]
      omega
  · rw [State.count_setFile, State.files_setFile, hd k]
    omega
  · refine { h.tables with closed := fun f' hf => ?_, opened := fun f' hf => ?_ }
    · by_cases hff : f' = f
      · subst hff
        rw [State.setFile_self] at hf ⊢
        exact hclosed hf
      · rw [State.setFile_ne s g hff] at hf ⊢
        exact h.tables.closed f' hf
    · by_cases hff : f' = f
      · subst hff
        rw [State.setFile_self] at hf ⊢
        exact hopened hf
      · rw [State.setFile_ne s g hff] at hf ⊢
        exact h.tables.opened f' hf

omit [DecidableEq P] in
theorem Inv.only (h : Inv s ls) (hH : 1 ≤ (ls p).has (.file f)) (h1 : (s.file f).ref ≤ 1)
    (hq : q ≠ p) : ¬ 1 ≤ (ls q).has (.file f) := by
  classical
  intro hhas
  have h2 := h.due_ge_two (k := .file f) hq
  have h3 := h.balance (.file f)
  have h4 := files_nonneg s (.file f)
  rw [(h.fits p).has_eq ((h.fits p).busy_of_has hH)] at hH
  rw [(h.fits q).has_eq ((h.fits q).busy_of_has hhas)] at hhas
  simp only [State.count] at h3
  omega

section Alloc

theorem Inv.filealloc (h : Inv s ls) (hb : (ls p).busy = true) (hr : (s.file f).ref = 0) :
    f ∉ (ls p).blank ∧ Inv (s.setFile f fun x => { x with ref := 1 })
      (Function.update ls p
        { (ls p).add (.file f) 1 with blank := insert f (ls p).blank }) := by
  have htype := h.tables.closed f hr
  have hnot : ∀ q, ¬ 1 ≤ (ls q).has (.file f) := fun q hq => by
    have := h.file_ref_pos hq
    omega
  have hnb : ∀ q, f ∉ (ls q).blank := fun q hq => hnot q ((h.fits q).blank f hq).2.2
  have hhas : 1 ≤ ((ls p).add (.file f) 1).has (.file f) := by
    have := (h.fits p).nonneg (.file f)
    rw [Share.has_add_self, (h.fits p).has_eq hb]
    omega
  have hinode : ∀ ip, ¬ File.holds { s.file f with ref := 1 } (.inode ip) := fun ip hh => by
    rw [File.holds, htype] at hh
    cases hh.1
  refine ⟨hnb p, h.file (g := fun x => { x with ref := 1 })
    (fun q _ _ => ⟨rfl, rfl⟩) (fun q _ hf => absurd hf (hnb q)) (fun q _ ip _ => hinode ip) nofun
    (fun ht => absurd (htype.symm.trans ht) nofun) ?_ ?_ (d := Pi.single (.file f) 1) rfl
    fun k => ?_⟩
  · have hfit := ((h.fits p).setFile (g := fun x => { x with ref := 1 })
      (fun hf => absurd hf (hnb p))
      (fun ip hv => absurd ((h.fits p).via f ip hv).2 (hnot p)) fun ip _ => hinode ip).add_pos
      (k := .file f) (n := 1) hb (by decide)
    exact
      { hfit with
        rest := fun hr => absurd hr (ne_false_of_eq_true hb)
        blank := fun f' hf => by
          rcases Finset.mem_insert.mp hf with rfl | hf
          · rw [State.setFile_self]
            exact ⟨htype, rfl, hhas⟩
          · exact hfit.blank f' hf }
  · refine ⟨(h.pairs.apart_self hb).home, (h.pairs.apart_self hb).sole,
      (h.pairs.apart_self hb).seen, fun f' hf q hq => ?_,
      (h.pairs.apart_self hb).child⟩
    rcases Finset.mem_insert.mp hf with rfl | hf
    · exact hnb q
    · exact (h.pairs.apart_self hb).blank f' hf q hq
  · have hsame : (File.holds { s.file f with ref := 1 } k ↔ (s.file f).holds k) := by
      cases k <;> exact Iff.rfl
    simp only [hsame, Pi.single_apply, hr]
    split_ifs <;> rfl

omit [DecidableEq P] in
theorem Inv.not_sole (h : Inv s ls) (hh : (s.file f).holds (.inode ip)) :
    (ls q).sole ≠ some ip := by
  intro hs
  have h1 := files_pos hh
  have h2 := ((h.fits q).sole ip hs).2.2
  omega

omit [DecidableEq P] in
theorem Inv.not_blank (h : Inv s ls) (hH : 1 ≤ (ls p).has (.file f)) (hq : q ≠ p) :
    f ∉ (ls q).blank := fun hf => by
  obtain ⟨-, h2, h3⟩ := (h.fits q).blank f hf
  exact h.only h3 h2.le (Ne.symm hq) hH

theorem Inv.filedup (h : Inv s ls) (hH : 1 ≤ (ls p).has (.file f)) (hf : f ∉ (ls p).blank) :
    Inv (s.setFile f fun x => { x with ref := x.ref + 1 })
      (Function.update ls p ((ls p).add (.file f) 1)) := by
  have hb := (h.fits p).busy_of_has hH
  have hsame : ∀ k, (File.holds { s.file f with ref := (s.file f).ref + 1 } k ↔
      (s.file f).holds k) := fun k => by cases k <;> exact Iff.rfl
  refine h.file (g := fun x => { x with ref := x.ref + 1 })
    (fun q _ _ => ⟨rfl, rfl⟩) (fun q hq hfq => absurd hfq (h.not_blank hH hq))
    (fun q _ ip hs hh => h.not_sole ((hsame _).mp hh) hs) nofun (h.tables.opened f) ?_
    (h.pairs.apart hb (fun _ => id) (Finset.Subset.refl _) (Finset.Subset.refl _) fun _ => id)
    (d := Pi.single (.file f) 1) rfl fun k => ?_
  · exact ((h.fits p).setFile (fun hf' => absurd hf' hf)
      (fun ip hv => ((h.fits p).via f ip hv).1)
      fun ip hs hh => h.not_sole ((hsame _).mp hh) hs).add_pos hb (by decide)
  · simp only [hsame, Pi.single_apply]
    split_ifs <;> push_cast <;> omega

omit [DecidableEq P] in
theorem Inv.addOff (h : Inv s ls) {n : ℕ} :
    Inv (s.setFile f fun x => { x with off := n }) ls := by
  have hholds : ∀ f' k, (((s.setFile f fun x => { x with off := n }).file f').holds k ↔
      (s.file f').holds k) := by
    intro f' k
    by_cases hf : f' = f
    · subst hf
      rw [State.setFile_self]
      cases k <;> exact Iff.rfl
    · rw [State.setFile_ne _ _ hf]
  have hfields : ∀ f', ((s.setFile f fun x => { x with off := n }).file f').type =
      (s.file f').type ∧ ((s.setFile f fun x => { x with off := n }).file f').ip =
      (s.file f').ip ∧ ((s.setFile f fun x => { x with off := n }).file f').ref =
      (s.file f').ref := by
    intro f'
    by_cases hf : f' = f
    · subst hf
      rw [State.setFile_self]
      exact ⟨rfl, rfl, rfl⟩
    · rw [State.setFile_ne _ _ hf]
      exact ⟨rfl, rfl, rfl⟩
  have hfiles : ∀ k, (s.setFile f fun x => { x with off := n }).files k = s.files k := by
    intro k
    simp only [State.files, hholds]
  refine h.state (fun q => ?_) rfl (fun k => ?_) ?_ h.pairs.home
  · exact
      { Frame.refl s q (ls q) with
        file := fun f' _ => ⟨(hfields f').1, (hfields f').2.1⟩
        blank := fun f' _ => (hfields f').2.2
        files := fun ip _ h0 => (hfiles _).trans h0 }
  · rw [hfiles, State.count_setFile]
    simp
  · exact
      { h.tables with
        closed := fun f' hf => by
          rw [(hfields f').2.2] at hf
          rw [(hfields f').1]
          exact h.tables.closed f' hf
        opened := fun f' hf => by
          rw [(hfields f').1] at hf
          rw [(hfields f').2.1]
          exact h.tables.opened f' hf }

theorem Inv.viaFile (h : Inv s ls) (hH : 1 ≤ (ls p).has (.file f))
    (hv : (ls p).via = none ∨ ∃ ip, (ls p).via = some (f, ip))
    (ht : (s.file f).type = .inode) :
    Inv s (Function.update ls p { ls p with via := some (f, (s.file f).ip) }) := by
  have hb := (h.fits p).busy_of_has hH
  have hfit := h.fits p
  -- the share may have known the same before
  have hholds : ∀ ip, (ls p).Holds ip →
      Share.Holds { ls p with via := some (f, (s.file f).ip) } ip := by
    rintro ip (hh | ⟨f', hf'⟩)
    · exact Or.inl hh
    · rcases hv with hv | ⟨jp, hv⟩
      · cases hv.symm.trans hf'
      · obtain ⟨rfl, rfl⟩ := Prod.mk.inj (Option.some.inj (hv.symm.trans hf'))
        refine Or.inr ⟨f, ?_⟩
        rw [((hfit.via f jp hf').1).2]
  refine h.share ?_ rfl (h.pairs.apart hb (fun _ => id) (Finset.Subset.refl _)
    (Finset.Subset.refl _) fun _ => id)
  exact
    { hfit with
      rest := fun hr => absurd hr (ne_false_of_eq_true hb)
      loaded := fun ip hi => ⟨(hfit.loaded ip hi).1, (hfit.loaded ip hi).2.1,
        hholds ip (hfit.loaded ip hi).2.2⟩
      seen := fun ip hi => ⟨hholds ip (hfit.seen ip hi).1, (hfit.seen ip hi).2⟩
      via := fun f' ip hv => by
        obtain ⟨rfl, rfl⟩ := Prod.mk.inj (Option.some.inj hv)
        exact ⟨⟨ht, rfl⟩, hH⟩ }

end Alloc

section Close

omit [Fintype P] [DecidableEq P] in
theorem Fits.see (h : Fits s p l) (hH : l.Holds ip) (ha : s.Alloc ip) :
    Fits s p { l with seen := insert ip l.seen } :=
  { h with
    rest := fun hr => absurd ((h.busy_of_holds hH).symm.trans hr) nofun
    seen := fun jp hj => by
      rcases Finset.mem_insert.mp hj with rfl | hj
      · exact ⟨hH, ha⟩
      · exact h.seen jp hj }

theorem Inv.filedrop (h : Inv s ls) (hH : 1 ≤ (ls p).has (.file f)) (hv : (ls p).via = none)
    (hr : 0 < (s.file f).ref - 1) :
    Inv (s.setFile f fun x => { x with ref := x.ref - 1 })
      (Function.update ls p
        { (ls p).add (.file f) (-1) with blank := (ls p).blank.erase f }) := by
  have hb := (h.fits p).busy_of_has hH
  have hsame : ∀ k, (File.holds { s.file f with ref := (s.file f).ref - 1 } k ↔
      (s.file f).holds k) := fun k => by cases k <;> exact Iff.rfl
  refine h.file (g := fun x => { x with ref := x.ref - 1 })
    (fun q _ _ => ⟨rfl, rfl⟩) (fun q hq hfq => absurd hfq (h.not_blank hH hq))
    (fun q _ ip hs hh => h.not_sole ((hsame _).mp hh) hs)
    (fun h0 => absurd (show (s.file f).ref - 1 = 0 from h0) hr.ne') (h.tables.opened f) ?_
    (h.pairs.apart hb (fun _ => id) (Finset.Subset.refl _) (Finset.erase_subset _ _) fun _ => id)
    (d := Pi.single (.file f) (-1)) rfl fun k => ?_
  · refine ((h.fits p).fileDrop hH hv).setFile (fun hf => ?_) (fun ip hv' => ?_)
      fun ip hs hh => h.not_sole ((hsame _).mp hh) hs
    · exact absurd rfl (Finset.ne_of_mem_erase hf)
    · cases hv.symm.trans hv'
  · simp only [hsame, Pi.single_apply]
    split_ifs <;> omega

def File.held (x : File) (l : Share P) : Share P :=
  match x.type with
  | .none => l
  | .pipe => l.add (.pipeEnd x.pipe x.writable) 1
  | .inode => { l.add (.inode x.ip) 1 with seen := insert x.ip l.seen }

theorem Inv.filedropLast (h : Inv s ls) (hH : 1 ≤ (ls p).has (.file f)) (hv : (ls p).via = none)
    (hr : (s.file f).ref = 1) :
    Inv (s.setFile f fun x => { x with ref := 0, type := .none })
      (Function.update ls p ((s.file f).held
        { (ls p).add (.file f) (-1) with blank := (ls p).blank.erase f })) := by
  have hb := (h.fits p).busy_of_has hH
  have hno : ∀ k, ¬ File.holds { s.file f with ref := 0, type := .none } k := by
    intro k hh
    cases k <;> simp [File.holds] at hh
  -- the share that is left, before the file hands over what it holds
  have hfit : Fits (s.setFile f fun x => { x with ref := 0, type := .none }) p
      { (ls p).add (.file f) (-1) with blank := (ls p).blank.erase f } := by
    refine ((h.fits p).fileDrop hH hv).setFile (fun hf => ?_) (fun ip hv' => ?_)
      fun ip _ => hno _
    · exact absurd rfl (Finset.ne_of_mem_erase hf)
    · cases hv.symm.trans hv'
  have hapart : Apart s ls p { (ls p).add (.file f) (-1) with blank := (ls p).blank.erase f } :=
    h.pairs.apart hb (fun _ => id) (Finset.Subset.refl _) (Finset.erase_subset _ _) fun _ => id
  have main : ∀ l' d, Fits (s.setFile f fun x => { x with ref := 0, type := .none }) p l' →
      Apart s ls p l' → l'.bal = (ls p).bal + d →
      (∀ k, d k = (if k = .file f then -1 else 0) + if (s.file f).holds k then 1 else 0) →
      Inv (s.setFile f fun x => { x with ref := 0, type := .none })
        (Function.update ls p l') := by
    intro l' d h1 h2 h3 h4
    refine h.file (g := fun x => { x with ref := 0, type := .none })
      (fun q hq hhas => absurd hhas (h.only hH hr.le hq))
      (fun q hq hfq => absurd hfq (h.not_blank hH hq)) (fun q _ ip _ => hno _) (fun _ => rfl)
      nofun h1 h2 h3 fun k => ?_
    rw [h4 k, hr, if_neg (hno k)]
    split_ifs <;> simp
  unfold File.held
  cases ht : (s.file f).type with
  | none =>
    refine main _ (Pi.single (.file f) (-1)) hfit hapart rfl fun k => ?_
    have : ¬ (s.file f).holds k := by
      intro hh
      cases k <;> simp [File.holds, ht] at hh
    rw [if_neg this, Pi.single_apply, add_zero]
  | pipe =>
    refine main _ (Pi.single (.file f) (-1) +
      Pi.single (.pipeEnd (s.file f).pipe (s.file f).writable) 1) (hfit.add_pos hb (by decide))
      { hapart with } (by simp [Share.add, add_assoc]) fun k => ?_
    have : (s.file f).holds k ↔ k = .pipeEnd (s.file f).pipe (s.file f).writable := by
      cases k <;> simp [File.holds, ht, eq_comm]
    simp only [this, Pi.add_apply, Pi.single_apply]
  | inode =>
    have hone : 1 ≤ (Share.add { (ls p).add (.file f) (-1) with blank := (ls p).blank.erase f }
        (.inode (s.file f).ip) 1).has (.inode (s.file f).ip) := by
      have := hfit.nonneg (.inode (s.file f).ip)
      rw [Share.has_add_self, hfit.has_eq hb]
      omega
    refine main _ (Pi.single (.file f) (-1) + Pi.single (.inode (s.file f).ip) 1)
      ((hfit.add_pos hb (by decide)).see (.of_has hone) (h.tables.opened f ht))
      (hapart.insert_seen (fun q _ => h.not_sole ⟨ht, rfl⟩) hb rfl rfl (Finset.Subset.refl _) rfl)
      (by simp [Share.add, add_assoc]) fun k => ?_
    have : (s.file f).holds k ↔ k = .inode (s.file f).ip := by
      cases k <;> simp [File.holds, ht, eq_comm]
    simp only [this, Pi.add_apply, Pi.single_apply]

end Close

section Open

theorem Inv.openInode (h : Inv s ls) {r w : Bool} (hf : f ∈ (ls p).blank) (hi : ip ∈ (ls p).seen)
    (hH : 1 ≤ (ls p).has (.inode ip)) (hv : (ls p).via = none) (hheld : (ls p).held = ∅)
    (hnew : (ls p).new = none) :
    Inv (s.setFile f fun x =>
        { x with type := .inode, ip := ip, off := 0, readable := r, writable := w })
      (Function.update ls p { (ls p).drop ip with blank := (ls p).blank.erase f }) := by
  have hb := (h.fits p).busy_of_has hH
  obtain ⟨htype, hr, hfH⟩ := (h.fits p).blank f hf
  have hnold : ∀ k, ¬ (s.file f).holds k := by
    intro k hh
    cases k <;> simp [File.holds, htype] at hh
  have hsole : ∀ jp, (ls p).sole ≠ some jp := fun jp hs => by
    have := ((h.fits p).sole jp hs).1
    rw [hheld] at this
    exact absurd this (Finset.notMem_empty jp)
  refine h.file (fun q hq hhas => absurd hhas (h.only hfH hr.le hq)) (fun q hq hfq => rfl)
    (fun q hq jp hs hh => ?_) (fun h0 => absurd (hr.symm.trans h0) nofun)
    (fun _ => ((h.fits p).seen ip hi).2) ?_ ?_ (d := Pi.single (.inode ip) (-1)) rfl fun k => ?_
  · obtain rfl : ip = jp := hh.2
    exact (h.pairs.sole q p ip (Ne.symm hq) hs).1 hi
  · refine ((((h.fits p).drop hH (by simp [hheld]) hnew).unblank (f := f) hb).setFile
      (fun hf => absurd rfl (Finset.ne_of_mem_erase hf))
      (fun jp hv' => absurd (hv.symm.trans hv') nofun) fun jp hs => absurd hs (hsole jp))
  · exact h.pairs.apart hb (fun _ => id) (Share.drop_seen _ _) (Finset.erase_subset _ _)
      fun _ => id
  · have hnew : File.holds { s.file f with
        type := .inode, ip := ip, off := 0, readable := r, writable := w } k ↔ k = .inode ip := by
      cases k <;> simp [File.holds, eq_comm]
    simp only [if_neg (hnold k), hnew, Pi.single_apply]
    split_ifs <;> simp

theorem Inv.openPipe (h : Inv s ls) {a : ℕ} {w : Bool} (hf : f ∈ (ls p).blank)
    (hH : 1 ≤ (ls p).has (.pipeEnd a w)) :
    Inv (s.setFile f fun x => { x with type := .pipe, readable := !w, writable := w, pipe := a })
      (Function.update ls p
        { (ls p).add (.pipeEnd a w) (-1) with blank := (ls p).blank.erase f }) := by
  have hb := (h.fits p).busy_of_has hH
  obtain ⟨htype, hr, hfH⟩ := (h.fits p).blank f hf
  have hnold : ∀ k, ¬ (s.file f).holds k := by
    intro k hh
    cases k <;> simp [File.holds, htype] at hh
  have hnino : ∀ jp, ¬ File.holds { s.file f with
      type := .pipe, readable := !w, writable := w, pipe := a } (.inode jp) :=
    fun jp hh => absurd hh.1 nofun
  have hvia : ∀ jp, (ls p).via ≠ some (f, jp) := fun jp hv =>
    hnold _ ((h.fits p).via f jp hv).1
  refine h.file (fun q hq hhas => absurd hhas (h.only hfH hr.le hq)) (fun q hq hfq => rfl)
    (fun q hq jp hs => hnino jp) (fun h0 => absurd (hr.symm.trans h0) nofun) nofun ?_ ?_
    (d := Pi.single (.pipeEnd a w) (-1)) rfl fun k => ?_
  · exact (((h.fits p).addPipe (k := .pipeEnd a w) (n := -1) hb trivial (by omega)).unblank
      (f := f) hb).setFile (fun hf => absurd rfl (Finset.ne_of_mem_erase hf))
      (fun jp hv => absurd hv (hvia jp)) fun jp _ => hnino jp
  · exact h.pairs.apart hb (fun _ => id) (Finset.Subset.refl _) (Finset.erase_subset _ _)
      fun _ => id
  · have hnew : File.holds { s.file f with
        type := .pipe, readable := !w, writable := w, pipe := a } k ↔ k = .pipeEnd a w := by
      cases k <;> simp [File.holds, eq_comm]
    simp only [if_neg (hnold k), hnew, Pi.single_apply]
    split_ifs <;> simp

end Open

section Pipes

variable {a : ℕ} {g : Pipe → Pipe}

omit [DecidableEq P] [Fintype P] in
theorem Key.cases_pipe (k : Key) (a : ℕ) :
    ((∀ w, k ≠ .pipeEnd a w) ∧ k ≠ .page a) ∨
      k = .pipeEnd a false ∨ k = .pipeEnd a true ∨ k = .page a := by
  by_cases h1 : k = .pipeEnd a false
  · exact Or.inr (Or.inl h1)
  by_cases h2 : k = .pipeEnd a true
  · exact Or.inr (Or.inr (Or.inl h2))
  by_cases h3 : k = .page a
  · exact Or.inr (Or.inr (Or.inr h3))
  refine Or.inl ⟨fun w => ?_, h3⟩
  cases w
  exacts [h1, h2]

omit [DecidableEq P] [Fintype P] in
theorem count_setPipe (hk : (∀ w, k ≠ .pipeEnd a w) ∧ k ≠ .page a) :
    (s.setPipe a g).count k = s.count k := by
  have hne : ∀ {b}, b ≠ a → (s.setPipe a g).pipe b = s.pipe b :=
    fun hb => Function.update_of_ne hb ..
  cases k with
  | inode ip => rfl
  | file f => rfl
  | pipeEnd b w =>
    have hb : b ≠ a := fun h => hk.1 w (by rw [h])
    cases w <;> simp only [State.count, hne hb]
  | page b =>
    have hb : b ≠ a := fun h => hk.2 (by rw [h])
    simp only [State.count, hne hb]

theorem Inv.pipe (h : Inv s ls) {d : Key → ℤ} (hs : s' = s.setPipe a g) (hp : Fits s p l')
    (ha : Apart s ls p l') (hbal : l'.bal = (ls p).bal + d)
    (hd : ∀ k, s'.count k = s.count k + d k)
    (hpage : (g (s.pipe a)).kallocs ≤ (g (s.pipe a)).kfrees + 1) :
    Inv s' (Function.update ls p l') := by
  subst hs
  have hframe : ∀ q l, Frame s (s.setPipe a g) q l := fun q l => { Frame.refl s q l with }
  refine h.step_of rfl (hp.frame (hframe p l')) (fun q _ => hframe q _) hbal (fun k => ?_)
    { h.tables with paged := fun a' => ?_ } ha fun q _ ip hb hc => h.pairs.home q ip hb hc
  · rw [hd k]
    change s.count k + d k - s.files k = _
    omega
  · by_cases ha' : a' = a
    · subst ha'
      have hself : (s.setPipe a' g).pipe a' = g (s.pipe a') := Function.update_self ..
      rw [hself]
      exact hpage
    · have hne : (s.setPipe a g).pipe a' = s.pipe a' := Function.update_of_ne ha' ..
      rw [hne]
      exact h.tables.paged a'

omit [DecidableEq P] in
theorem Inv.closed_of_free (h : Inv s ls) (hfree : (s.pipe a).kallocs = (s.pipe a).kfrees) :
    (s.pipe a).readopen = false ∧ (s.pipe a).writeopen = false := by
  have h1 := h.balance (.page a)
  have h2 : (0 : ℤ) ≤ due s ls (.page a) := Finset.sum_nonneg fun q _ => (h.fits q).nonneg _
  have h3 := files_nonneg s (.page a)
  simp only [State.count, hfree] at h1
  split_ifs at h1 with hopen
  · omega
  · simpa using hopen

theorem Inv.pipeKalloc (h : Inv s ls) (hb : (ls p).busy = true)
    (hfree : (s.pipe a).kallocs = (s.pipe a).kfrees) :
    Inv (s.setPipe a fun x =>
        { x with readopen := true, writeopen := true, kallocs := x.kallocs + 1 })
      (Function.update ls p (((ls p).add (.pipeEnd a false) 1).add (.pipeEnd a true) 1)) := by
  obtain ⟨hro, hwo⟩ := h.closed_of_free hfree
  refine h.pipe rfl (((h.fits p).add_pos hb (by decide)).add_pos hb (by decide))
    (h.pairs.apart hb (fun _ => id) (Finset.Subset.refl _) (Finset.Subset.refl _) fun _ => id)
    (d := Pi.single (.pipeEnd a false) 1 + Pi.single (.pipeEnd a true) 1)
    (by simp [Share.add, add_assoc]) (fun k => ?_) (by simp [hfree])
  rcases k.cases_pipe a with hk | rfl | rfl | rfl
  · rw [count_setPipe hk, Pi.add_apply, Pi.single_apply, Pi.single_apply, if_neg (hk.1 false),
      if_neg (hk.1 true)]
    omega
  · simp [State.count, State.setPipe, hro]
  · simp [State.count, State.setPipe, hwo]
  · simp [State.count, State.setPipe, hro, hwo]
    omega

omit [DecidableEq P] in
theorem Inv.open_of_has {w : Bool} (h : Inv s ls) (hH : 1 ≤ (ls p).has (.pipeEnd a w)) :
    (if w then (s.pipe a).writeopen else (s.pipe a).readopen) = true := by
  have h1 := h.count_ge p hH
  have h2 := files_nonneg s (.pipeEnd a w)
  cases w <;> simp only [State.count] at h1 <;> split_ifs at h1 with h3 <;>
    first | exact h3 | omega

omit [DecidableEq P] [Fintype P] in
theorem pipeclose_eq {w : Bool} : (s.pipeclose a w).2 = s.setPipe a fun x =>
    if w then { x with writeopen := false } else { x with readopen := false } := rfl

omit [DecidableEq P] [Fintype P] in
theorem count_pipeclose {w : Bool}
    (ho : (if w then (s.pipe a).writeopen else (s.pipe a).readopen) = true) (k : Key) :
    (s.pipeclose a w).2.count k = s.count k + (Pi.single (.pipeEnd a w) (-1) +
      if (s.pipeclose a w).1 then Pi.single (.page a) 1 else 0 : Key → ℤ) k := by
  rcases k.cases_pipe a with hk | hk
  · rw [pipeclose_eq, count_setPipe hk, Pi.add_apply, Pi.single_apply, if_neg (hk.1 w)]
    split_ifs
    · rw [Pi.single_apply, if_neg hk.2]
      omega
    · simp
  · cases w <;> simp only [Bool.false_eq_true, if_false, if_true] at ho <;>
      rcases hk with rfl | rfl | rfl <;> cases hr : (s.pipe a).readopen <;>
      cases hw : (s.pipe a).writeopen <;>
      simp_all [State.pipeclose, State.setPipe, State.count]

theorem Inv.pipeclose (h : Inv s ls) {w : Bool} (hH : 1 ≤ (ls p).has (.pipeEnd a w)) :
    Inv (s.pipeclose a w).2 (Function.update ls p
      (if (s.pipeclose a w).1 then ((ls p).add (.pipeEnd a w) (-1)).add (.page a) 1
        else (ls p).add (.pipeEnd a w) (-1))) := by
  have hb := (h.fits p).busy_of_has hH
  have hfit := (h.fits p).addPipe (k := .pipeEnd a w) (n := -1) hb trivial (by omega)
  have hapart : Apart s ls p ((ls p).add (.pipeEnd a w) (-1)) :=
    h.pairs.apart hb (fun _ => id) (Finset.Subset.refl _) (Finset.Subset.refl _) fun _ => id
  refine h.pipe pipeclose_eq ?_ ?_ ?_ (count_pipeclose (h.open_of_has hH)) ?_
  · split_ifs
    · exact hfit.add_pos hb (by decide)
    · exact hfit
  · split_ifs
    · exact { hapart with }
    · exact hapart
  · split_ifs
    · simp [Share.add, add_assoc]
    · simp [Share.add]
  · split_ifs <;> exact h.tables.paged a

theorem Inv.kfree (h : Inv s ls) (hH : 1 ≤ (ls p).has (.page a)) :
    Inv (s.setPipe a fun x => { x with kfrees := x.kfrees + 1 })
      (Function.update ls p ((ls p).add (.page a) (-1))) := by
  have hb := (h.fits p).busy_of_has hH
  refine h.pipe rfl ((h.fits p).addPipe hb trivial (by omega))
    (h.pairs.apart hb (fun _ => id) (Finset.Subset.refl _) (Finset.Subset.refl _) fun _ => id)
    rfl (fun k => ?_) ((h.tables.paged a).trans (Nat.le_succ _))
  rcases k.cases_pipe a with hk | rfl | rfl | rfl
  · rw [count_setPipe hk, Pi.single_apply, if_neg hk.2, add_zero]
  · simp [State.count, State.setPipe]
  · simp [State.count, State.setPipe]
  · simp [State.count, State.setPipe]
    omega

end Pipes

end Xv6.Fs
