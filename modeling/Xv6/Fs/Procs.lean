import Xv6.Fs.Files

/-!
# Operations on the tables of processes

A process changes its own descriptors and its working directory, and `fork` fills in those
of a child that is not yet live. What enters a table leaves the hands of the process.
-/

namespace Xv6.Fs
open Lib

variable {P : Type} [DecidableEq P] {s s' : State P} {p q c : P} {l l' : Share P}
  {ls : P → Share P} {ip : Slot} {f : FileId} {fd : Fd} {k : Key} {g : Proc → Proc}

namespace State

@[simp] theorem setProc_self (s : State P) (p : P) (g : Proc → Proc) :
    (s.setProc p g).proc p = g (s.proc p) := Function.update_self ..

theorem setProc_ne (s : State P) (g : Proc → Proc) (h : q ≠ p) :
    (s.setProc p g).proc q = s.proc q := Function.update_of_ne h ..

end State

section Own

omit [DecidableEq P] in
theorem Share.has_reown (l : Share P) (x : Proc) (k : Key) : (l.reown x).has k = l.has k := by
  simp only [Share.has, Share.reown, Pi.sub_apply, Pi.add_apply]
  omega

omit [DecidableEq P] in
theorem Fits.child_ne (h : Fits s q l) (hc : l.child = some c) (hp : (s.proc p).state = .live) :
    c ≠ p := by
  rintro rfl
  have := (h.child c hc).1
  rw [hp] at this
  cases this

theorem Fits.reown (h : Fits s p l) (hb : l.busy = true)
    (hstate : (g (s.proc p)).state = (s.proc p).state) :
    Fits (s.setProc p g) p (l.reown (g l.own)) := by
  obtain ⟨hown, hlive⟩ := h.own hb
  have hhas : ∀ k, (l.reown (g l.own)).has k = l.has k := l.has_reown _
  have hholds : ∀ ip, l.Holds ip → (l.reown (g l.own)).Holds ip := fun ip hh =>
    hh.imp_left fun h1 => h1.trans_eq (hhas _).symm
  refine
    { h with
      own := fun _ => ?_
      rest := fun hr => absurd hr (ne_false_of_eq_true hb)
      nonneg := fun k => ?_
      loaded := fun ip hi => ⟨(h.loaded ip hi).1, (h.loaded ip hi).2.1,
        hholds ip (h.loaded ip hi).2.2⟩
      seen := fun ip hi => ⟨hholds ip (h.seen ip hi).1, (h.seen ip hi).2⟩
      lame := fun ip hi => (h.lame ip hi).trans_eq (hhas _).symm
      sole := fun ip hi => ⟨(h.sole ip hi).1, (h.sole ip hi).2.1.trans_eq (hhas _).symm,
        (h.sole ip hi).2.2⟩
      blank := fun f hf => ⟨(h.blank f hf).1, (h.blank f hf).2.1,
        (h.blank f hf).2.2.trans_eq (hhas _).symm⟩
      via := fun f ip hv => ⟨(h.via f ip hv).1, (h.via f ip hv).2.trans_eq (hhas _).symm⟩
      child := fun c hc => ?_
      new := fun ip hi => ⟨(h.new ip hi).1, (h.new ip hi).2.trans_eq (hhas _).symm⟩ }
  · rw [State.setProc_self, hstate]
    exact ⟨congrArg g hown, hlive⟩
  · have h1 := h.nonneg k
    have h2 := hhas k
    rw [State.setProc_self, ← hown]
    rw [h.has_eq hb k] at h2
    simp only [Share.has] at h2
    have h3 : (l.reown (g l.own)).own = g l.own := rfl
    rw [h3] at h2
    omega
  · rw [State.setProc_ne s g (h.child_ne hc hlive)]
    exact h.child c hc

variable [Fintype P]

theorem Inv.frame_own (h : Inv s ls) (hlive : (s.proc p).state = .live) (hq : q ≠ p) :
    Frame s (s.setProc p g) q (ls q) :=
  { Frame.refl s q (ls q) with
    proc := fun _ => State.setProc_ne s g hq
    assets := fun k => by rw [State.setProc_ne s g hq]
    child := fun c hc => State.setProc_ne s g ((h.fits q).child_ne hc hlive) }

theorem Inv.reown (h : Inv s ls) (hb : (ls p).busy = true)
    (hstate : (g (s.proc p)).state = (s.proc p).state) :
    Inv (s.setProc p g) (Function.update ls p ((ls p).reown (g (ls p).own))) := by
  obtain ⟨hown, hlive⟩ := (h.fits p).own hb
  refine h.turn ((h.fits p).reown hb hstate) (fun q hq => h.frame_own hlive hq) (fun k => ?_) ?_
    (h.pairs.step (h.pairs.apart hb (fun _ => id) (Finset.Subset.refl _)
      (Finset.Subset.refl _) fun _ => id) (fun hr => absurd hr (ne_false_of_eq_true hb))
      fun q hq ip hbq hc => ?_)
  · have hdue : due (s.setProc p g) (Function.update ls p ((ls p).reown (g (ls p).own))) k =
        due s ls k + 0 := by
      refine due_change (p := p) (fun q hq => ?_) ?_
      · rw [Function.update_of_ne hq, State.setProc_ne s g hq]
      · rw [Function.update_self, State.setProc_self, ← hown]
        simp only [Share.reown, Pi.sub_apply, Pi.add_apply]
        omega
    rw [hdue, add_zero]
    rfl
  · refine { h.tables with unused := fun q hq => ?_ }
    by_cases hqp : q = p
    · subst hqp
      rw [State.setProc_self, hstate, hlive] at hq
      cases hq
    · rw [State.setProc_ne s g hqp] at hq ⊢
      exact h.tables.unused q hq
  · rw [State.setProc_ne s g hq] at hc
    exact ⟨h.pairs.home q ip hbq hc, Or.inl hc⟩

end Own

section Fork

variable [Fintype P]

omit [DecidableEq P] in
theorem Inv.not_child (h : Inv s ls) (hc : (s.proc c).state ≠ .embryo) :
    (ls q).child ≠ some c := fun hq => hc ((h.fits q).child c hq).1

theorem Inv.frame_child (h : Inv s ls) (hc : (s.proc c).state ≠ .live)
    (hchild : ∀ q ≠ p, (ls q).child ≠ some c)
    (hassets : ∀ k, (s.proc c).assets k ≤ (g (s.proc c)).assets k) (hq : q ≠ p) :
    Frame s (s.setProc c g) q (ls q) :=
  { Frame.refl s q (ls q) with
    proc := fun hb => State.setProc_ne s g fun heq => hc (heq ▸ ((h.fits q).own hb).2)
    assets := fun k => by
      by_cases hqc : q = c
      · subst hqc
        rw [State.setProc_self]
        exact hassets k
      · rw [State.setProc_ne s g hqc]
    child := fun c' hc' => State.setProc_ne s g fun heq => hchild q hq (heq ▸ hc') }

theorem Inv.child (h : Inv s ls) (hb : (ls p).busy = true) (hc : (s.proc c).state ≠ .live)
    (hchild : ∀ q ≠ p, (ls q).child ≠ some c) {d : Key → ℤ}
    (hassets : ∀ k, (g (s.proc c)).assets k = (s.proc c).assets k + d k) (hd : ∀ k, 0 ≤ d k)
    (hp : Fits (s.setProc c g) p l') (hbal : l'.bal = (ls p).bal - d) (ha : Apart s ls p l')
    (hstate : (g (s.proc c)).state ≠ .unused)
    (hcwd : ∀ ip, (ls c).busy = false → (g (s.proc c)).cwd = some ip →
      s.Alloc ip ∧ ((s.proc c).cwd = some ip ∨ (∀ q, (ls q).sole ≠ some ip) ∧ l'.sole = none)) :
    Inv (s.setProc c g) (Function.update ls p l') := by
  have hpc : p ≠ c := fun heq => hc (heq ▸ ((h.fits p).own hb).2)
  refine h.turn hp (fun q hq => h.frame_child hc hchild (fun k => ?_) hq) (fun k => ?_) ?_
    (h.pairs.step ha (fun _ => by rw [State.setProc_ne s g hpc]) fun q hq ip hbq hq' => ?_)
  · have := hassets k
    have := hd k
    omega
  · have h1 : due s (Function.update ls p l') k = due s ls k + -d k := by
      refine due_change (p := p) (fun q hq => by rw [Function.update_of_ne hq]) ?_
      rw [Function.update_self, hbal, Pi.sub_apply]
      omega
    have h2 : due (s.setProc c g) (Function.update ls p l') k =
        due s (Function.update ls p l') k + d k := by
      refine due_change (p := c) (fun q hq => by rw [State.setProc_ne s g hq]) ?_
      rw [State.setProc_self, hassets k]
      omega
    rw [h2, h1]
    change s.count k - s.files k - _ = _
    omega
  · refine { h.tables with unused := fun q hq => ?_ }
    by_cases hqc : q = c
    · subst hqc
      rw [State.setProc_self] at hq
      exact absurd hq hstate
    · rw [State.setProc_ne s g hqc] at hq ⊢
      exact h.tables.unused q hq
  · by_cases hqc : q = c
    · subst hqc
      rw [State.setProc_self] at hq'
      exact hcwd ip hbq hq'
    · rw [State.setProc_ne s g hqc] at hq'
      exact ⟨h.pairs.home q ip hbq hq', Or.inl hq'⟩

theorem Inv.allocproc (h : Inv s ls) (hb : (ls p).busy = true)
    (hc : (s.proc c).state = .unused) :
    Inv (s.setProc c fun x => { x with state := .embryo })
      (Function.update ls p { ls p with child := some c, filled := ∅ }) := by
  have hnot : ∀ q, (ls q).child ≠ some c := fun q => h.not_child (by rw [hc]; nofun)
  have hne : p ≠ c := fun heq => by
    have := ((h.fits p).own hb).2
    rw [heq, hc] at this
    cases this
  refine h.child hb (by rw [hc]; nofun) (fun q _ => hnot q) (d := 0) (fun k => ?_)
    (fun _ => le_rfl) ?_ (sub_zero _).symm ?_ nofun fun ip hbc hcwd =>
      ⟨h.pairs.home c ip hbc hcwd, Or.inl hcwd⟩
  · rw [Pi.zero_apply, add_zero]
    cases k <;> rfl
  · exact
      { h.fits p with
        own := fun _ => by
          rw [State.setProc_ne s _ hne]
          exact (h.fits p).own hb
        rest := fun hr => absurd hr (ne_false_of_eq_true hb)
        nonneg := fun k => by
          rw [State.setProc_ne s _ hne]
          exact (h.fits p).nonneg k
        child := fun c' hc' => by
          obtain rfl := Option.some.inj hc'
          rw [State.setProc_self]
          exact ⟨rfl, fun fd _ => (h.tables.unused c hc).2 fd,
            fun _ => (h.tables.unused c hc).1⟩ }
  · refine ⟨(h.pairs.apart_self hb).home, (h.pairs.apart_self hb).sole,
      (h.pairs.apart_self hb).seen,
      (h.pairs.apart_self hb).blank, fun c' hc' q _ => ?_⟩
    obtain rfl := Option.some.inj hc'
    exact hnot q

omit [Fintype P] in
theorem Fits.refill {m : Finset (Option Fd)} (h : Fits s p l) (hb : l.busy = true)
    (hc : l.child = some c) (hstate : (g (s.proc c)).state = (s.proc c).state)
    (hfile : ∀ fd, some fd ∉ m → (g (s.proc c)).ofile fd = none)
    (hcwd : none ∉ m → (g (s.proc c)).cwd = none) :
    Fits (s.setProc c g) p { l with filled := m } := by
  have hne : p ≠ c := (h.child_ne hc (h.own hb).2).symm
  exact
    { h with
      own := fun _ => by
        rw [State.setProc_ne s _ hne]
        exact h.own hb
      rest := fun hr => absurd hr (ne_false_of_eq_true hb)
      nonneg := fun k => by
        rw [State.setProc_ne s _ hne]
        exact h.nonneg k
      child := fun c' hc' => by
        obtain rfl := Option.some.inj (hc.symm.trans hc')
        rw [State.setProc_self, hstate]
        exact ⟨(h.child c hc).1, hfile, hcwd⟩ }

omit [DecidableEq P] [Fintype P] in
theorem single_one_nonneg (k k' : Key) : 0 ≤ (Pi.single k 1 : Key → ℤ) k' := by
  rw [Pi.single_apply]
  split_ifs <;> decide

omit [DecidableEq P] in
theorem Inv.child_not_live (h : Inv s ls) (hc : (ls p).child = some c) :
    (s.proc c).state ≠ .live := by
  rw [((h.fits p).child c hc).1]
  exact nofun

omit [DecidableEq P] in
theorem Inv.child_only (h : Inv s ls) (hc : (ls p).child = some c) (hq : q ≠ p) :
    (ls q).child ≠ some c := fun hc' => hq (h.pairs.child q p c hc' hc)

theorem Inv.childFile (h : Inv s ls) (hc : (ls p).child = some c) (hfd : some fd ∉ (ls p).filled)
    (hH : 1 ≤ (ls p).has (.file f)) (hv : (ls p).via = none) (hbl : (ls p).blank = ∅) :
    Inv (s.setProc c fun x => { x with ofile := Function.update x.ofile fd (some f) })
      (Function.update ls p
        { (ls p).add (.file f) (-1) with filled := insert (some fd) (ls p).filled }) := by
  have hb := (h.fits p).busy_of_has hH
  obtain ⟨hstate, hofile, hcwd⟩ := (h.fits p).child c hc
  have hfit := (h.fits p).fileDrop hH hv
  rw [hbl, Finset.erase_empty, ← hbl] at hfit
  refine h.child hb (h.child_not_live hc) (fun q hq => h.child_only hc hq)
    (d := Pi.single (.file f) 1) (fun k => congrFun (Proc.assets_ofile (hofile fd hfd)) k) (single_one_nonneg _) ?_ ?_
    (h.pairs.apart hb (fun _ => id) (Finset.Subset.refl _) (Finset.Subset.refl _) fun _ => id)
    (by simp [hstate]) fun ip hbc hq => ⟨h.pairs.home c ip hbc hq, Or.inl hq⟩
  · refine Fits.refill (l := (ls p).add (.file f) (-1)) hfit hb hc rfl (fun fd' hfd' => ?_)
      fun hn => hcwd fun hn' => hn (Finset.mem_insert_of_mem hn')
    rw [Finset.mem_insert, not_or] at hfd'
    change Function.update _ _ _ _ = _
    rw [Function.update_of_ne (by simpa using hfd'.1)]
    exact hofile fd' hfd'.2
  · simp [Share.add, Pi.single_neg, sub_eq_add_neg]

theorem Inv.childCwd (h : Inv s ls) (hc : (ls p).child = some c) (hn : none ∉ (ls p).filled)
    (hi : ip ∈ (ls p).seen) (hH : 1 ≤ (ls p).has (.inode ip)) (hheld : (ls p).held = ∅)
    (hnew : (ls p).new = none) :
    Inv (s.setProc c fun x => { x with cwd := some ip })
      (Function.update ls p
        { (ls p).drop ip with filled := insert none (ls p).filled }) := by
  have hb := (h.fits p).busy_of_has hH
  obtain ⟨hstate, hofile, hcwd⟩ := (h.fits p).child c hc
  have hsole : (ls p).sole = none := by
    by_contra hs
    obtain ⟨jp, hj⟩ := Option.ne_none_iff_exists'.mp hs
    have := ((h.fits p).sole jp hj).1
    rw [hheld] at this
    exact absurd this (Finset.notMem_empty jp)
  refine h.child hb (h.child_not_live hc) (fun q hq => h.child_only hc hq)
    (d := Pi.single (.inode ip) 1) (fun k => congrFun (Proc.assets_cwd (hcwd hn)) k) (single_one_nonneg _) ?_ ?_
    (h.pairs.apart hb (fun _ => id) (Share.drop_seen _ _) (Finset.Subset.refl _) fun _ => id)
    (by simp [hstate]) fun jp hbc hq => ?_
  · refine Fits.refill (l := (ls p).drop ip) ((h.fits p).drop hH (by simp [hheld]) hnew) hb hc rfl
      (fun fd hfd => hofile fd fun hfd' => hfd (Finset.mem_insert_of_mem hfd')) fun hn' => ?_
    exact absurd (Finset.mem_insert_self none _) hn'
  · simp [Share.drop, Share.add, Pi.single_neg, sub_eq_add_neg]
  · obtain rfl : ip = jp := Option.some.inj hq
    refine ⟨((h.fits p).seen ip hi).2, Or.inr ⟨fun q hs => ?_, hsole⟩⟩
    by_cases hqp : q = p
    · rw [hqp, hsole] at hs
      cases hs
    · exact (h.pairs.sole q p ip (Ne.symm hqp) hs).1 hi

theorem Inv.spawn (h : Inv s ls) (hc : (ls p).child = some c) :
    Inv (s.setProc c fun x => { x with state := .live })
      (Function.update ls p { ls p with child := none }) := by
  have hb : (ls p).busy = true := by
    by_contra hb
    rw [(h.fits p).rest (by simpa using hb)] at hc
    cases hc
  have hne : p ≠ c := ((h.fits p).child_ne hc ((h.fits p).own hb).2).symm
  refine h.child hb (h.child_not_live hc) (fun q hq => h.child_only hc hq) (d := 0) (fun k => ?_)
    (fun _ => le_rfl) ?_ (sub_zero _).symm
    (h.pairs.apart hb (fun _ => id) (Finset.Subset.refl _) (Finset.Subset.refl _) nofun)
    nofun fun ip hbc hcwd => ⟨h.pairs.home c ip hbc hcwd, Or.inl hcwd⟩
  · rw [Pi.zero_apply, add_zero]
    cases k <;> rfl
  · exact
      { h.fits p with
        own := fun _ => by
          rw [State.setProc_ne s _ hne]
          exact (h.fits p).own hb
        rest := fun hr => absurd hr (ne_false_of_eq_true hb)
        nonneg := fun k => by
          rw [State.setProc_ne s _ hne]
          exact (h.fits p).nonneg k
        child := nofun }

end Fork

section Life

variable [Fintype P]

theorem Inv.die (h : Inv s ls) (hb : (ls p).busy = true) (hi : (ls p).Idle)
    (hcwd : (ls p).own.cwd = none) (hfile : ∀ fd, (ls p).own.ofile fd = none) :
    Inv (s.setProc p fun x => { x with state := .unused }) (Function.update ls p .empty) := by
  obtain ⟨hown, hlive⟩ := (h.fits p).own hb
  rw [hown] at hcwd hfile
  have hassets : ∀ q k, ((s.setProc p fun x => { x with state := .unused }).proc q).assets k =
      (s.proc q).assets k := by
    intro q k
    by_cases hq : q = p
    · subst hq
      rw [State.setProc_self]
      cases k <;> rfl
    · rw [State.setProc_ne s _ hq]
  refine h.turn ?_ (fun q hq => h.frame_own hlive hq) (fun k => ?_) ?_ ?_
  · refine fits_empty (fun k => ?_) (fun ip hl => ?_) ((h.fits p).work.trans hi.work)
    · have := (h.fits p).nonneg k
      rw [hi.bal] at this
      rw [hassets]
      exact this.trans_eq (add_zero _)
    · have := ((h.fits p).held ip).1 hl
      rw [hi.held] at this
      exact absurd this (Finset.notMem_empty ip)
  · have : due (s.setProc p fun x => { x with state := .unused })
        (Function.update ls p .empty) k = due s ls k + 0 := by
      refine due_change (p := p) (fun q hq => ?_) ?_
      · rw [Function.update_of_ne hq, hassets]
      · rw [Function.update_self, hassets, hi.bal]
        simp [Share.empty]
    rw [this, add_zero]
    rfl
  · refine { h.tables with unused := fun q hq => ?_ }
    by_cases hqp : q = p
    · subst hqp
      rw [State.setProc_self]
      exact ⟨hcwd, hfile⟩
    · rw [State.setProc_ne s _ hqp] at hq ⊢
      exact h.tables.unused q hq
  · refine h.pairs.step (apart_empty hcwd)
      (fun _ => by rw [State.setProc_self]) fun q hq ip hbq hc => ?_
    rw [State.setProc_ne s _ hq] at hc
    exact ⟨h.pairs.home q ip hbq hc, Or.inl hc⟩

theorem Inv.enter (h : Inv s ls) (hi : (ls p).Idle) (hlive : (s.proc p).state = .live) :
    Inv s (Function.update ls p (.enter (s.proc p))) := by
  have hfit := h.fits p
  have hsole : ∀ ip, (s.proc p).cwd = some ip →
      s.Alloc ip ∧ ∀ q ≠ p, (ls q).sole ≠ some ip := fun ip hc => by
    by_cases hb : (ls p).busy = true
    · have hseen := hi.cwd ip (by rw [(hfit.own hb).1]; exact hc)
      exact ⟨(hfit.seen ip hseen).2, fun q hq hs =>
        (h.pairs.sole q p ip (Ne.symm hq) hs).1 hseen⟩
    · have hb : (ls p).busy = false := by simpa using hb
      exact ⟨h.pairs.home p ip hb hc, fun q hq hs =>
        (h.pairs.sole q p ip (Ne.symm hq) hs).2 hb hc⟩
  have hmem : ∀ ip, ip ∈ (Share.enter (P := P) (s.proc p)).seen → (s.proc p).cwd = some ip :=
    fun ip hs => by simpa [Share.enter] using hs
  refine h.share ⟨fun _ => ⟨rfl, hlive⟩, nofun, fun k => ?_, fun ip => ?_, nofun, fun ip hs => ?_,
    nofun, nofun, nofun, nofun, nofun, nofun, ?_⟩ hi.bal.symm
    ⟨nofun, nofun, fun ip hs => (hsole ip (hmem ip hs)).2, nofun, nofun⟩
  · have := hfit.nonneg k
    rw [hi.bal] at this
    exact this
  · have := hfit.held ip
    rwa [hi.held] at this
  · have hc := hmem ip hs
    refine ⟨Or.inl ?_, (hsole ip hc).1⟩
    simp [Share.has, Share.enter, Share.empty, Proc.assets, hc]
  · exact hfit.work.trans hi.work

theorem Inv.dir (h : Inv s ls) {o : Option Slot} {b : Option (Slot × Bool)}
    (hb : (ls p).busy = true) :
    Inv { s with dir := Function.update s.dir p o }
      (Function.update ls p { ls p with work := o, kid := b }) := by
  refine h.step_of rfl ?_ (fun q hq => ?_) (d := 0) (add_zero _).symm (fun k => ?_)
    { h.tables with } (h.pairs.apart hb (fun _ => id) (Finset.Subset.refl _)
      (Finset.Subset.refl _) fun _ => id) fun q _ ip hb hc => h.pairs.home q ip hb hc
  · exact
      { h.fits p with
        rest := fun hr => absurd hr (ne_false_of_eq_true hb)
        work := Function.update_self .. }
  · exact { Frame.refl s q (ls q) with dir := Function.update_of_ne hq .. }
  · rw [Pi.zero_apply, add_zero]
    cases k <;> rfl

end Life

end Xv6.Fs
