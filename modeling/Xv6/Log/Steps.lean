import Mathlib.Data.List.Lemmas
import Xv6.Log.Invariant

/-!
# Steps of the processes keep the invariant

`begin_op`, buffer use, `log_write` and `end_op` move no block to the disk, so
the on-disk half of the invariant is untouched; what has to be shown is that
the cache still agrees with the logical contents and that a commit starts only
when no operation is left.
-/

namespace Xv6.Log
open Lib

variable {c : Config} {s s' : State} {h : Hist}

theorem Inv.of_running (hi : Inv c s h) (hnr : s.recovering = false) (hd : s'.disk = s.disk)
    (hlh : s'.lh = s.lh) (hpc : s'.pc = s.pc) (hrec : s'.recovering = s.recovering)
    (hr : Running c s' h) : Inv c s' h where
  recov := by rw [hd]; exact hi.recov
  listed hne := by rw [hlh]; exact hi.listed (by rwa [hpc] at hne)
  stage := by
    have hs := hi.stage
    rw [hpc]
    cases hp : s.pc <;> simp only [hp, Stage, hd, hlh] at hs ⊢ <;> exact hs
  running _ := hr
  recovering ht := by rw [hrec, hnr] at ht; exact absurd ht (by simp)

theorem Running.of_procs (hr : Running c s h) (hd : s'.disk = s.disk) (hc : s'.cache = s.cache)
    (hlh : s'.lh = s.lh) (hpc : s'.pc = s.pc) (hch : ∀ b, Changed s' b ↔ Changed s b)
    (hp : Procs c s') : Running c s' h where
  coherent := by
    intro b buf hb hdirty hnc
    rw [hd]
    exact hr.coherent b buf (by rwa [hc] at hb) hdirty (by rwa [hch] at hnc)
  procs := hp
  view b hb hnc := by
    rw [hch] at hnc
    simpa only [State.view, hd, hc] using hr.view b hb hnc
  unlogged b hb hnl := by rw [hd]; exact hr.unlogged b hb (by rwa [hlh] at hnl)
  dirty b := by simpa only [Dirty, Unwritten, hc, hlh, hpc] using hr.dirty b
  pc := by rw [hpc]; exact hr.pc

theorem Procs.sleep (hp : Procs c s) {p : ℕ} (hph : s.phase p = .outside ∨ s.phase p = .ready) :
    Procs c (s.setPhase p .asleep) := by
  have hni : ∀ q, (s.setPhase p .asleep).phase q = .inside ↔ s.phase q = .inside := by
    intro q
    by_cases hq : q = p
    · subst hq
      rcases hph with hph | hph <;> simp [State.setPhase, hph]
    · simp [State.setPhase, hq]
  obtain ⟨l, hnd, hlen, hl⟩ := hp.count
  exact
    { count := ⟨l, hnd, hlen, fun q => (hni q).trans (hl q)⟩
      changed := fun b hd hb hc =>
        ⟨(hp.changed b hd hb hc).1, (hni _).mpr (hp.changed b hd hb hc).2⟩
      cached := hp.cached
      committing := hp.committing
      exclusive := hp.exclusive }

theorem Procs.enter (hp : Procs c s) {p : ℕ} (hph : s.phase p = .outside ∨ s.phase p = .ready)
    (hnc : s.committing = false) :
    Procs c { s.setPhase p .inside with outstanding := s.outstanding + 1 } := by
  obtain ⟨l, hnd, hlen, hl⟩ := hp.count
  have hpl : p ∉ l := by
    rw [← hl p]
    rcases hph with hph | hph <;> simp [hph]
  refine
    { count := ⟨p :: l, List.nodup_cons.mpr ⟨hpl, hnd⟩, by simp [hlen], fun q => ?_⟩
      changed := fun b hd hb hc => ⟨(hp.changed b hd hb hc).1, ?_⟩
      cached := hp.cached
      committing := hp.committing
      exclusive := fun ht => absurd ht (by simp [State.setPhase, hnc]) }
  · by_cases hq : q = p
    · subst hq; simp [State.setPhase]
    · simp [State.setPhase, hq, hl]
  · have hin := (hp.changed b hd hb hc).2
    by_cases hq : hd.owner = p
    · simp [State.setPhase, hq]
    · simpa [State.setPhase, hq] using hin

theorem inv_beginOp (hi : Inv c s h) (hnr : s.recovering = false) {p : ℕ}
    (he : beginOp s p = .ret s') : Inv c s' h := by
  have hr := hi.running hnr
  unfold beginOp at he
  split_ifs at he with hph hcm hsp <;> simp only [Outcome.ret.injEq] at he <;> subst he
  · exact hi.of_running hnr rfl rfl rfl rfl
      (hr.of_procs rfl rfl rfl rfl (fun _ => Iff.rfl) (hr.procs.sleep hph))
  · exact hi.of_running hnr rfl rfl rfl rfl
      (hr.of_procs rfl rfl rfl rfl (fun _ => Iff.rfl) (hr.procs.sleep hph))
  · exact hi.of_running hnr rfl rfl rfl rfl
      (hr.of_procs rfl rfl rfl rfl (fun _ => Iff.rfl) (hr.procs.enter hph (by simpa using hcm)))

theorem inv_bread (hi : Inv c s h) (hnr : s.recovering = false) {p b : ℕ}
    (he : bread s p b = .ret s') : Inv c s' h := by
  have hr := hi.running hnr
  unfold bread at he
  split at he
  · simp at he
  rename_i hfree
  simp only [Outcome.ret.injEq] at he
  subst he
  have hch : ∀ x, Changed { s.fetch b with
      held := Function.update s.held b (some ⟨p, false, false⟩) } x ↔ Changed s x := by
    intro x
    by_cases hx : x = b
    · subst hx; simp [Changed, hfree]
    · simp [Changed, hx]
  refine hi.of_running hnr fetch_disk fetch_lh fetch_pc fetch_recovering
    { coherent := ?_, procs := ?_, view := ?_, unlogged := ?_, dirty := ?_, pc := ?_ }
  · intro x buf hx hd hc
    rw [hch] at hc
    exact hr.coherent.fetch x buf hx hd (by rwa [changed_congr fetch_held])
  · have hp := hr.procs
    refine { count := ?_, changed := ?_, cached := ?_, committing := ?_, exclusive := ?_ }
    · simpa using hp.count
    · intro x hd hx hc
      by_cases hxb : x = b
      · subst hxb
        simp only [Function.update_self, Option.some.injEq] at hx
        subst hx
        exact absurd hc (by simp)
      · simp only [ne_eq, hxb, not_false_eq_true, Function.update_of_ne] at hx
        simpa using hp.changed x hd hx hc
    · intro x hx
      show (s.fetch b).cache x ≠ none
      rw [fetch_cache]
      by_cases hxb : x = b
      · subst hxb
        cases hxc : s.cache x <;> simp
      · simp only [ne_eq, hxb, not_false_eq_true, Function.update_of_ne] at hx
        simpa [hxb] using hp.cached x hx
    · simpa using hp.committing
    · simpa using hp.exclusive
  · intro x hx hc
    rw [hch] at hc
    exact (fetch_view (s := s)).trans (hr.view x hx hc)
  · simpa using hr.unlogged
  · intro x
    have hd := fetch_dirty (s := s) (b := b) (x := x)
    simpa [Dirty, Unwritten] using hd.trans (hr.dirty x)
  · simpa using hr.pc

theorem inv_modify (hi : Inv c s h) (hnr : s.recovering = false) {p b : ℕ} {data : Bytes}
    (hhome : Home c b) (he : modify s p b data = .ret s') : Inv c s' h := by
  have hr := hi.running hnr
  unfold modify at he
  split at he
  swap
  · simp at he
  rename_i hd buf hheld hcache
  split_ifs at he with hcond
  simp only [Outcome.ret.injEq] at he
  subst he
  have hch : ∀ x, x ≠ b → (Changed { s with
      cache := Function.update s.cache b (some { buf with data := data })
      held := Function.update s.held b (some { hd with changed := true }) } x ↔ Changed s x) := by
    intro x hx
    simp [Changed, hx]
  have hchb : Changed { s with
      cache := Function.update s.cache b (some { buf with data := data })
      held := Function.update s.held b (some { hd with changed := true }) } b :=
    ⟨{ hd with changed := true }, by simp, rfl⟩
  refine hi.of_running hnr rfl rfl rfl rfl
    { coherent := ?_, procs := ?_, view := ?_, unlogged := hr.unlogged, dirty := ?_, pc := hr.pc }
  · intro x bx hx hdirty hc
    by_cases hxb : x = b
    · subst hxb; exact absurd hchb hc
    · rw [hch x hxb] at hc
      exact hr.coherent x bx (by simpa [hxb] using hx) hdirty hc
  · have hp := hr.procs
    refine { count := hp.count, changed := ?_, cached := ?_, committing := hp.committing,
             exclusive := hp.exclusive }
    · intro x hx hhx hc
      by_cases hxb : x = b
      · subst hxb
        simp only [Function.update_self, Option.some.injEq] at hhx
        subst hhx
        refine ⟨hhome, ?_⟩
        show s.phase hd.owner = .inside
        rw [hcond.1]
        exact hcond.2
      · exact hp.changed x hx (by simpa [hxb] using hhx) hc
    · intro x hx
      by_cases hxb : x = b
      · subst hxb; simp
      · simpa [hxb] using hp.cached x (by simpa [hxb] using hx)
  · intro x hx hc
    by_cases hxb : x = b
    · subst hxb; exact absurd hchb hc
    · rw [hch x hxb] at hc
      simpa [State.view, hxb] using hr.view x hx hc
  · intro x
    refine Iff.trans ?_ (hr.dirty x)
    by_cases hxb : x = b
    · subst hxb; simp [Dirty, hcache]
    · simp [Dirty, hxb]

theorem inv_logWrite (hi : Inv c s h) (hnr : s.recovering = false) {p b : ℕ}
    (he : logWrite c s p b = .ret s') : Inv c s' h := by
  have hr := hi.running hnr
  unfold logWrite at he
  split at he
  swap
  · simp at he
  rename_i hd hheld
  split_ifs at he
  simp only [Outcome.ret.injEq] at he
  subst he
  have hch : ∀ x, Changed { s with
      held := Function.update s.held b (some { hd with checked := true }) } x ↔ Changed s x := by
    intro x
    by_cases hx : x = b
    · subst hx; simp [Changed, hheld]
    · simp [Changed, hx]
  have hp := hr.procs
  refine hi.of_running hnr rfl rfl rfl rfl (hr.of_procs rfl rfl rfl rfl hch
    { count := hp.count, changed := ?_, cached := ?_, committing := hp.committing,
      exclusive := hp.exclusive })
  · intro x hx hhx hc
    by_cases hxb : x = b
    · subst hxb
      simp only [Function.update_self, Option.some.injEq] at hhx
      subst hhx
      exact hp.changed x hd hheld hc
    · exact hp.changed x hx (by simpa [hxb] using hhx) hc
  · intro x hx
    by_cases hxb : x = b
    · subst hxb; exact hp.cached x (by simp [hheld])
    · exact hp.cached x (by simpa [hxb] using hx)

theorem inv_brelse (hi : Inv c s h) (hnr : s.recovering = false) {p b : ℕ}
    (hal : ∀ hd, s.held b = some hd → hd.changed = false)
    (he : brelse s p b = .ret s') : Inv c s' h := by
  have hr := hi.running hnr
  unfold brelse at he
  split at he
  swap
  · simp at he
  rename_i hd hheld
  split_ifs at he
  simp only [Outcome.ret.injEq] at he
  subst he
  have hch : ∀ x, Changed { s with held := Function.update s.held b none } x ↔ Changed s x := by
    intro x
    by_cases hx : x = b
    · subst hx; simp [Changed, hheld, hal hd hheld]
    · simp [Changed, hx]
  have hp := hr.procs
  refine hi.of_running hnr rfl rfl rfl rfl (hr.of_procs rfl rfl rfl rfl hch
    { count := hp.count, changed := ?_, cached := ?_, committing := hp.committing,
      exclusive := hp.exclusive })
  · intro x hx hhx hc
    by_cases hxb : x = b
    · subst hxb; simp at hhx
    · exact hp.changed x hx (by simpa [hxb] using hhx) hc
  · intro x hx
    by_cases hxb : x = b
    · subst hxb; simp at hx
    · exact hp.cached x (by simpa [hxb] using hx)

theorem inv_evict (hi : Inv c s h) (hnr : s.recovering = false) {b : ℕ}
    (he : evict s b = .ret s') : Inv c s' h := by
  have hr := hi.running hnr
  unfold evict at he
  split at he
  swap
  · simp at he
  rename_i buf hcache hfree
  split_ifs at he with hdirty
  simp only [Outcome.ret.injEq] at he
  subst he
  have hp := hr.procs
  have hnc : ¬Changed s b := by simp [Changed, hfree]
  have hdata : buf.data = s.disk b := hr.coherent b buf hcache (by simpa using hdirty) hnc
  refine hi.of_running hnr rfl rfl rfl rfl
    { coherent := ?_, procs := ?_, view := ?_, unlogged := hr.unlogged, dirty := ?_, pc := hr.pc }
  · intro x bx hx hd hc
    by_cases hxb : x = b
    · subst hxb; simp at hx
    · exact hr.coherent x bx (by simpa [hxb] using hx) hd hc
  · refine { count := hp.count, changed := hp.changed, cached := ?_,
             committing := hp.committing, exclusive := hp.exclusive }
    intro x hx
    by_cases hxb : x = b
    · subst hxb; exact absurd hfree hx
    · simpa [hxb] using hp.cached x hx
  · intro x hx hc
    rw [← hr.view x hx hc]
    by_cases hxb : x = b
    · subst hxb; simp [State.view, hcache, hdata]
    · simp [State.view, hxb]
  · intro x
    refine Iff.trans ?_ (hr.dirty x)
    by_cases hxb : x = b
    · subst hxb; simp [Dirty, hcache, hdirty]
    · simp [Dirty, hxb]

theorem Running.not_committing (hr : Running c s h) {p : ℕ} (hp : s.phase p = .inside) :
    s.committing = false ∧ s.pc = .idle := by
  obtain ⟨l, -, hlen, hl⟩ := hr.procs.count
  have hpl : p ∈ l := (hl p).mp hp
  have hpos : 0 < s.outstanding := by
    rw [← hlen]
    exact List.length_pos_of_mem hpl
  have hcm : s.committing = false := by
    by_contra hne
    have := hr.procs.exclusive (by simpa using hne)
    omega
  refine ⟨hcm, ?_⟩
  by_contra hpc
  have := hr.procs.committing.mpr hpc
  simp [hcm] at this

theorem unwritten_idle (hpc : ∀ t, s.pc ≠ .install t) (b : ℕ) :
    Unwritten s b ↔ b ∈ s.lh.blocks := by
  rw [Header.mem_blocks]
  refine ⟨fun ⟨i, hi, hb, _⟩ => ⟨i, hi, hb⟩, fun ⟨i, hi, hb⟩ => ⟨i, hi, hb, ?_⟩⟩
  intro t ht
  exact absurd ht (hpc t)

theorem Listed.add {lh : Header} {b : ℕ} (hl : Listed c lh) (hb : Home c b)
    (hfit : b ∈ lh.blocks ∨ lh.n + 2 ≤ c.size) : Listed c (lh.add b) where
  fits := by
    by_cases hm : b ∈ lh.blocks
    · rw [Header.add_of_mem hm]; exact hl.fits
    · have := hfit.resolve_left hm
      rw [Header.add_n_of_not_mem hm]
      omega
  home x hx := by
    rcases Header.mem_add_blocks.mp hx with hx | rfl
    · exact hl.home x hx
    · exact hb
  nodup := Header.add_nodup hl.nodup

theorem inv_logAppend (hi : Inv c s h) (hnr : s.recovering = false) {p b : ℕ}
    (hal : Allowed c s (.logAppend p b)) (he : logAppend s p b = .ret s') :
    Inv c s' (h.after s (.logAppend p b)) := by
  have hr := hi.running hnr
  obtain ⟨hin, hhome, hfit⟩ := hal
  obtain ⟨hcm, hpc⟩ := hr.not_committing hin
  have hni : ∀ t, s.pc ≠ .install t := by simp [hpc]
  unfold logAppend at he
  split at he
  swap
  · simp at he
  rename_i hd buf hheld hcache
  split_ifs at he
  simp only [Outcome.ret.injEq] at he
  subst he
  have hview : s.view b = buf.data := by simp [State.view, hcache]
  have hp := hr.procs
  refine
    { recov := hi.recov
      listed := fun _ => (hi.listed hr.pc).add hhome (hfit.imp_right And.right)
      stage := ?_
      running := fun _ =>
        { coherent := ?_, procs := ?_, view := ?_, unlogged := ?_, dirty := ?_, pc := hr.pc }
      recovering := fun ht => absurd (hnr.symm.trans ht) (by simp) }
  · have hst := hi.stage
    simp only [hpc, Stage] at hst ⊢
    exact hst
  · intro x bx hx hdirty hc
    by_cases hxb : x = b
    · subst hxb
      simp only [Function.update_self, Option.some.injEq] at hx
      subst hx
      simp at hdirty
    · exact hr.coherent x bx (by simpa [hxb] using hx) hdirty (by simpa [Changed, hxb] using hc)
  · refine { count := hp.count, changed := ?_, cached := ?_, committing := hp.committing,
             exclusive := hp.exclusive }
    · intro x hx hhx hc
      by_cases hxb : x = b
      · subst hxb
        simp only [Function.update_self, Option.some.injEq] at hhx
        subst hhx
        simp at hc
      · exact hp.changed x hx (by simpa [hxb] using hhx) hc
    · intro x hx
      by_cases hxb : x = b
      · subst hxb; simp
      · simpa [hxb] using hp.cached x (by simpa [hxb] using hx)
  · intro x hx hc
    by_cases hxb : x = b
    · subst hxb; simp [State.view, Hist.after, hcache]
    · simpa [State.view, Hist.after, hxb] using
        hr.view x hx (by simpa [Changed, hxb] using hc)
  · intro x hx hnl
    rw [Header.mem_add_blocks, not_or] at hnl
    simpa [Hist.after, hnl.2] using hr.unlogged x hx hnl.1
  · intro x
    have hold := (hr.dirty x).trans (unwritten_idle hni x)
    rw [unwritten_idle (by simpa using hni)]
    simp only [Header.mem_add_blocks, ← hold]
    by_cases hxb : x = b
    · subst hxb; simp [Dirty]
    · simp [Dirty, hxb]

theorem inv_endOp (hi : Inv c s h) (hnr : s.recovering = false) {p : ℕ}
    (hal : Allowed c s (.endOp p)) (he : endOp s p = .ret s') : Inv c s' h := by
  have hr := hi.running hnr
  have hp := hr.procs
  unfold endOp at he
  split_ifs at he with hin hcm hlast
  · -- the last operation leaves: nobody else is inside, so no buffer is changed
    obtain ⟨-, hpc⟩ := hr.not_committing hin
    obtain ⟨l, hnd, hlen, hl⟩ := hp.count
    have hpl : p ∈ l := (hl p).mp hin
    have honly : ∀ q, s.phase q = .inside → q = p := by
      intro q hq
      have hlen1 : l.length = 1 := by
        have := List.length_pos_of_mem hpl
        omega
      obtain ⟨a, rfl⟩ := List.length_eq_one_iff.mp hlen1
      have hpa : p = a := by simpa using hpl
      have hqa : q = a := by simpa using (hl q).mp hq
      rw [hqa, hpa]
    have hnone : ∀ b hd, s.held b = some hd → hd.changed = false := by
      intro b hd hb
      by_contra hne
      have hin' := (hp.changed b hd hb (by simpa using hne)).2
      exact hne (by simpa using hal b hd hb (honly _ hin'))
    simp only [Outcome.ret.injEq] at he
    subst he
    have hst := hi.stage
    simp only [hpc, Stage] at hst
    have hni : ∀ t, s.pc ≠ .install t := by simp [hpc]
    refine
      { recov := hi.recov
        listed := fun _ => hi.listed hr.pc
        stage := ?_
        running := fun _ =>
          { coherent := hr.coherent, procs := ?_, view := hr.view, unlogged := hr.unlogged,
            dirty := ?_, pc := ?_ }
        recovering := fun ht => absurd (hnr.symm.trans ht) (by simp) }
    · by_cases hn : 0 < s.lh.n
      · simp only [commitPc, hn, if_true, Stage]
        exact ⟨hst, hn, Nat.zero_le _, by simp⟩
      · simp only [commitPc, hn, if_false, Stage]
        exact ⟨hst, by simp only [State.setPhase]; omega⟩
    · refine { count := ⟨[], by simp, by simp, fun q => ?_⟩, changed := ?_, cached := hp.cached,
               committing := ?_, exclusive := fun _ => rfl }
      · by_cases hq : q = p
        · subst hq; simp [State.setPhase]
        · simp [State.setPhase, hq, mt (honly q) hq]
      · intro b hd hb hc
        exact absurd (hnone b hd hb) (by simp [hc])
      · by_cases hn : 0 < s.lh.n <;> simp [commitPc, hn]
    · intro x
      rw [unwritten_idle (s := { s.setPhase p .committer with
        outstanding := 0, committing := true, pc := commitPc s.lh })
        (by intro t; by_cases hn : 0 < s.lh.n <;> simp [commitPc, hn])]
      exact (hr.dirty x).trans (unwritten_idle hni x)
    · by_cases hn : 0 < s.lh.n <;> simp [commitPc, hn]
  · obtain ⟨l, hnd, hlen, hl⟩ := hp.count
    have hpl : p ∈ l := (hl p).mp hin
    simp only [Outcome.ret.injEq] at he
    subst he
    have hphase : ∀ q, ({ (s.setPhase p .outside).wakeup with
        outstanding := s.outstanding - 1 } : State).phase q = .inside ↔
        q ≠ p ∧ s.phase q = .inside := by
      intro q
      by_cases hq : q = p
      · subst hq; simp [State.setPhase, State.wakeup]
      · cases hsq : s.phase q <;> simp [State.setPhase, State.wakeup, hq, hsq]
    refine hi.of_running hnr rfl rfl rfl rfl (hr.of_procs rfl rfl rfl rfl (fun _ => Iff.rfl)
      { count := ⟨l.erase p, hnd.erase p, ?_, fun q => ?_⟩, changed := ?_, cached := hp.cached,
        committing := hp.committing, exclusive := ?_ })
    · rw [List.length_erase_of_mem hpl, hlen]
    · rw [hphase, hnd.mem_erase_iff, hl]
    · intro b hd hb hc
      have hold := hp.changed b hd hb hc
      refine ⟨hold.1, (hphase _).mpr ⟨?_, hold.2⟩⟩
      intro hop
      exact absurd (hal b hd hb hop) (by simp [hc])
    · intro ht
      exact absurd ht (by simp [State.setPhase, State.wakeup, hcm])

end Xv6.Log
