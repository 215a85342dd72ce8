import Xv6.Log.Commit

/-!
# Crash atomicity

Every step keeps `Inv`, so a crash may fall anywhere, including inside a
recovery, and a completed recovery leaves the home blocks with the contents of
the last commit whose header reached the disk.
-/

namespace Xv6.Log
open Lib

variable {c : Config} {s s' : State} {h : Hist}

theorem inv_install_end (hi : Inv c s h) {tail : ℕ} (hpc : s.pc = .install tail)
    (htail : ¬tail < s.lh.n) : Inv c { s with lh := s.lh.clear, pc := .clear } h := by
  have hl := hi.listed (by simp [hpc])
  have hst := hi.stage
  simp only [hpc, Stage] at hst
  obtain ⟨hset, hle, hn, hblock, hinst⟩ := hst
  have hblocks : (Header.decode (s.disk c.start)).blocks = s.lh.blocks :=
    Header.blocks_congr hn hblock
  have hall : ∀ b, Home c b → s.disk b = h.committed b := by
    intro b hb
    by_cases hm : b ∈ s.lh.blocks
    · obtain ⟨i, hin, rfl⟩ := Header.mem_blocks.mp hm
      exact hinst i (by omega)
    · exact hi.recov.rest b hb (by rwa [hblocks])
  refine
    { recov := hi.recov
      listed := fun _ => ⟨c.size_pos, by simp [Header.clear, Header.blocks],
        by simp [Header.clear, Header.blocks]⟩
      stage := ⟨hset, rfl, hall⟩
      running := fun hnr => ?_
      recovering := fun hrt =>
        { clean := (hi.recovering hrt).clean
          free := (hi.recovering hrt).free
          outside := (hi.recovering hrt).outside
          outstanding := (hi.recovering hrt).outstanding
          committing := (hi.recovering hrt).committing
          pc := Or.inr (Or.inr rfl) } }
  have hr := hi.running hnr
  have hcm := hr.committing_of_pc (by simp [hpc])
  refine
    { coherent := hr.coherent
      procs :=
        { count := hr.procs.count
          changed := hr.procs.changed
          cached := hr.procs.cached
          committing := ⟨fun _ => by simp, fun _ => hcm⟩
          exclusive := hr.procs.exclusive }
      view := hr.view
      unlogged := fun b hb _ => (hset b hb).trans (hall b hb).symm
      dirty := fun x => ?_
      pc := by simp }
  refine (hr.dirty x).trans ⟨?_, ?_⟩
  · rintro ⟨i, hin, -, ht⟩
    have := ht tail hpc
    omega
  · rintro ⟨i, hin, -⟩
    simp [Header.clear] at hin

theorem clear_recoverable (hi : Inv c s h) (hpc : s.pc = .clear) {s₁ : State}
    (hwh : writeHead c s = .ret s₁) :
    Recoverable c s₁.disk h.committed ∧ (Header.decode (s₁.disk c.start)).n = 0 ∧
      ∀ b, Home c b → s₁.disk b = h.committed b := by
  have hst := hi.stage
  simp only [hpc, Stage] at hst
  obtain ⟨-, hlh, hall⟩ := hst
  have hw := writeHead_wrote hwh
  have hn : (Header.decode (s₁.disk c.start)).n = 0 := by
    rw [hw.disk, if_pos rfl, Header.decode_encode_n _ (by rw [hlh]; decide), hlh]
  have hhome : ∀ b, Home c b → s₁.disk b = h.committed b := by
    intro b hb
    rw [hw.disk, if_neg fun heq : b = c.start => not_home_start (heq ▸ hb)]
    exact hall b hb
  refine ⟨{ listed := ?_, copied := by simp [hn], rest := fun b hb _ => hhome b hb }, hn, hhome⟩
  exact ⟨by rw [hn]; exact c.size_pos, by simp [Header.blocks_nil hn],
    by simp [Header.blocks_nil hn]⟩

theorem inv_clear (hi : Inv c s h) (hpc : s.pc = .clear) {s₁ : State}
    (hwh : writeHead c s = .ret s₁) :
    Inv c { s₁ with pc := if s.recovering then .idle else .done, recovering := false } h := by
  have hl := hi.listed (by simp [hpc])
  have hst := hi.stage
  simp only [hpc, Stage] at hst
  obtain ⟨hset, hlh, hall⟩ := hst
  obtain ⟨hrec, hn, hhome⟩ := clear_recoverable hi hpc hwh
  have hw := writeHead_wrote hwh
  have hnone : ∀ pc x, ¬Unwritten { s₁ with pc := pc, recovering := false } x := by
    rintro pc x ⟨i, hin, -⟩
    simp [hw.lh, hlh] at hin
  cases hr : s.recovering with
  | false =>
    have hrun := hi.running hr
    refine
      { recov := hrec
        listed := fun _ => by rw [hw.lh]; exact hl
        stage := ⟨hn, by rw [← hlh, ← hw.lh]⟩
        running := fun _ => ?_
        recovering := fun ht => absurd ht (by simp) }
    have hwa := hrun.wrote_area (q := .done) (k := h) hl hw not_home_start (by simp [hpc])
      (by simp) (by simp) rfl (fun x => ⟨fun hx => ?_, fun hx => ?_⟩)
    · exact
        { coherent := hwa.coherent
          procs := ⟨hwa.procs.count, hwa.procs.changed, hwa.procs.cached, hwa.procs.committing,
            hwa.procs.exclusive⟩
          view := hwa.view
          unlogged := hwa.unlogged
          dirty := hwa.dirty
          pc := hwa.pc }
    · obtain ⟨i, hin, -⟩ := hx
      simp [hw.lh, hlh] at hin
    · obtain ⟨i, hin, -⟩ := hx
      omega
  | true =>
    have hb := hi.recovering hr
    have hclean := hw.clean hb.clean
    have hview : ∀ x, s₁.view x = s₁.disk x := by
      intro x
      cases hx : s₁.cache x with
      | none => simp [State.view, hx]
      | some buf => simp [State.view, hx, hclean x buf hx]
    refine
      { recov := hrec
        listed := fun _ => by rw [hw.lh]; exact hl
        stage := hn
        running := fun _ =>
          { coherent := fun x buf hx _ _ => by rw [hclean x buf hx]
            procs :=
              { count := ⟨[], by simp, by simp [hw.outstanding, hb.outstanding],
                  by simp [hw.phase, hb.outside]⟩
                changed := by simp [hw.held, hb.free]
                cached := by simp [hw.held, hb.free]
                committing := by simp [hw.committing, hb.committing]
                exclusive := by simp [hw.committing, hb.committing] }
            view := fun x hx _ => (hview x).trans ((hhome x hx).trans (hset x hx).symm)
            unlogged := fun x hx _ => (hset x hx).trans (hhome x hx).symm
            dirty := fun x => ⟨?_, fun hx => absurd hx (hnone _ x)⟩
            pc := by simp }
        recovering := fun ht => absurd ht (by simp) }
    rintro ⟨buf, hx, hd⟩
    rw [hclean x buf hx] at hd
    simp at hd

theorem inv_done (hi : Inv c s h) (hpc : s.pc = .done) :
    Inv c { s.wakeup with
      committing := false
      phase := fun p => if s.phase p = .committer then .outside else s.wakeup.phase p
      pc := .idle } h := by
  have hnr : s.recovering = false :=
    not_recovering hi (by simp [hpc]) (by simp [hpc]) (by simp [hpc])
  have hr := hi.running hnr
  have hst := hi.stage
  simp only [hpc, Stage] at hst
  have hphase : ∀ p, (if s.phase p = .committer then Phase.outside else s.wakeup.phase p) =
      .inside ↔ s.phase p = .inside := by
    intro p
    cases hp : s.phase p <;> simp [State.wakeup, hp]
  refine
    { recov := hi.recov
      listed := fun _ => hi.listed hr.pc
      stage := hst.1
      running := fun _ =>
        { coherent := hr.coherent
          procs :=
            { count := ?_
              changed := fun b hd hb hc =>
                ⟨(hr.procs.changed b hd hb hc).1, (hphase _).mpr (hr.procs.changed b hd hb hc).2⟩
              cached := hr.procs.cached
              committing := by simp
              exclusive := by simp }
          view := hr.view
          unlogged := hr.unlogged
          dirty := fun x => (hr.dirty x).trans (unwritten_congr rfl (by simp [hpc]) (by simp) x).symm
          pc := by simp }
      recovering := fun ht => absurd (hnr.symm.trans ht) (by simp) }
  obtain ⟨l, hnd, hlen, hl⟩ := hr.procs.count
  exact ⟨l, hnd, hlen, fun p => (hphase p).trans (hl p)⟩

theorem inv_readHead (hi : Inv c s h) (hpc : s.pc = .readHead) :
    Inv c { s.fetch c.start with
      lh := Header.decode ((s.fetch c.start).view c.start), pc := .install 0 } h := by
  have hrt : s.recovering = true := by
    by_contra hne
    exact (hi.running (by simpa using hne)).pc hpc
  have hb := hi.recovering hrt
  have hst := hi.stage
  simp only [hpc, Stage] at hst
  have hview : (s.fetch c.start).view c.start = s.disk c.start := by
    rw [fetch_view]
    cases hx : s.cache c.start with
    | none => simp [State.view, hx]
    | some buf => simp [State.view, hx, hb.clean _ buf hx]
  rw [hview]
  refine
    { recov := by simpa using hi.recov
      listed := fun _ => hi.recov.listed
      stage := ?_
      running := fun hf => absurd hf (by simp [hrt])
      recovering := fun _ =>
        { clean := ?_
          free := by simpa using hb.free
          outside := by simpa using hb.outside
          outstanding := by simpa using hb.outstanding
          committing := by simpa using hb.committing
          pc := Or.inr (Or.inl ⟨0, rfl⟩) } }
  · simp only [Stage, fetch_disk]
    exact ⟨hst, Nat.zero_le _, trivial, fun _ _ => trivial, by simp⟩
  · intro x buf hx
    show buf = ⟨(s.fetch c.start).disk x, false⟩
    rw [fetch_disk]
    have hx' : (s.fetch c.start).cache x = some buf := hx
    rw [fetch_cache] at hx'
    split_ifs at hx' with hxs
    · rw [hxs.1]; simpa using hx'.symm
    · exact hb.clean x buf hx'

theorem inv_boot {disk k : ℕ → Bytes} (hrec : Recoverable c disk k) : Inv c (boot disk) ⟨k, k⟩ where
  recov := hrec
  listed hne := absurd rfl hne
  stage := fun _ _ => rfl
  running hf := absurd hf (by simp [boot])
  recovering _ :=
    { clean := by simp [boot]
      free := fun _ => rfl
      outside := fun _ => rfl
      outstanding := rfl
      committing := rfl
      pc := Or.inl rfl }

theorem inv_io (hi : Inv c s h) (he : io c s = .ret s') : Inv c s' (h.after s .io) := by
  have hafter : ∀ pc, s.pc = pc → pc ≠ .writeHead → h.after s .io = h := by
    intro pc hp hne
    simp [Hist.after, hp, hne]
  unfold io at he
  cases hpc : s.pc with
  | idle => simp [hpc] at he
  | writeLog tail =>
    simp only [hpc] at he
    rw [hafter _ hpc (by simp)]
    split_ifs at he with htail
    · obtain ⟨s₁, hcopy, hret⟩ := Outcome.bind_eq_ret.mp he
      rw [← Outcome.ret.inj hret]
      exact inv_writeLog hi hpc htail hcopy
    · rw [← Outcome.ret.inj he]
      exact inv_writeLog_end hi hpc htail
  | writeHead =>
    simp only [hpc] at he
    obtain ⟨s₁, hwh, hret⟩ := Outcome.bind_eq_ret.mp he
    rw [← Outcome.ret.inj hret]
    simpa [Hist.after, hpc] using inv_writeHead hi hpc hwh
  | install tail =>
    simp only [hpc] at he
    rw [hafter _ hpc (by simp)]
    split_ifs at he with htail
    · obtain ⟨s₁, hcopy, hret⟩ := Outcome.bind_eq_ret.mp he
      rw [← Outcome.ret.inj hret]
      exact inv_install hi hpc htail hcopy
    · rw [← Outcome.ret.inj he]
      exact inv_install_end hi hpc htail
  | clear =>
    simp only [hpc] at he
    rw [hafter _ hpc (by simp)]
    obtain ⟨s₁, hwh, hret⟩ := Outcome.bind_eq_ret.mp he
    rw [← Outcome.ret.inj hret]
    exact inv_clear hi hpc hwh
  | done =>
    simp only [hpc] at he
    rw [hafter _ hpc (by simp), ← Outcome.ret.inj he]
    exact inv_done hi hpc
  | readHead =>
    simp only [hpc] at he
    split_ifs at he
    rw [hafter _ hpc (by simp), ← Outcome.ret.inj he]
    exact inv_readHead hi hpc

theorem Recovering.no_process (hb : Recovering s) (hrt : s.recovering = true) {e : Event}
    (he : step c s e = .ret s') : e = .io ∨ e = .crash ∨ ∃ b, e = .evict b := by
  cases e with
  | io => exact Or.inl rfl
  | crash => exact Or.inr (Or.inl rfl)
  | evict b => exact Or.inr (Or.inr ⟨b, rfl⟩)
  | beginOp p => simp [step, hrt] at he
  | bread p b => simp [step, hrt] at he
  | modify p b data => simp [step, modify, hb.free] at he
  | logWrite p b => simp [step, logWrite, hb.free] at he
  | logAppend p b => simp [step, logAppend, hb.free] at he
  | brelse p b => simp [step, brelse, hb.free] at he
  | endOp p => simp [step, endOp, hb.outside] at he

theorem inv_evict_recovering (hi : Inv c s h) (hrt : s.recovering = true) {b : ℕ}
    (he : evict s b = .ret s') : Inv c s' h := by
  have hb := hi.recovering hrt
  unfold evict at he
  split at he
  swap
  · simp at he
  split_ifs at he
  rw [← Outcome.ret.inj he]
  refine
    { recov := hi.recov
      listed := hi.listed
      stage := ?_
      running := fun hf => absurd (hrt.symm.trans hf) (by simp)
      recovering := fun _ => { hb with clean := fun x buf hx => ?_ } }
  · have hst := hi.stage
    cases hp : s.pc <;> simp only [hp, Stage] at hst ⊢ <;> exact hst
  · by_cases hxb : x = b
    · subst hxb; simp at hx
    · exact hb.clean x buf (by simpa [hxb] using hx)

theorem inv_step {x y : State × Hist} {e : Event} (hi : Inv c x.1 x.2) (hs : Step c x e y) :
    Inv c y.1 y.2 := by
  obtain ⟨hal, hst, hy⟩ := hs
  rw [hy]
  cases hrt : x.1.recovering with
  | true =>
    rcases (hi.recovering hrt).no_process hrt hst with rfl | rfl | ⟨b, rfl⟩
    · exact inv_io hi hst
    · rw [← Outcome.ret.inj hst]
      exact inv_boot hi.recov
    · exact inv_evict_recovering hi hrt hst
  | false =>
    cases e with
    | beginOp p =>
      simp only [step, hrt, Bool.false_eq_true, if_false] at hst
      exact inv_beginOp hi hrt hst
    | bread p b =>
      simp only [step, hrt, Bool.false_eq_true, if_false] at hst
      exact inv_bread hi hrt hst
    | modify p b data => exact inv_modify hi hrt hal hst
    | logWrite p b => exact inv_logWrite hi hrt hst
    | logAppend p b => exact inv_logAppend hi hrt hal hst
    | brelse p b => exact inv_brelse hi hrt hal hst
    | endOp p => exact inv_endOp hi hrt hal hst
    | evict b => exact inv_evict hi hrt hst
    | io => exact inv_io hi hst
    | crash =>
      rw [← Outcome.ret.inj hst]
      exact inv_boot hi.recov

theorem recoverable_of_empty {disk : ℕ → Bytes} (hn : (Header.decode (disk c.start)).n = 0) :
    Recoverable c disk disk where
  listed := ⟨by rw [hn]; exact c.size_pos, by simp [Header.blocks_nil hn],
    by simp [Header.blocks_nil hn]⟩
  copied := by simp [hn]
  rest _ _ _ := rfl

theorem inv_run {disk : ℕ → Bytes} (hn : (Header.decode (disk c.start)).n = 0) {es : List Event}
    {x : State × Hist} (hrun : Runs (Step c) (start disk) es x) : Inv c x.1 x.2 :=
  hrun.invariant (I := fun x => Inv c x.1 x.2) (fun _ _ _ => inv_step)
    (inv_boot (recoverable_of_empty hn))

/-- A recovery, cut and restarted or not, keeps the committed contents and, when
it is through, is idle. -/
theorem recovery_run {k : ℕ → Bytes} {x y : State × Hist} {es : List Event}
    (hx : Inv c x.1 x.2) (hk : x.2.committed = k) (hrt : x.1.recovering = true)
    (hes : ∀ e ∈ es, e = .io ∨ e = .crash ∨ ∃ b, e = .evict b) (hrun : Runs (Step c) x es y) :
    Inv c y.1 y.2 ∧ y.2.committed = k ∧ (y.1.recovering = false → y.1.pc = .idle) := by
  induction hrun with
  | nil => exact ⟨hx, hk, fun hf => absurd (hrt.symm.trans hf) (by simp)⟩
  | @snoc t u es e _ hstep ih =>
    obtain ⟨hi, hk', hpc⟩ := ih fun e' he' => hes e' (by simp [he'])
    have hu := inv_step hi hstep
    obtain ⟨-, hst, hy⟩ := hstep
    rcases hes e (by simp) with rfl | rfl | ⟨b, rfl⟩
    · -- an io step from an idle machine does not exist, so the recovery is still on
      have hrt' : t.1.recovering = true := by
        by_contra hne
        have hidle := hpc (by simpa using hne)
        simp [step, io, hidle] at hst
      have hb := hi.recovering hrt'
      refine ⟨hu, ?_, fun hf => ?_⟩
      · have hnw : t.1.pc ≠ .writeHead := by
          rcases hb.pc with hp | ⟨i, hp⟩ | hp <;> simp [hp]
        rw [hy]
        simpa [Hist.after, hnw] using hk'
      · simp only [step, io] at hst
        rcases hb.pc with hp | ⟨i, hp⟩ | hp
        · simp only [hp] at hst
          split_ifs at hst
          rw [← Outcome.ret.inj hst] at hf
          simp [hrt'] at hf
        · simp only [hp] at hst
          split_ifs at hst
          · obtain ⟨s₁, hcopy, hret⟩ := Outcome.bind_eq_ret.mp hst
            rw [← Outcome.ret.inj hret] at hf
            have := (copyBlock_wrote hcopy).recovering
            simp [this, hrt'] at hf
          · rw [← Outcome.ret.inj hst] at hf
            simp [hrt'] at hf
        · simp only [hp, hrt', if_true] at hst
          obtain ⟨s₁, hcopy, hret⟩ := Outcome.bind_eq_ret.mp hst
          rw [← Outcome.ret.inj hret]
    · refine ⟨hu, by rw [hy]; exact hk', fun hf => ?_⟩
      rw [← Outcome.ret.inj hst] at hf
      simp [boot] at hf
    · have hev : u.1.recovering = t.1.recovering ∧ u.1.pc = t.1.pc := by
        simp only [step, evict] at hst
        split at hst
        · split_ifs at hst
          rw [← Outcome.ret.inj hst]
          exact ⟨rfl, rfl⟩
        · simp at hst
      exact ⟨hu, by rw [hy]; exact hk', by rwa [hev.1, hev.2]⟩

/-- After any run of the log a crash, followed by a recovery that may itself be
cut at any block write and rerun, leaves the home blocks with the logical
contents at the last commit whose header reached the disk, and an empty log. -/
theorem crash_recovery_atomic (c : Config) (disk : ℕ → Bytes)
    (hempty : (Header.decode (disk c.start)).n = 0) (es cuts : List Event) (x y : State × Hist)
    (hrun : Runs (Step c) (start disk) es x)
    (hcuts : ∀ e ∈ cuts, e = .io ∨ e = .crash ∨ ∃ b, e = .evict b)
    (hrecover : Runs (Step c) (boot x.1.disk, x.2.after x.1 .crash) cuts y)
    (hdone : y.1.recovering = false) :
    (∀ b, Home c b → y.1.disk b = x.2.committed b) ∧ (Header.decode (y.1.disk c.start)).n = 0 := by
  have hx : Inv c (boot x.1.disk) (x.2.after x.1 .crash) := inv_boot (inv_run hempty hrun).recov
  obtain ⟨hy, hk, hpc⟩ :=
    recovery_run (x := (boot x.1.disk, x.2.after x.1 .crash)) hx rfl rfl hcuts hrecover
  have hst := hy.stage
  rw [hpc hdone] at hst
  refine ⟨fun b hb => ?_, hst⟩
  rw [show x.2.committed = y.2.committed from hk.symm]
  exact hy.recov.rest b hb (by simp [Header.blocks_nil hst])

def sampleRun : List Event :=
  [.io, .io, .io, .beginOp 0, .bread 0 40, .modify 0 40 fun _ => 7, .logWrite 0 40,
    .logAppend 0 40, .brelse 0 40, .endOp 0, .io, .io, .io]

theorem sample_runs : ∃ x y : State × Hist,
    Runs (Step mkfsLog) (start fun _ _ => 0) sampleRun x ∧
    Runs (Step mkfsLog) (boot x.1.disk, x.2.after x.1 .crash)
      [.io, .io, .crash, .io, .io, .io, .io] y ∧
    y.1.recovering = false ∧ x.2.committed 40 = fun _ => 7 := by
  have hhome : Home mkfsLog 40 := by unfold Home; decide
  refine ⟨_, _,
    .cons (.intro trivial rfl) <| .cons (.intro trivial rfl) <| .cons (.intro trivial rfl) <|
    .cons (.intro trivial rfl) <| .cons (.intro trivial rfl) <| .cons (.intro hhome rfl) <|
    .cons (.intro trivial rfl) <| .cons (.intro ⟨rfl, hhome, Or.inr (by decide)⟩ rfl) <|
    .cons (.intro ?_ rfl) <| .cons (.intro ?_ rfl) <|
    .cons (.intro trivial rfl) <| .cons (.intro trivial rfl) <| .cons (.intro trivial rfl) <|
    .nil _,
    .cons (.intro trivial rfl) <| .cons (.intro trivial rfl) <| .cons (.intro trivial rfl) <|
    .cons (.intro trivial rfl) <| .cons (.intro trivial rfl) <| .cons (.intro trivial rfl) <|
    .cons (.intro trivial rfl) <| .nil _, rfl, rfl⟩
  · intro hd he
    rw [← Option.some.inj he]
  · intro b hd he
    have hheld : Function.update (Function.update (Function.update (Function.update
        (Function.update (fun _ => none) 40 (some ⟨0, false, false⟩))
        40 (some ⟨0, true, false⟩)) 40 (some ⟨0, true, true⟩)) 40 (some ⟨0, false, false⟩))
        40 none b = some hd := he
    by_cases hb : b = 40 <;> simp [hb] at hheld

theorem crash_recovery_atomic_sample : ∃ x y : State × Hist,
    Runs (Step mkfsLog) (start fun _ _ => 0) sampleRun x ∧
    (x.2.committed 40 = fun _ => 7) ∧ y.1.disk 40 = x.2.committed 40 ∧
    (Header.decode (y.1.disk mkfsLog.start)).n = 0 := by
  obtain ⟨x, y, hx, hy, hdone, h7⟩ := sample_runs
  have hatomic := crash_recovery_atomic mkfsLog (fun _ _ => 0) rfl sampleRun _ x y hx
    (by simp) hy hdone
  exact ⟨x, y, hx, h7, hatomic.1 40 (by unfold Home; decide), hatomic.2⟩

end Xv6.Log
