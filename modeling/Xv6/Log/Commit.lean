import Xv6.Log.Steps

/-!
# Block writes of commit and recovery keep the invariant

One lemma for each program point of `commit` and `recover_from_log`. Writes to
the log area leave the home blocks alone; a write of `install_trans` gives a
listed home block the contents of its log copy, which are the committed ones.
-/

namespace Xv6.Log
open Lib

variable {c : Config} {s s' : State} {h : Hist}

theorem not_home_log {lh : Header} (hl : Listed c lh) {i : ℕ} (hi : i < lh.n) :
    ¬Home c (c.start + i + 1) := by
  have := hl.fits
  rintro ⟨-, h | h⟩ <;> omega

theorem not_home_start : ¬Home c c.start := by
  have := c.size_pos
  rintro ⟨-, h | h⟩ <;> omega

theorem Running.not_changed (hr : Running c s h) (hcm : s.committing = true) (b : ℕ) :
    ¬Changed s b := by
  rintro ⟨hd, hb, hc⟩
  have hin := (hr.procs.changed b hd hb hc).2
  simp [(hr.not_committing hin).1] at hcm

theorem Running.committing_of_pc (hr : Running c s h) (hpc : s.pc ≠ .idle) :
    s.committing = true := hr.procs.committing.mpr hpc

theorem Running.clean_area (hr : Running c s h) (hl : Listed c s.lh) {b : ℕ} (hb : ¬Home c b) :
    ¬Dirty s b := by
  rw [hr.dirty]
  rintro ⟨i, hi, rfl, -⟩
  exact hb (hl.home _ (Header.block_mem hi))

theorem Procs.wrote {b : ℕ} {data : Bytes} {pc : Pc} (hp : Procs c s) (hw : Wrote s s' b data)
    (hpc : s.pc ≠ .idle) (hpc' : pc ≠ .idle) : Procs c { s' with pc := pc } where
  count := by simpa only [hw.outstanding, hw.phase] using hp.count
  changed := by simpa only [hw.held, hw.phase] using hp.changed
  cached x hx := hw.cached x (hp.cached x (by simpa only [hw.held] using hx))
  committing := by
    simp only [hw.committing]
    exact ⟨fun _ => hpc', fun _ => hp.committing.mpr hpc⟩
  exclusive := by simpa only [hw.committing, hw.outstanding] using hp.exclusive

theorem Running.wrote_area {b : ℕ} {data : Bytes} {q : Pc} {k : Hist} (hr : Running c s h)
    (hl : Listed c s.lh) (hw : Wrote s s' b data) (hb : ¬Home c b) (hpc : s.pc ≠ .idle)
    (hpc' : q ≠ .idle) (hrh : q ≠ .readHead) (hk : k.logical = h.logical)
    (hun : ∀ x, Unwritten { s' with pc := q } x ↔ Unwritten s x) :
    Running c { s' with pc := q } k where
  coherent := hw.coherent hr.coherent
  procs := hr.procs.wrote hw hpc hpc'
  view x hx hc := by
    have hxb : x ≠ b := fun heq => hb (heq ▸ hx)
    have hv := hw.view x
    rw [if_neg hxb] at hv
    have hold := hr.view x hx (by simpa [Changed, hw.held] using hc)
    rw [hk, ← hold, ← hv]
    rfl
  unlogged x hx hnl := by
    have hxb : x ≠ b := fun heq => hb (heq ▸ hx)
    have hd := hw.disk x
    rw [if_neg hxb] at hd
    show k.logical x = s'.disk x
    rw [hk, hd]
    exact hr.unlogged x hx (by simpa only [hw.lh] using hnl)
  dirty x := by
    refine (hw.dirty x).trans ?_
    rw [hun x, ← hr.dirty x]
    refine ⟨And.right, fun hx => ⟨fun heq => ?_, hx⟩⟩
    exact hr.clean_area hl hb (heq ▸ hx)
  pc := hrh

theorem Recoverable.wrote_log {disk disk' k : ℕ → Bytes} {b : ℕ} {data : Bytes}
    (hrec : Recoverable c disk k) (hn : (Header.decode (disk c.start)).n = 0)
    (hd : ∀ x, disk' x = if x = b then data else disk x) (hb : ¬Home c b) (hne : b ≠ c.start) :
    Recoverable c disk' k := by
  have hs : disk' c.start = disk c.start := by rw [hd, if_neg (Ne.symm hne)]
  refine { listed := by rw [hs]; exact hrec.listed, copied := ?_, rest := ?_ }
  · rw [hs, hn]; simp
  · intro x hx hnl
    rw [hs] at hnl
    rw [hd, if_neg fun heq : x = b => hb (heq ▸ hx)]
    exact hrec.rest x hx hnl

theorem not_recovering (hi : Inv c s h) (h1 : s.pc ≠ .readHead) (h2 : ∀ t, s.pc ≠ .install t)
    (h3 : s.pc ≠ .clear) : s.recovering = false := by
  by_contra hne
  rcases (hi.recovering (by simpa using hne)).pc with hp | ⟨t, hp⟩ | hp
  · exact h1 hp
  · exact h2 t hp
  · exact h3 hp

theorem unwritten_congr {pc : Pc} (hlh : s'.lh = s.lh)
    (hpc : ∀ t, s.pc ≠ .install t) (hpc' : ∀ t, pc = .install t → t = 0) (x : ℕ) :
    Unwritten { s' with pc := pc } x ↔ Unwritten s x := by
  simp only [Unwritten, hlh]
  refine exists_congr fun i => and_congr_right fun _ => and_congr_right fun _ => ?_
  refine ⟨fun _ t ht => absurd ht (hpc t), fun _ t ht => ?_⟩
  rw [hpc' t ht]
  exact Nat.zero_le i

theorem inv_writeLog (hi : Inv c s h) {tail : ℕ} (hpc : s.pc = .writeLog tail)
    (htail : tail < s.lh.n) {s₁ : State}
    (hcopy : copyBlock s (s.lh.block tail) (c.start + tail + 1) = .ret s₁) :
    Inv c { s₁ with pc := .writeLog (tail + 1) } h := by
  have hnr : s.recovering = false :=
    not_recovering hi (by simp [hpc]) (by simp [hpc]) (by simp [hpc])
  have hr := hi.running hnr
  have hl := hi.listed hr.pc
  have hst := hi.stage
  simp only [hpc, Stage] at hst
  obtain ⟨hq, hpos, hle, hcopied⟩ := hst
  have hw := copyBlock_wrote hcopy
  have hb := not_home_log hl htail
  have hne : c.start + tail + 1 ≠ c.start := by omega
  have hcm := hr.committing_of_pc (by simp [hpc])
  -- the pinned buffer holds the logical contents
  have hdata : s.view (s.lh.block tail) = h.logical (s.lh.block tail) :=
    hr.view _ (hl.home _ (Header.block_mem htail)) (hr.not_changed hcm _)
  refine
    { recov := hi.recov.wrote_log hq hw.disk hb hne
      listed := fun _ => by rw [hw.lh]; exact hl
      stage := ?_
      running := fun _ => hr.wrote_area hl hw hb (by simp [hpc]) (by simp) (by simp) rfl
        (unwritten_congr hw.lh (by simp [hpc]) (by simp))
      recovering := fun ht => absurd (hw.recovering.symm.trans ht) (by simp [hnr]) }
  simp only [Stage, hw.lh, hw.disk]
  refine ⟨by rw [if_neg (Ne.symm hne)]; exact hq, hpos, htail, fun i hit => ?_⟩
  by_cases hie : i = tail
  · subst hie; rw [if_pos rfl, hdata]
  · rw [if_neg (by omega)]
    exact hcopied i (by omega)

theorem inv_writeLog_end (hi : Inv c s h) {tail : ℕ} (hpc : s.pc = .writeLog tail)
    (htail : ¬tail < s.lh.n) : Inv c { s with pc := .writeHead } h := by
  have hnr : s.recovering = false :=
    not_recovering hi (by simp [hpc]) (by simp [hpc]) (by simp [hpc])
  have hr := hi.running hnr
  have hst := hi.stage
  simp only [hpc, Stage] at hst
  have hcm := hr.committing_of_pc (by simp [hpc])
  exact
    { recov := hi.recov
      listed := fun _ => hi.listed hr.pc
      stage := ⟨hst.1, hst.2.1, fun i hin => hst.2.2.2 i (lt_of_lt_of_le hin (not_lt.mp htail))⟩
      running := fun _ =>
        { coherent := hr.coherent
          procs :=
            { count := hr.procs.count
              changed := hr.procs.changed
              cached := hr.procs.cached
              committing := ⟨fun _ => by simp, fun _ => hcm⟩
              exclusive := hr.procs.exclusive }
          view := hr.view
          unlogged := hr.unlogged
          dirty := fun x => (hr.dirty x).trans
            (unwritten_congr rfl (by simp [hpc]) (by simp) x).symm
          pc := by simp }
      recovering := fun ht => absurd (hnr.symm.trans ht) (by simp) }

theorem inv_writeHead (hi : Inv c s h) (hpc : s.pc = .writeHead) {s₁ : State}
    (hwh : writeHead c s = .ret s₁) :
    Inv c { s₁ with pc := .install 0 } { h with committed := h.logical } := by
  have hnr : s.recovering = false :=
    not_recovering hi (by simp [hpc]) (by simp [hpc]) (by simp [hpc])
  have hr := hi.running hnr
  have hl := hi.listed hr.pc
  have hst := hi.stage
  simp only [hpc, Stage] at hst
  have hw := writeHead_wrote hwh
  have hs : s₁.disk c.start = s.lh.encode (s.view c.start) := by rw [hw.disk, if_pos rfl]
  have hn : (Header.decode (s₁.disk c.start)).n = s.lh.n := by
    rw [hs]
    exact Header.decode_encode_n _ (by have := hl.fits; have := c.size_lt; omega)
  have hblock : ∀ i < s.lh.n, (Header.decode (s₁.disk c.start)).block i = s.lh.block i := by
    intro i hin
    rw [hs]
    exact Header.decode_encode_block _ hin (hl.home _ (Header.block_mem hin)).1
  have hblocks : (Header.decode (s₁.disk c.start)).blocks = s.lh.blocks :=
    Header.blocks_congr hn hblock
  refine
    { recov :=
        { listed := ⟨by rw [hn]; exact hl.fits, by rw [hblocks]; exact hl.home,
            by rw [hblocks]; exact hl.nodup⟩
          copied := ?_
          rest := ?_ }
      listed := fun _ => by rw [hw.lh]; exact hl
      stage := ?_
      running := fun _ => hr.wrote_area hl hw not_home_start (by simp [hpc]) (by simp) (by simp)
        rfl (unwritten_congr hw.lh (by simp [hpc]) (by simp))
      recovering := fun ht => absurd (hw.recovering.symm.trans ht) (by simp [hnr]) }
  · intro i hin
    simp only [hn] at hin
    rw [hblock i hin, hw.disk, if_neg (by omega)]
    exact hst.2.2 i hin
  · intro b hb hnl
    simp only [hblocks] at hnl
    rw [hw.disk, if_neg fun heq => not_home_start (heq ▸ hb)]
    exact (hr.unlogged b hb hnl).symm
  · simp only [Stage, hw.lh]
    exact ⟨fun _ _ => rfl, Nat.zero_le _, hn, hblock, by simp⟩

theorem install_data (hi : Inv c s h) {tail : ℕ} (hpc : s.pc = .install tail)
    (htail : tail < s.lh.n) :
    s.view (c.start + tail + 1) = h.committed (s.lh.block tail) := by
  have hl := hi.listed (by simp [hpc])
  have hst := hi.stage
  simp only [hpc, Stage] at hst
  obtain ⟨-, -, hn, hblock, -⟩ := hst
  have hcopy : s.disk (c.start + tail + 1) = h.committed (s.lh.block tail) := by
    rw [hi.recov.copied tail (by omega), hblock tail htail]
  rw [← hcopy]
  cases hrec : s.recovering with
  | false =>
    have hr := hi.running hrec
    exact hr.coherent.view_eq (hr.clean_area hl (not_home_log hl htail))
      (hr.not_changed (hr.committing_of_pc (by simp [hpc])) _)
  | true =>
    have hclean := (hi.recovering hrec).clean (c.start + tail + 1)
    cases hcache : s.cache (c.start + tail + 1) with
    | none => simp [State.view, hcache]
    | some buf => simp [State.view, hcache, hclean buf hcache]

theorem inv_install (hi : Inv c s h) {tail : ℕ} (hpc : s.pc = .install tail)
    (htail : tail < s.lh.n) {s₁ : State}
    (hcopy : copyBlock s (c.start + tail + 1) (s.lh.block tail) = .ret s₁) :
    Inv c { s₁ with pc := .install (tail + 1) } h := by
  have hl := hi.listed (by simp [hpc])
  have hdata := install_data hi hpc htail
  have hst := hi.stage
  simp only [hpc, Stage] at hst
  obtain ⟨hset, hle, hn, hblock, hinst⟩ := hst
  have hblocks : (Header.decode (s.disk c.start)).blocks = s.lh.blocks :=
    Header.blocks_congr hn hblock
  have hw := copyBlock_wrote hcopy
  rw [hdata] at hw
  have hhome := hl.home _ (Header.block_mem htail)
  have hstart : c.start ≠ s.lh.block tail := fun heq => not_home_start (heq ▸ hhome)
  have hs : s₁.disk c.start = s.disk c.start := by rw [hw.disk, if_neg hstart]
  refine
    { recov := { listed := by rw [hs]; exact hi.recov.listed, copied := ?_, rest := ?_ }
      listed := fun _ => by rw [hw.lh]; exact hl
      stage := ?_
      running := fun hnr => ?_
      recovering := fun hrt => ?_ }
  · intro i hin
    rw [hs] at hin ⊢
    have hne : c.start + i + 1 ≠ s.lh.block tail := by
      intro heq
      exact not_home_log hi.recov.listed hin (heq ▸ hhome)
    rw [hw.disk, if_neg hne]
    exact hi.recov.copied i hin
  · intro b hb hnl
    simp only [hs] at hnl
    have hne : b ≠ s.lh.block tail := by
      intro heq
      rw [hblocks] at hnl
      exact hnl (heq ▸ Header.block_mem htail)
    rw [hw.disk, if_neg hne]
    exact hi.recov.rest b hb hnl
  · simp only [Stage, hw.lh, hs]
    refine ⟨hset, htail, hn, hblock, fun i hit => ?_⟩
    rw [hw.disk]
    split_ifs with heq
    · rw [heq]
    · refine hinst i ?_
      have : i ≠ tail := fun hie => heq (by rw [hie])
      omega
  · have hnr' : s.recovering = false := hw.recovering.symm.trans hnr
    have hr := hi.running hnr'
    refine
      { coherent := hw.coherent hr.coherent
        procs := hr.procs.wrote hw (by simp [hpc]) (by simp)
        view := fun x hx hc => ?_
        unlogged := fun x hx hnl => ?_
        dirty := fun x => ?_
        pc := by simp }
    · refine (hw.view x).trans ?_
      split_ifs with heq
      · rw [hset x hx, heq]
      · exact hr.view x hx (by simpa [Changed, hw.held] using hc)
    · simp only [hw.lh] at hnl
      have hne : x ≠ s.lh.block tail := fun heq => hnl (heq ▸ Header.block_mem htail)
      refine (hr.unlogged x hx hnl).trans ?_
      exact ((hw.disk x).trans (if_neg hne)).symm
    · refine (hw.dirty x).trans ?_
      rw [hr.dirty x]
      constructor
      · rintro ⟨hne, i, hin, hix, ht⟩
        refine ⟨i, by simpa only [hw.lh] using hin, by simpa only [hw.lh] using hix, ?_⟩
        intro t htt
        have hlt := ht tail hpc
        have : i ≠ tail := fun hie => hne (by rw [← hix, hie])
        simp only [Pc.install.injEq] at htt
        omega
      · rintro ⟨i, hin, hix, ht⟩
        simp only [hw.lh] at hin hix
        have hlt := ht (tail + 1) rfl
        refine ⟨fun heq => ?_, i, hin, hix, fun t htt => ?_⟩
        · have := Header.block_injOn hl.nodup hin htail (hix.trans heq)
          omega
        · rw [hpc] at htt
          simp only [Pc.install.injEq] at htt
          omega
  · have hrt' : s.recovering = true := hw.recovering.symm.trans hrt
    have hb := hi.recovering hrt'
    exact
      { clean := hw.clean hb.clean
        free := by simpa only [hw.held] using hb.free
        outside := by simpa only [hw.phase] using hb.outside
        outstanding := hw.outstanding.trans hb.outstanding
        committing := hw.committing.trans hb.committing
        pc := Or.inr (Or.inl ⟨_, rfl⟩) }

end Xv6.Log
