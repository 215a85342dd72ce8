import Xv6.Pipes.Outline

/-!
# Wakeups on pipes

A `pipewrite` that fills the pipe and then finds itself killed, or the read end
closed, returns without waking the readers. A reader that slept on the empty pipe
then sleeps on a full one. In runs where this does not happen no wakeup is lost.
-/

namespace Xv6.Pipes
open Lib Monitor

/-- Whoever sleeps on the pipe has reason to, while both locks are free. -/
def NoLostWakeup {P : Type} (g : Config P) : Prop :=
  g.lk = none → g.table = none → ∀ p l,
    (g.phase p = .asleep .nread l → g.shared.isEmpty ∧ g.shared.writeopen) ∧
    (g.phase p = .asleep .nwrite l → g.shared.isFull ∧ g.shared.readopen)

section LostWakeup

structure Filling (k : ℕ) (g : Config ℕ) : Prop where
  nread : g.shared.nread = 0
  nwrite : g.shared.nwrite = k
  lk : g.lk = some 1
  table : g.table = none
  reader : g.phase 0 = .asleep .nread (.backRead ⟨1, []⟩)
  writer : ∃ w, g.phase 1 = .run (.write w) ∧ w.n = 513 ∧ w.i = k

theorem Filling.isFull {k : ℕ} {g : Config ℕ} (h : Filling k g) :
    g.shared.isFull = decide (k = PIPESIZE) := by
  rw [Shared.isFull, h.nread, h.nwrite]
  rfl

theorem Filling.step {k : ℕ} {g : Config ℕ} (h : Filling k g) (hk : k < PIPESIZE) :
    ∃ g', Step g (.step 1) g' ∧ Filling (k + 1) g' := by
  obtain ⟨w, hw, hn, hi⟩ := h.writer
  have hlt : (w.i : ℤ) < w.n := by
    simp only [PIPESIZE] at hk
    omega
  have hroom : ¬ g.shared.isFull := by
    simp [h.isFull, Nat.ne_of_lt hk]
  have hact := Monitor.Step.act (M := monitor) hw rfl
  simp only [if_pos hlt, if_neg hroom] at hact
  refine ⟨_, hact, h.nread, ?_, h.lk, h.table, h.reader, _, rfl, hn, congrArg (· + 1) hi⟩
  change Vm.add32 g.shared.nwrite 1 = k + 1
  simp only [PIPESIZE] at hk
  rw [h.nwrite, Vm.add32]
  omega

theorem filling_zero : ∃ g es, Runs Step newPipe es g ∧ Filling 0 g := by
  have reader := ((((((Runs.nil (R := Step) newPipe).snoc
    (.choose (p := 0) rfl rfl (show Call (.callRead 1) from trivial))).snoc
    (.acquire (p := 0) rfl rfl rfl)).snoc
    (.act (p := 0) rfl rfl)).snoc
    (.act (p := 0) rfl rfl)).snoc
    (.sleep (p := 0) rfl rfl rfl)).snoc
    (.unlock (p := 0) rfl)
  have writer := (((reader.snoc
    (.doze (p := 0) rfl)).snoc
    (.choose (p := 1) rfl rfl (show Call (.callWrite (fun _ => 0) 513) from trivial))).snoc
    (.acquire (p := 1) rfl rfl rfl)).snoc
    (.act (p := 1) rfl rfl)
  exact ⟨_, _, writer, rfl, rfl, rfl, rfl, rfl, _, rfl, rfl, rfl⟩

theorem filling_run (k : ℕ) (hk : k ≤ PIPESIZE) :
    ∃ g es, Runs Step newPipe es g ∧ Filling k g := by
  induction k with
  | zero => exact filling_zero
  | succ k ih =>
    obtain ⟨g, es, hrun, hg⟩ := ih (Nat.le_of_succ_le hk)
    obtain ⟨g', hstep, hg'⟩ := hg.step hk
    exact ⟨g', _, hrun.snoc hstep, hg'⟩

theorem full_killed {P : Type} [DecidableEq P] {g : Config P} {p : P} {w : Write}
    (hp : g.phase p = .run (.full w)) (hk : g.shared.killed p) : Step g (.step p)
      { g with phase := Function.update g.phase p (.run (.ret (.wrote w (-1)))) } := by
  have hact := Monitor.Step.act (M := monitor) hp rfl
  simp only [if_pos (Or.inr hk)] at hact
  exact hact

/-- The killed writer has returned, and the reader sleeps on a full pipe. -/
theorem killed_writer_loses_wakeup :
    ∃ g es, Start newPipe ∧ Runs Step newPipe es g ∧ ¬ NoLostWakeup g := by
  obtain ⟨g, es, hrun, hg⟩ := filling_run PIPESIZE le_rfl
  obtain ⟨w, hw, hn, hi⟩ := hg.writer
  have hlt : (w.i : ℤ) < w.n := by
    rw [hi, hn]
    decide
  have hfull := Monitor.Step.act (M := monitor) hw rfl
  simp only [if_pos hlt, if_pos (hg.isFull.trans (decide_eq_true rfl))] at hfull
  have killed := (((hrun.snoc hfull).snoc (.kill 1 hg.table)).snoc
    (full_killed (p := 1) rfl rfl)).snoc (.release (p := 1) rfl rfl)
  refine ⟨_, _, newPipe_start, killed, fun hno => ?_⟩
  have hempty := ((hno rfl hg.table 0 (.backRead ⟨1, []⟩)).1 hg.reader).1
  have hcount : g.shared.nread = g.shared.nwrite := of_decide_eq_true hempty
  rw [hg.nread, hg.nwrite] at hcount
  exact absurd hcount (by decide)

end LostWakeup

variable {P : Type} [DecidableEq P] {g g' : Config P} {e : Signal P}

/-- A writer that has just filled the pipe and is about to give up, killed or with the
read end closed, does so while nobody sleeps on `nread`. -/
def Spared (g : Config P) (e : Signal P) : Prop :=
  ∀ p w, e = .step p → g.phase p = .run (.full w) → w.fresh →
    g.shared.readopen = false ∨ g.shared.killed p → ∀ q, Phase.chan (g.phase q) ≠ some .nread

def Settled (g : Config P) : Prop :=
  ∀ p w v, g.phase p = .run (.ret (.wrote w v)) → w.fresh →
    ∀ q, Phase.chan (g.phase q) ≠ some .nread

theorem ret_from_full {s : Shared P} {p : P} {m : Loc} {w : Write} {v : ℤ}
    (h : Leads s (.ret (.wrote w v)) (monitor.code p m)) (hw : w.fresh) :
    m = .full w ∧ (s.readopen = false ∨ s.killed p) := by
  cases m with
  | full u =>
    change (if s.readopen = false ∨ s.killed p then (s, Loc.ret (.wrote u (-1)))
      else (s, .tell u)).2 = _ at h
    by_cases hdead : s.readopen = false ∨ s.killed p
    · rw [if_pos hdead] at h
      obtain ⟨rfl, -⟩ := Result.wrote.inj (Loc.ret.inj h)
      exact ⟨rfl, hdead⟩
    · rw [if_neg hdead] at h
      cases h
  | written u =>
    obtain ⟨rfl, -⟩ := Result.wrote.inj (Loc.ret.inj h)
    cases hw
  | write u =>
    change (if u.i < u.n then if s.isFull then (s, Loc.full u)
      else (s.store p (u.addr u.i), .write { u with i := u.i + 1, fresh := true })
      else (s, .written u)).2 = _ at h
    split_ifs at h
  | read r =>
    change (if s.isEmpty ∧ s.writeopen then (s, Loc.empty r) else (s, .copy r)).2 = _ at h
    split_ifs at h
  | empty r =>
    change (if s.killed p then (s, Loc.ret (.read r (-1))) else (s, .waitData r)).2 = _ at h
    split_ifs at h
    cases Loc.ret.inj h
  | copy r =>
    change (if r.got.length < r.n then
      if s.isEmpty then (s, Loc.copied r) else (s.hand, .copy { r with got := r.got ++ [s.next] })
      else (s, .copied r)).2 = _ at h
    split_ifs at h
  | copied r => cases Loc.ret.inj h
  | closeWake u => cases u <;> cases Loc.ret.inj h
  | idle => exact h.elim
  | _ => cases h

theorem Settled.step (h : outline.Inv g) (hset : Settled g) (hs : Step g e g')
    (hspared : Spared g e) : Settled g' := by
  intro p w v hp hw q hq
  rcases hs.turn with ⟨r, rfl, hturn, hrest⟩ | hrest
  · by_cases hpr : p = r
    · -- the writer itself comes to its return
      subst hpr
      have hqp : q ≠ p := by
        rintro rfl
        rw [hp] at hq
        cases hq
      have hold := (hrest q hqp).chan hq
      rw [hp] at hturn
      generalize ha : g.phase p = a at hturn
      cases hturn with
      | run hlead =>
        obtain ⟨rfl, hdead⟩ := ret_from_full hlead hw
        exact hspared p w rfl ha hw hdead q hold
      | resume =>
        have hparked := h.parked p
        rw [ha] at hparked
        exact hparked trivial
    · have hpold := (hrest p hpr).of_run hp
      by_cases hqr : q = r
      · -- a process that goes to sleep holds the lock
        subst hqr
        generalize ha : g.phase q = a at hturn
        generalize hb : g'.phase q = b at hturn
        rw [hb] at hq
        cases hturn with
        | run => cases hq
        | sleep hl =>
          refine h.not_both hpr ?_ ?_
          · rw [hpold]
            trivial
          · rw [ha]
            exact (valid.sleep hl).1
        | unlock c l => exact hset p w v hpold hw q (by rw [ha]; exact hq)
        | doze c l => exact hset p w v hpold hw q (by rw [ha]; exact hq)
        | resume => cases hq
      · exact hset p w v hpold hw q ((hrest q hqr).chan hq)
  · exact hset p w v ((hrest p).of_run hp) hw q ((hrest q).chan hq)

theorem Settled.paid (hset : Settled g) : outline.Paid monitor g e := by
  intro p l l' _ hp hl c ho q
  cases l with
  | ret v =>
    cases v with
    | wrote w v =>
      obtain ⟨hw, rfl⟩ := ho
      exact hset p w v hp hw q
    | read r v => exact ho.elim
    | closed => exact ho.elim
  | closeWake u => cases u <;> cases hl
  | _ => cases hl

theorem noLostWakeup_of_inv (h : outline.Inv g) : NoLostWakeup g := fun hlk _ _ _ =>
  ⟨fun hp => h.await_of_asleep hlk hp, fun hp => h.await_of_asleep hlk hp⟩

theorem no_lost_wakeup {g₀ : Config P} {es : List (Signal P)} (h0 : Start g₀)
    (hrun : Runs (fun g e g' => Step g e g' ∧ Spared g e) g₀ es g) : NoLostWakeup g := by
  have hstart : outline.Inv g₀ ∧ Settled g₀ := by
    refine ⟨start_inv h0, fun p w v hp => ?_⟩
    obtain ⟨-, -, -, -, -, -, -, -, hidle⟩ := h0
    cases (hidle p).symm.trans hp
  have hend := hrun.invariant (I := fun g => outline.Inv g ∧ Settled g)
    (fun g e g' hg hs =>
      ⟨hg.1.step valid hg.2.paid hs.1, hg.2.step hg.1 hs.1 hs.2⟩) hstart
  exact noLostWakeup_of_inv hend.1

omit [DecidableEq P] in
theorem spared_elsewhere {p : P} (h : ∀ w, g.phase p ≠ .run (.full w)) : Spared g (.step p) := by
  intro q w he hq
  cases he
  exact absurd hq (h w)

/-- A reader that sleeps on the empty pipe. -/
theorem no_lost_wakeup_reader : ∃ g es l,
    Runs (fun g e g' => Step g e g' ∧ Spared g e) newPipe es g ∧
      g.phase 0 = .asleep .nread l ∧ NoLostWakeup g := by
  have reader := (((((((Runs.nil (R := fun g e g' => Step g e g' ∧ Spared g e) newPipe).snoc
    ⟨.choose (p := 0) rfl rfl (show Call (.callRead 1) from trivial),
      spared_elsewhere nofun⟩).snoc
    ⟨.acquire (p := 0) rfl rfl rfl, spared_elsewhere nofun⟩).snoc
    ⟨.act (p := 0) rfl rfl, spared_elsewhere nofun⟩).snoc
    ⟨.act (p := 0) rfl rfl, spared_elsewhere nofun⟩).snoc
    ⟨.sleep (p := 0) rfl rfl rfl, spared_elsewhere nofun⟩).snoc
    ⟨.unlock (p := 0) rfl, spared_elsewhere nofun⟩).snoc
    ⟨.doze (p := 0) rfl, spared_elsewhere nofun⟩
  exact ⟨_, _, _, reader, rfl, no_lost_wakeup newPipe_start reader⟩

end Xv6.Pipes
