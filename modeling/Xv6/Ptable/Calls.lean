import Xv6.Ptable.Scheduler

/-!
# The calls of a process and the invariant of the schedulers

Every step of `fork`, `exit`, `wait`, `sleep`, `wakeup`, `kill`, `yield` and `exec` keeps the
invariant, and so does every run. The only panic left is that of an exiting init.
-/

namespace Xv6.Ptable
open Lib

variable {C : Type} {s s' : State C} {c : C} {p : Slot}

theorem Inv.running (h : Inv s) (hk : s.ctl c = .run ∨ s.ctl c = .wait) (hp : s.cur c = some p) :
    (s.tab.proc p).state = .running := by
  have := h.on c p hp
  rcases hk with hk | hk <;> rwa [hk] at this

theorem Inv.alive (h : Inv s) (hk : s.ctl c = .run ∨ s.ctl c = .wait) (hp : s.cur c = some p) :
    (s.tab.proc p).state.Alive := by
  rw [h.running hk hp]
  trivial

theorem Inv.rouse (h : Inv s) {t : Table} (hl : s.lock = none) (hr : s.tab.Relive t)
    (hstate : ∀ p, (t.proc p).state = (s.tab.proc p).state ∨
      (s.tab.proc p).state = .sleeping ∧ (t.proc p).state = .runnable) : Inv (s.withTab t) := by
  refine h.withTab (h.wf.relive hr) (fun d p hp => ?_) fun p hp => ?_
  · rcases hstate p with h1 | h1
    · exact h1
    · have hd : s.ctl d = .run := by
        refine Ctl.run_of_not_holds (fun hh => ?_) ((h.cur d).mp (by rw [hp]; exact nofun))
        exact absurd (hl.symm.trans ((h.lock d).mpr hh)) nofun
      exact absurd (h1.1.symm.trans (h.running (Or.inl hd) hp)) nofun
  · rcases hstate p with h1 | h1
    · rw [← h1, hp]
    · cases h1.2.symm.trans hp

theorem Inv.filled (h : Inv s) {np : Slot} {x : Proc} {th : Thread} {n : ℕ}
    (hold : ¬ (s.tab.proc np).state.Made) (hx : x.state ≠ .running)
    (hwf : (s.tab.fill p np x th n).Wf) : Inv (s.withTab (s.tab.fill p np x th n)) := by
  refine h.withTab hwf (fun d q hq => ?_) fun q hq => ?_
  · rw [Table.fill_old]
    rintro rfl
    exact hold (h.on d q hq).made
  · by_cases hqn : q = np
    · rw [hqn, Table.fill_new] at hq
      exact absurd hq hx
    · rwa [Table.fill_old hqn] at hq

variable [DecidableEq C]

theorem Inv.leave_set (h : Inv s) {f : Proc → Proc} (hs : s.leave c (s.tab.set p f) = .ret s')
    (hlock : s.lock = none ∨ s.lock = some c) (hp : s.cur c = some p)
    (halive : (f (s.tab.proc p)).state.Alive) (hne : (f (s.tab.proc p)).state ≠ .running)
    (hr : s.tab.Relive (s.tab.set p f)) : Inv s' := by
  refine h.leave hlock hp (h.wf.relive hr) ?_ (fun q hq => ?_) hs
  · rw [Table.set_self]
    exact ⟨halive.made, hne⟩
  · rw [Table.set_ne f hq]

theorem Inv.yield (h : Inv s) (hs : step s (.yield c) = .ret s') : Inv s' := by
  obtain ⟨p, hk, hp, hs⟩ := onProc_ret hs
  obtain ⟨hl, hs⟩ := locked_ret hs
  exact h.leave_set hs (Or.inl hl) hp trivial nofun (.yield (h.alive (Or.inl hk) hp))

theorem Inv.sleep (h : Inv s) {a : ℕ} (hs : step s (.sleep c a) = .ret s') : Inv s' := by
  obtain ⟨p, hk, hp, hs⟩ := onProc_ret hs
  obtain ⟨hl, hs⟩ := locked_ret hs
  exact h.leave_set hs (Or.inl hl) hp trivial nofun (.sleep (h.alive (Or.inl hk) hp) a)

theorem Inv.wakeup (h : Inv s) {chan : Chan} (hs : step s (.wakeup c chan) = .ret s') :
    Inv s' := by
  simp only [step] at hs
  split_ifs at hs
  obtain ⟨hl, hs⟩ := locked_ret hs
  cases hs
  refine h.rouse hl (.wakeup1 s.tab _) fun p => ?_
  rcases Table.wakeup1_eq (t := s.tab) (some chan) p with h1 | ⟨h1, -, h2⟩
  · exact Or.inl (by rw [h1])
  · exact Or.inr ⟨h1, by rw [h2]⟩

theorem Inv.kill (h : Inv s) {pid : ℤ} (hs : step s (.kill c pid) = .ret s') : Inv s' := by
  obtain ⟨p, hk, hp, hs⟩ := onProc_ret hs
  obtain ⟨hl, hs⟩ := locked_ret hs
  cases hs
  refine h.rouse hl (.kill s.tab pid) fun q => ?_
  unfold Table.kill
  cases s.tab.target pid with
  | none => exact Or.inl rfl
  | some r =>
    dsimp only
    by_cases hq : q = r
    · rw [hq, Table.set_self]
      by_cases hsl : (s.tab.proc r).state = .sleeping
      · exact Or.inr ⟨hsl, if_pos hsl⟩
      · exact Or.inl (if_neg hsl)
    · rw [Table.set_ne _ hq]
      exact Or.inl rfl

theorem Inv.alloc (h : Inv s) (hs : step s (.alloc c) = .ret s') : Inv s' := by
  obtain ⟨p, hk, hp, hs⟩ := onProc_ret hs
  split_ifs at hs with hu
  obtain ⟨hl, hs⟩ := locked_ret hs
  cases hs
  have hwf := h.wf.alloc (h.alive (Or.inl hk) hp) hu
  unfold Table.alloc at hwf ⊢
  cases hf : Table.first fun q => (s.tab.proc q).state = .unused with
  | none => exact h
  | some np =>
    rw [hf] at hwf
    refine h.filled ?_ nofun hwf
    rw [show _ = _ from of_decide_eq_true (Table.first_some hf)]
    exact id

theorem Inv.stack (h : Inv s) {kstack : ℕ} (hs : step s (.stack c kstack) = .ret s') : Inv s' := by
  obtain ⟨p, hk, hp, hs⟩ := onProc_ret hs
  cases hth : s.tab.thread p with
  | allocated np =>
    rw [hth] at hs
    cases hs
    have hembryo := h.wf.fills p np (by rw [hth]; rfl)
    have hold : ¬ (s.tab.proc np).state.Made := by
      rw [hembryo]
      exact id
    have hwf := h.wf.stack hth kstack
    unfold Table.stack at hwf ⊢
    split_ifs at hwf ⊢
    · exact h.filled hold nofun hwf
    · refine h.filled hold ?_ hwf
      rw [hembryo]
      exact nofun
  | _ =>
    rw [hth] at hs
    cases hs

theorem Inv.copy (h : Inv s) {pgdir : ℕ} (hs : step s (.copy c pgdir) = .ret s') : Inv s' := by
  obtain ⟨p, hk, hp, hs⟩ := onProc_ret hs
  cases hth : s.tab.thread p with
  | stacked np =>
    rw [hth] at hs
    cases hs
    have hembryo := h.wf.fills p np (by rw [hth]; rfl)
    have hold : ¬ (s.tab.proc np).state.Made := by
      rw [hembryo]
      exact id
    have hwf := h.wf.copy hth pgdir
    unfold Table.copy at hwf ⊢
    split_ifs at hwf ⊢
    · exact h.filled hold nofun hwf
    · refine h.filled hold ?_ hwf
      rw [hembryo]
      exact nofun
  | _ =>
    rw [hth] at hs
    cases hs

theorem Inv.ready (h : Inv s) (hs : step s (.ready c) = .ret s') : Inv s' := by
  obtain ⟨p, hk, hp, hs⟩ := onProc_ret hs
  cases hth : s.tab.thread p with
  | copied np =>
    rw [hth] at hs
    obtain ⟨hl, hs⟩ := locked_ret hs
    cases hs
    have hembryo := h.wf.fills p np (by rw [hth]; rfl)
    refine h.filled ?_ nofun (h.wf.ready hth)
    rw [hembryo]
    exact id
  | _ =>
    rw [hth] at hs
    cases hs

theorem Inv.exec (h : Inv s) {pgdir : ℕ} (hs : step s (.exec c pgdir) = .ret s') : Inv s' := by
  obtain ⟨p, hk, hp, hs⟩ := onProc_ret hs
  split_ifs at hs with hd
  · cases hs
    exact h
  · rw [switchuvm_ret hs]
    have hstate (q : Slot) : ((s.tab.set p fun x => { x with pgdir := pgdir }).proc q).state =
        (s.tab.proc q).state := by
      by_cases hq : q = p
      · rw [hq, Table.set_self]
      · rw [Table.set_ne _ hq]
    exact h.withTab (h.wf.relive (.exec hd s.tab p)) (fun _ q _ => hstate q) fun q hq => (hstate q).symm.trans hq

theorem Inv.growproc (h : Inv s) (hs : step s (.growproc c) = .ret s') : Inv s' := by
  obtain ⟨p, hk, hp, hs⟩ := onProc_ret hs
  rw [switchuvm_ret hs]
  exact h

theorem Inv.exit (h : Inv s) (hs : step s (.exit c) = .ret s') : Inv s' := by
  obtain ⟨p, hk, hp, hs⟩ := onProc_ret hs
  split_ifs at hs with hu hi
  obtain ⟨hl, hs⟩ := locked_ret hs
  rw [not_not] at hu
  have he := Table.exited s.tab hi
  refine h.leave (Or.inl hl) hp (he.wf h.wf hi (h.alive (Or.inl hk) hp) hu) ?_ (fun q hq => ?_) hs
  · rw [he.zombie]
    exact ⟨trivial, nofun⟩
  · rcases he.state q hq with h1 | ⟨h1, h2⟩
    · rw [h1]
    · rw [h1, h2]
      exact iff_of_false nofun nofun

theorem look_child {t : Table} {z : Slot} (h : t.look p = .child z) :
    (t.proc z).parent = some p ∧ (t.proc z).state = .zombie := by
  unfold Table.look at h
  split at h
  · next w hw =>
    cases h
    exact of_decide_eq_true (Table.first_some hw)
  · split_ifs at h

theorem look_fail {t : Table} (h : t.look p = .fail) :
    (∀ q, (t.proc q).parent ≠ some p) ∨ (t.proc p).killed := by
  unfold Table.look at h
  split at h
  · cases h
  · split_ifs at h with hc
    refine hc.imp_left fun hf q hq => ?_
    exact Table.first_none hf q (decide_eq_true hq)

theorem look_sleep {t : Table} (h : t.look p = .sleep) (z : Slot)
    (hz : (t.proc z).parent = some p) : (t.proc z).state ≠ .zombie := by
  unfold Table.look at h
  split at h
  · cases h
  · next hf => exact fun hzombie => Table.first_none hf z (decide_eq_true ⟨hz, hzombie⟩)

theorem Inv.wait (h : Inv s) (hs : step s (.wait c) = .ret s') : Inv s' := by
  obtain ⟨p, hk, hp, hs⟩ := onProc_ret hs
  split_ifs at hs with hu
  obtain ⟨hl, hs⟩ := locked_ret hs
  cases hs
  exact h.stay hp h.wf (take hl) (iff_of_true rfl trivial) trivial (h.running (Or.inl hk) hp)
    (fun d q _ => h.on d q) fun _ _ => id

theorem Inv.look (h : Inv s) (hs : step s (.look c) = .ret s') : Inv s' := by
  obtain ⟨p, hk, hp, hs⟩ := onProc_ret hs
  have hlock : s.lock = some c := (h.lock c).mpr (by rw [hk]; trivial)
  have hrun := h.running (Or.inr hk) hp
  cases hl : s.tab.look p with
  | child z =>
    rw [hl] at hs
    cases hs
    obtain ⟨-, hz⟩ := look_child hl
    have hold (q : Slot) (hq : q ≠ z) : (s.tab.reap z).proc q = s.tab.proc q :=
      Function.update_of_ne hq ..
    have hne {q : Slot} (hq : (s.tab.proc q).state = .running) : q ≠ z := by
      rintro rfl
      cases hz.symm.trans hq
    refine h.stay (t := s.tab.reap z) (k := .run) hp (h.wf.reap hz) (give hlock)
      (iff_of_false nofun id) trivial ?_ (h.keep_locked (Or.inr hlock) fun q _ hq => ?_)
      fun q _ hq => ?_
    · rw [hold p (hne hrun)]
      exact hrun
    · rw [hold q (hne hq), hq]
    · have hqz : q ≠ z := by
        rintro rfl
        rw [show (s.tab.reap q).proc q = _ from Function.update_self ..] at hq
        cases hq
      rwa [hold q hqz] at hq
  | fail =>
    rw [hl] at hs
    cases hs
    exact h.stay hp h.wf (give hlock) (iff_of_false nofun id) trivial hrun (fun d q _ => h.on d q)
      fun _ _ => id
  | sleep =>
    rw [hl] at hs
    exact h.leave_set hs (Or.inr hlock) hp trivial nofun
      (.wait (h.alive (Or.inr hk) hp) (look_sleep hl))

theorem Inv.step {a : Act C} (h : Inv s) (hs : step s a = .ret s') : Inv s' := by
  cases a with
  | acquire c => exact h.acquire hs
  | scan c => exact h.scan hs
  | load c => exact h.load hs
  | start c => exact h.start hs
  | resume c => exact h.resume hs
  | sched c => exact h.sched hs
  | back c => exact h.back hs
  | yield c => exact h.yield hs
  | sleep c a => exact h.sleep hs
  | wakeup c chan => exact h.wakeup hs
  | kill c pid => exact h.kill hs
  | alloc c => exact h.alloc hs
  | stack c kstack => exact h.stack hs
  | copy c pgdir => exact h.copy hs
  | ready c => exact h.ready hs
  | exec c pgdir => exact h.exec hs
  | growproc c => exact h.growproc hs
  | exit c => exact h.exit hs
  | wait c => exact h.wait hs
  | look c => exact h.look hs

omit [DecidableEq C] in
theorem boot_inv {kstack pgdir : ℕ} (hk : kstack ≠ 0) (hd : pgdir ≠ 0) :
    Inv (boot C kstack pgdir) where
  wf := Table.userinit_wf hk hd
  lock _ := iff_of_false nofun id
  cur _ := iff_of_false (fun h => h rfl) id
  inj _ _ _ h := absurd h nofun
  on _ _ h := absurd h nofun
  run p hp := by
    simp only [boot, userinit] at hp
    split_ifs at hp

theorem inv_of_run {kstack pgdir : ℕ} (hk : kstack ≠ 0) (hd : pgdir ≠ 0) {es : List (Act C)}
    (hrun : Runs Step (boot C kstack pgdir) es s) : Inv s :=
  hrun.invariant (fun _ _ _ h hs => h.step hs) (boot_inv hk hd)

omit [DecidableEq C] in
theorem Inv.onProc_panic (h : Inv s) {k : Ctl} {f : Slot → Outcome (State C)} {m : String}
    (hs : s.onProc c k f = .panic m) (hk : k.OnProc) :
    ∃ p, s.ctl c = k ∧ s.cur c = some p ∧ f p = .panic m := by
  unfold State.onProc at hs
  split_ifs at hs with hc
  cases hp : s.cur c with
  | none => exact absurd hp ((h.cur c).mpr (by rwa [hc]))
  | some p =>
    rw [hp] at hs
    exact ⟨p, hc, rfl, hs⟩

omit [DecidableEq C] in
theorem locked_panic {o : Outcome (State C)} {m : String} (h : s.locked o = .panic m) :
    o = .panic m := by
  unfold State.locked at h
  split_ifs at h
  exact h

omit [DecidableEq C] in
theorem switchuvm_panic {m : String} (hk : (s.tab.proc p).kstack ≠ 0)
    (hd : (s.tab.proc p).pgdir ≠ 0) : s.switchuvm p ≠ .panic m := by
  unfold State.switchuvm
  rw [if_neg hk, if_neg hd]
  exact nofun

theorem Inv.panic {a : Act C} {m : String} (h : Inv s) (hs : Ptable.step s a = .panic m) :
    m = "init exiting" := by
  have hload {c : C} {p : Slot} (hp : s.cur c = some p) (m : String) : s.switchuvm p ≠ .panic m :=
    switchuvm_panic (h.wf.made p (h.on c p hp).made).1 (h.wf.made p (h.on c p hp).made).2
  cases a with
  | acquire c =>
    simp only [Ptable.step] at hs
    split_ifs at hs
    cases locked_panic hs
  | scan c =>
    simp only [Ptable.step] at hs
    split at hs
    · split_ifs at hs
    · cases hs
  | load c =>
    obtain ⟨p, hk, hp, hs⟩ := h.onProc_panic hs trivial
    rcases Outcome.bind_eq_panic.mp hs with h1 | ⟨t, -, h1⟩
    · exact absurd h1 (hload hp m)
    · cases h1
  | start c =>
    obtain ⟨p, hk, hp, hs⟩ := h.onProc_panic hs trivial
    cases hs
  | resume c =>
    obtain ⟨p, hk, hp, hs⟩ := h.onProc_panic hs trivial
    cases hc : (s.tab.proc p).context <;> rw [hc] at hs <;> cases hs
  | sched c =>
    obtain ⟨p, hk, hp, hs⟩ := h.onProc_panic hs trivial
    split_ifs at hs with hr
    have hon := h.on c p hp
    rw [hk] at hon
    exact absurd hr hon.2
  | back c =>
    obtain ⟨p, hk, hp, hs⟩ := h.onProc_panic hs trivial
    cases hs
  | yield c =>
    obtain ⟨p, hk, hp, hs⟩ := h.onProc_panic hs trivial
    cases locked_panic hs
  | sleep c a =>
    obtain ⟨p, hk, hp, hs⟩ := h.onProc_panic hs trivial
    cases locked_panic hs
  | wakeup c chan =>
    simp only [Ptable.step] at hs
    split_ifs at hs
    cases locked_panic hs
  | kill c pid =>
    obtain ⟨p, hk, hp, hs⟩ := h.onProc_panic hs trivial
    cases locked_panic hs
  | alloc c =>
    obtain ⟨p, hk, hp, hs⟩ := h.onProc_panic hs trivial
    split_ifs at hs
    cases locked_panic hs
  | stack c kstack =>
    obtain ⟨p, hk, hp, hs⟩ := h.onProc_panic hs trivial
    cases hc : s.tab.thread p <;> rw [hc] at hs <;> cases hs
  | copy c pgdir =>
    obtain ⟨p, hk, hp, hs⟩ := h.onProc_panic hs trivial
    cases hc : s.tab.thread p <;> rw [hc] at hs <;> cases hs
  | ready c =>
    obtain ⟨p, hk, hp, hs⟩ := h.onProc_panic hs trivial
    cases hc : s.tab.thread p <;> rw [hc] at hs <;>
      first | cases locked_panic hs | cases hs
  | exec c pgdir =>
    obtain ⟨p, hk, hp, hs⟩ := h.onProc_panic hs trivial
    split_ifs at hs with hd
    refine absurd hs (switchuvm_panic ?_ ?_)
    · simpa [State.withTab, Table.set_self] using (h.wf.made p (h.on c p hp).made).1
    · simpa [State.withTab, Table.set_self] using hd
  | growproc c =>
    obtain ⟨p, hk, hp, hs⟩ := h.onProc_panic hs trivial
    exact absurd hs (hload hp m)
  | exit c =>
    obtain ⟨p, hk, hp, hs⟩ := h.onProc_panic hs trivial
    split_ifs at hs
    · exact (Outcome.panic.inj hs).symm
    · cases locked_panic hs
  | wait c =>
    obtain ⟨p, hk, hp, hs⟩ := h.onProc_panic hs trivial
    split_ifs at hs
    cases locked_panic hs
  | look c =>
    obtain ⟨p, hk, hp, hs⟩ := h.onProc_panic hs trivial
    cases hc : s.tab.look p <;> rw [hc] at hs <;> cases hs

/-- Processes and CPUs: each `RUNNING` process has one CPU, and each CPU at most one. -/
structure Exclusive (s : State C) : Prop where
  running : s.lock = none → ∀ p, (s.tab.proc p).state = .running ↔ ∃ c, s.cur c = some p
  one : s.lock = none → ∀ c d p, s.cur c = some p → s.cur d = some p → c = d
  loaded : ∀ p, (s.tab.proc p).state.Made →
    (s.tab.proc p).kstack ≠ 0 ∧ (s.tab.proc p).pgdir ≠ 0

theorem scheduler_exclusive {kstack pgdir : ℕ} (hk : kstack ≠ 0) (hd : pgdir ≠ 0)
    {es : List (Act C)} (hrun : Runs Step (boot C kstack pgdir) es s) :
    Exclusive s ∧ ∀ a m, Ptable.step s a = .panic m → m = "init exiting" := by
  have h := inv_of_run hk hd hrun
  refine ⟨⟨fun hl p => ⟨h.run p, fun ⟨c, hc⟩ => ?_⟩, fun _ => h.inj, h.wf.made⟩,
    fun a m => h.panic⟩
  have hctl : s.ctl c = .run := by
    refine Ctl.run_of_not_holds (fun hh => ?_) ((h.cur c).mp (by rw [hc]; exact nofun))
    exact absurd (hl.symm.trans ((h.lock c).mpr hh)) nofun
  exact h.running (Or.inl hctl) hc

/-- Init and its first child, each on a CPU of its own. -/
theorem scheduler_exclusive_two : ∃ s es, Runs Step (boot Bool 1 1) es s ∧ s.lock = none ∧
    s.cur true = some 0 ∧ s.cur false = some 1 ∧ Exclusive s := by
  have init := (((((Runs.nil (R := Step) (boot Bool 1 1)).snoc
    (e := .acquire true) rfl).snoc (e := .scan true) rfl).snoc (e := .load true) rfl).snoc
    (e := .start true) rfl).snoc (e := .resume true) rfl
  have fork := (((init.snoc (e := .alloc true) rfl).snoc (e := .stack true 2) rfl).snoc
    (e := .copy true 2) rfl).snoc (e := .ready true) rfl
  have child := (((((fork.snoc (e := .acquire false) rfl).snoc (e := .scan false) rfl).snoc
    (e := .scan false) rfl).snoc (e := .load false) rfl).snoc (e := .start false) rfl).snoc
    (e := .resume false) rfl
  exact ⟨_, _, child, rfl, rfl, rfl, (scheduler_exclusive (by decide) (by decide) child).1⟩

end Xv6.Ptable
