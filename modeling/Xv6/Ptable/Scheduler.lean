import Xv6.Ptable.Exit

/-!
# Schedulers and the processes they run

Which process a CPU runs and in which state that process is, at every point of
`scheduler` and of the calls that lead to `sched`. While a CPU holds `ptable.lock` every
other one is in its idle loop or in a process, and then that process is `RUNNING`.
-/

namespace Xv6.Ptable
open Lib

namespace Ctl

def Holds : Ctl → Prop
  | .idle | .run => False
  | _ => True

def OnProc : Ctl → Prop
  | .idle | .scan _ => False
  | _ => True

def On : Ctl → ProcState → Prop
  | .idle, _ | .scan _, _ => False
  | .chosen, x | .loaded, x => x = .runnable
  | .resume, x | .run, x | .wait, x => x = .running
  | .sched, x | .back, x => x.Made ∧ x ≠ .running

theorem On.made {k : Ctl} {x : ProcState} (h : k.On x) : x.Made := by
  cases k with
  | idle => exact h.elim
  | scan i => exact h.elim
  | sched => exact h.1
  | back => exact h.1
  | _ =>
    rw [show x = _ from h]
    trivial

theorem run_of_not_holds {k : Ctl} (h : ¬ k.Holds) (hp : k.OnProc) : k = .run := by
  cases k <;> first | exact absurd trivial h | exact hp.elim | rfl

end Ctl

variable {C : Type}

structure Inv (s : State C) : Prop where
  wf : s.tab.Wf
  lock : ∀ c, s.lock = some c ↔ (s.ctl c).Holds
  cur : ∀ c, s.cur c ≠ none ↔ (s.ctl c).OnProc
  inj : ∀ c d p, s.cur c = some p → s.cur d = some p → c = d
  on : ∀ c p, s.cur c = some p → (s.ctl c).On (s.tab.proc p).state
  run : ∀ p, (s.tab.proc p).state = .running → ∃ c, s.cur c = some p

variable {s s' : State C} {c d : C} {p : Slot}

theorem Inv.other_runs (h : Inv s) (hlock : s.lock = none ∨ s.lock = some c) (hd : d ≠ c)
    (hp : s.cur d = some p) : s.ctl d = .run ∧ (s.tab.proc p).state = .running := by
  have hrun : s.ctl d = .run := by
    refine Ctl.run_of_not_holds (fun hh => ?_) ((h.cur d).mp (by rw [hp]; exact nofun))
    have := (h.lock d).mpr hh
    rcases hlock with h1 | h1
    · cases h1.symm.trans this
    · exact hd (Option.some.inj (this.symm.trans h1))
  refine ⟨hrun, ?_⟩
  have := h.on d p hp
  rwa [hrun] at this

theorem Inv.keep_locked (h : Inv s) {t : Table} (hlock : s.lock = none ∨ s.lock = some c)
    (hrun : ∀ p, s.cur c ≠ some p → (s.tab.proc p).state = .running →
      (t.proc p).state = .running) (d : C) (p : Slot) (hd : d ≠ c) (hp : s.cur d = some p) :
    (s.ctl d).On (t.proc p).state := by
  obtain ⟨hctl, hstate⟩ := h.other_runs hlock hd hp
  rw [hctl]
  exact hrun p (fun hc => hd (h.inj d c p hp hc)) hstate

theorem Inv.withTab (h : Inv s) {t : Table} (hwf : t.Wf)
    (hsame : ∀ d p, s.cur d = some p → (t.proc p).state = (s.tab.proc p).state)
    (hrun : ∀ p, (t.proc p).state = .running → (s.tab.proc p).state = .running) :
    Inv (s.withTab t) where
  wf := hwf
  lock := h.lock
  cur := h.cur
  inj := h.inj
  on d p hp := by
    change (s.ctl d).On (t.proc p).state
    rw [hsame d p hp]
    exact h.on d p hp
  run p hp := h.run p (hrun p hp)

theorem onProc_ret {k : Ctl} {f : Slot → Outcome (State C)} (h : s.onProc c k f = .ret s') :
    ∃ p, s.ctl c = k ∧ s.cur c = some p ∧ f p = .ret s' := by
  unfold State.onProc at h
  split_ifs at h with hk
  cases hc : s.cur c with
  | none =>
    rw [hc] at h
    cases h
  | some p =>
    rw [hc] at h
    exact ⟨p, hk, rfl, h⟩

theorem locked_ret {o : Outcome (State C)} (h : s.locked o = .ret s') :
    s.lock = none ∧ o = .ret s' := by
  unfold State.locked at h
  split_ifs at h with hl
  exact ⟨hl, h⟩

theorem take {o : Option C} (ho : o = none) (d : C) (hd : d ≠ c) :
    some c = some d ↔ o = some d := by
  simp [ho, hd.symm]

theorem give {o : Option C} (ho : o = some c) (d : C) (hd : d ≠ c) :
    none = some d ↔ o = some d := by
  simp [ho, hd.symm]

theorem Inv.step_of (h : Inv s) (c : C) (hwf : s'.tab.Wf)
    (hctl : ∀ d, d ≠ c → s'.ctl d = s.ctl d) (hcur : ∀ d, d ≠ c → s'.cur d = s.cur d)
    (hlock : ∀ d, d ≠ c → (s'.lock = some d ↔ s.lock = some d))
    (hlock' : s'.lock = some c ↔ (s'.ctl c).Holds)
    (hcur' : s'.cur c ≠ none ↔ (s'.ctl c).OnProc)
    (hinj : ∀ p, s'.cur c = some p → s.cur c = some p ∨ ∀ d, s.cur d ≠ some p)
    (hon : ∀ p, s'.cur c = some p → (s'.ctl c).On (s'.tab.proc p).state)
    (hkeep : ∀ d p, d ≠ c → s.cur d = some p → (s.ctl d).On (s'.tab.proc p).state)
    (hrun : ∀ p, (s'.tab.proc p).state = .running → s'.cur c = some p ∨
      (s.tab.proc p).state = .running ∧ s.cur c ≠ some p) : Inv s' := by
  have hold {d : C} {p : Slot} (hd : d ≠ c) (hc : s'.cur c = some p) : s.cur d ≠ some p := by
    intro hdp
    rcases hinj p hc with h1 | h1
    · exact hd (h.inj d c p hdp h1)
    · exact h1 d hdp
  refine ⟨hwf, fun d => ?_, fun d => ?_, fun a b p ha hb => ?_, fun d p hp => ?_, fun p hp => ?_⟩
  · by_cases hd : d = c
    · rw [hd]
      exact hlock'
    · rw [hlock d hd, hctl d hd]
      exact h.lock d
  · by_cases hd : d = c
    · rw [hd]
      exact hcur'
    · rw [hcur d hd, hctl d hd]
      exact h.cur d
  · by_cases hac : a = c
    · by_cases hbc : b = c
      · rw [hac, hbc]
      · rw [hac] at ha
        rw [hcur b hbc] at hb
        exact absurd hb (hold hbc ha)
    · rw [hcur a hac] at ha
      by_cases hbc : b = c
      · rw [hbc] at hb
        exact absurd ha (hold hac hb)
      · rw [hcur b hbc] at hb
        exact h.inj a b p ha hb
  · by_cases hd : d = c
    · rw [hd] at hp ⊢
      exact hon p hp
    · rw [hcur d hd] at hp
      rw [hctl d hd]
      exact hkeep d p hd hp
  · rcases hrun p hp with h1 | ⟨h1, h2⟩
    · exact ⟨c, h1⟩
    · obtain ⟨d, hd⟩ := h.run p h1
      have hdc : d ≠ c := by
        rintro rfl
        exact h2 hd
      exact ⟨d, by rw [hcur d hdc, hd]⟩

variable [DecidableEq C]

theorem Inv.stay (h : Inv s) {t : Table} {k : Ctl} {l : Option C} (hp : s.cur c = some p)
    (hwf : t.Wf) (hlock : ∀ d, d ≠ c → (l = some d ↔ s.lock = some d))
    (hlock' : l = some c ↔ k.Holds) (hk : k.OnProc) (hon : k.On (t.proc p).state)
    (hkeep : ∀ d q, d ≠ c → s.cur d = some q → (s.ctl d).On (t.proc q).state)
    (hrun : ∀ q, q ≠ p → (t.proc q).state = .running → (s.tab.proc q).state = .running) :
    Inv ⟨t, Function.update s.ctl c k, s.cur, l⟩ := by
  refine h.step_of c hwf (fun d hd => Function.update_of_ne hd ..) (fun _ _ => rfl) hlock ?_ ?_
    (fun q hq => Or.inl hq) (fun q hq => ?_) hkeep fun q hq => ?_
  · simpa using hlock'
  · simpa [hp] using hk
  · rw [← Option.some.inj (hp.symm.trans hq)]
    simpa using hon
  · by_cases hqp : q = p
    · rw [hqp]
      exact Or.inl hp
    · refine Or.inr ⟨hrun q hqp hq, ?_⟩
      rw [hp]
      exact fun hc => hqp (Option.some.inj hc).symm

theorem Inv.leave (h : Inv s) {t : Table} (hlock : s.lock = none ∨ s.lock = some c)
    (hp : s.cur c = some p) (hwf : t.Wf)
    (hstate : (t.proc p).state.Made ∧ (t.proc p).state ≠ .running)
    (hrest : ∀ q, q ≠ p → ((t.proc q).state = .running ↔ (s.tab.proc q).state = .running))
    (hs : s.leave c t = .ret s') : Inv s' := by
  cases hs
  refine h.stay (c := c) (k := .sched) hp hwf (fun d hd => ?_) (iff_of_true rfl trivial) trivial
    hstate (h.keep_locked hlock fun q hq hrun => ?_) fun q hq => (hrest q hq).mp
  · rcases hlock with h1 | h1
    · exact take h1 d hd
    · rw [h1]
  · refine (hrest q ?_).mpr hrun
    rintro rfl
    exact hq hp

theorem Inv.search (h : Inv s) {k : Ctl} {l : Option C} (hc : ¬ (s.ctl c).OnProc)
    (hk : ¬ k.OnProc) (hlock : ∀ d, d ≠ c → (l = some d ↔ s.lock = some d))
    (hlock' : l = some c ↔ k.Holds) : Inv ⟨s.tab, Function.update s.ctl c k, s.cur, l⟩ := by
  have hnone : s.cur c = none := by
    by_contra hne
    exact hc ((h.cur c).mp hne)
  refine h.step_of c h.wf (fun d hd => Function.update_of_ne hd ..) (fun _ _ => rfl) hlock ?_ ?_
    (fun p hp => Or.inl hp) (fun p hp => ?_) (fun d p _ => h.on d p) fun p hp => Or.inr ⟨hp, ?_⟩
  · simpa using hlock'
  · simpa [hnone] using hk
  · cases hnone.symm.trans hp
  · rw [hnone]
    exact nofun

theorem Inv.acquire (h : Inv s) (hs : step s (.acquire c) = .ret s') : Inv s' := by
  simp only [step] at hs
  split_ifs at hs with hk
  obtain ⟨hl, hs⟩ := locked_ret hs
  cases hs
  exact h.search (by rw [hk]; exact id) id (take hl) (iff_of_true rfl trivial)

theorem Inv.scan (h : Inv s) (hs : step s (.scan c) = .ret s') : Inv s' := by
  simp only [step] at hs
  cases hk : s.ctl c with
  | scan i =>
    rw [hk] at hs
    dsimp only at hs
    have hlock : s.lock = some c := (h.lock c).mpr (by rw [hk]; trivial)
    split_ifs at hs with hi hr
    · cases hs
      exact h.search (by rw [hk]; exact id) id (fun _ _ => Iff.rfl) (iff_of_true hlock trivial)
    · cases hs
      rw [not_not] at hr
      refine h.step_of c h.wf (fun d hd => Function.update_of_ne hd ..)
        (fun d hd => Function.update_of_ne hd ..) (fun _ _ => Iff.rfl) ?_ ?_ (fun p hp => Or.inr ?_)
        (fun p hp => ?_) (fun d p _ => h.on d p) fun p hp => Or.inr ⟨hp, ?_⟩
      · simpa [State.goto, Ctl.Holds] using hlock
      · simp [State.goto, Ctl.OnProc]
      · -- no CPU runs a process that is `RUNNABLE`
        simp only [Function.update_self, Option.some.injEq] at hp
        intro d hd
        by_cases hdc : d = c
        · rw [hdc] at hd
          have := (h.cur c).mp (by rw [hd]; exact nofun)
          rw [hk] at this
          exact this
        · obtain ⟨-, hrun⟩ := h.other_runs (Or.inr hlock) hdc hd
          rw [← hp, hr] at hrun
          cases hrun
      · simp only [Function.update_self, Option.some.injEq] at hp
        simp only [State.goto, Function.update_self, ← hp]
        exact hr
      · intro hc
        have := (h.cur c).mp (by rw [hc]; exact nofun)
        rw [hk] at this
        exact this
    · cases hs
      exact h.search (by rw [hk]; exact id) id (give hlock) (iff_of_false nofun id)
  | _ =>
    rw [hk] at hs
    cases hs

omit [DecidableEq C] in
theorem switchuvm_ret (hs : s.switchuvm p = .ret s') : s' = s := by
  unfold State.switchuvm at hs
  split_ifs at hs
  exact (Outcome.ret.inj hs).symm

theorem Inv.load (h : Inv s) (hs : step s (.load c) = .ret s') : Inv s' := by
  obtain ⟨p, hk, hp, hs⟩ := onProc_ret hs
  obtain ⟨t, ht, hs⟩ := Outcome.bind_eq_ret.mp hs
  cases switchuvm_ret ht
  cases hs
  have hlock : s.lock = some c := (h.lock c).mpr (by rw [hk]; trivial)
  have hon := h.on c p hp
  rw [hk] at hon
  exact h.stay hp h.wf (fun _ _ => Iff.rfl) (iff_of_true hlock trivial) trivial hon
    (fun d q _ => h.on d q) fun _ _ => id

theorem Inv.start (h : Inv s) (hs : step s (.start c) = .ret s') : Inv s' := by
  obtain ⟨p, hk, hp, hs⟩ := onProc_ret hs
  cases hs
  have hlock : s.lock = some c := (h.lock c).mpr (by rw [hk]; trivial)
  have hon : (s.tab.proc p).state = .runnable := by
    have := h.on c p hp
    rwa [hk] at this
  have halive : (s.tab.proc p).state.Alive := by
    rw [hon]
    trivial
  refine h.stay (t := s.tab.set p fun x => { x with state := .running }) hp
    (h.wf.relive (.start halive))
    (fun _ _ => Iff.rfl) (iff_of_true hlock trivial) trivial ?_
    (h.keep_locked (Or.inr hlock) fun q hq hrun => ?_) fun q hq hrun => ?_
  · rw [Table.set_self]
    rfl
  · rwa [Table.set_ne]
    rintro rfl
    exact hq hp
  · rwa [Table.set_ne _ hq] at hrun

theorem tidy_state (t : Table) (p q : Slot) :
    ((t.set p fun x => { x with chan := none }).proc q).state = (t.proc q).state := by
  by_cases hq : q = p
  · rw [hq, Table.set_self]
  · rw [Table.set_ne _ hq]

theorem Inv.resume (h : Inv s) (hs : step s (.resume c) = .ret s') : Inv s' := by
  obtain ⟨p, hk, hp, hs⟩ := onProc_ret hs
  have hlock : s.lock = some c := (h.lock c).mpr (by rw [hk]; trivial)
  have hon : (s.tab.proc p).state = .running := by
    have := h.on c p hp
    rwa [hk] at this
  have hdone : Inv ⟨s.tab, Function.update s.ctl c .run, s.cur, none⟩ :=
    h.stay hp h.wf (give hlock) (iff_of_false nofun id) trivial hon (fun d q _ => h.on d q)
      fun _ _ => id
  have hclear {k : Ctl} {l : Option C} (hl : ∀ d, d ≠ c → (l = some d ↔ s.lock = some d))
      (hl' : l = some c ↔ k.Holds) (hk' : k = .run ∨ k = .wait) :
      Inv ⟨s.tab.set p fun x => { x with chan := none }, Function.update s.ctl c k, s.cur, l⟩ := by
    refine h.stay hp (h.wf.relive (.tidy s.tab p)) hl hl' ?_ ?_ (fun d q _ hq => ?_)
      fun q _ hq => ?_
    · rcases hk' with rfl | rfl <;> trivial
    · rw [tidy_state]
      rcases hk' with rfl | rfl <;> exact hon
    · rw [tidy_state]
      exact h.on d q hq
    · rwa [tidy_state] at hq
  cases hc : (s.tab.proc p).context with
  | forkret =>
    rw [hc] at hs
    cases hs
    exact hdone
  | yield =>
    rw [hc] at hs
    cases hs
    exact hdone
  | sleep =>
    rw [hc] at hs
    cases hs
    exact hclear (give hlock) (iff_of_false nofun id) (Or.inl rfl)
  | wait =>
    rw [hc] at hs
    cases hs
    exact hclear (fun _ _ => Iff.rfl) (iff_of_true hlock trivial) (Or.inr rfl)

theorem Inv.sched (h : Inv s) (hs : step s (.sched c) = .ret s') : Inv s' := by
  obtain ⟨p, hk, hp, hs⟩ := onProc_ret hs
  split_ifs at hs with hr
  cases hs
  have hlock : s.lock = some c := (h.lock c).mpr (by rw [hk]; trivial)
  have hon := h.on c p hp
  rw [hk] at hon
  exact h.stay hp h.wf (fun _ _ => Iff.rfl) (iff_of_true hlock trivial) trivial hon
    (fun d q _ => h.on d q) fun _ _ => id

theorem Inv.back (h : Inv s) (hs : step s (.back c) = .ret s') : Inv s' := by
  obtain ⟨p, hk, hp, hs⟩ := onProc_ret hs
  cases hs
  have hlock : s.lock = some c := (h.lock c).mpr (by rw [hk]; trivial)
  have hon := h.on c p hp
  rw [hk] at hon
  refine h.step_of c h.wf (fun d hd => Function.update_of_ne hd ..)
    (fun d hd => Function.update_of_ne hd ..) (fun _ _ => Iff.rfl) ?_ ?_ (fun q hq => ?_)
    (fun q hq => ?_) (fun d q _ => h.on d q) fun q hq => Or.inr ⟨hq, ?_⟩
  · simpa [State.goto, Ctl.Holds] using hlock
  · simp [State.goto, Ctl.OnProc]
  · simp at hq
  · simp at hq
  · rintro hc
    rw [Option.some.inj (hp.symm.trans hc)] at hon
    exact hon.2 hq

end Xv6.Ptable
