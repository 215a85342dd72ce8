import Xv6.Ptable.Change

/-!
# The protocol of `exit` and `wait`

Every process has a live parent, nobody sleeps in `wait` beside a zombie child, and a
zombie leaves the table only where a `wait` of its parent returns its pid.
-/

namespace Xv6.Ptable
open Lib

variable {C : Type} {s s' : State C} {p z : Slot}

def Reaps (s : State C) (a : Act C) (s' : State C) (z : Slot) : Prop :=
  ∃ c p, a = .look c ∧ s.cur c = some p ∧ (s.tab.proc z).parent = some p ∧
    s'.tab.reaped = s.tab.reaped ++ [(s.tab.proc z).pid]

theorem Change.zombie {a : Act C} (h : Change s a s'.tab) (hz : (s.tab.proc z).state = .zombie) :
    ((s'.tab.proc z).state = .zombie ∧ (s'.tab.proc z).pid = (s.tab.proc z).pid) ∨
      Reaps s a s' z := by
  have relive (hr : s.tab.Relive s'.tab) :
      (s'.tab.proc z).state = .zombie ∧ (s'.tab.proc z).pid = (s.tab.proc z).pid := by
    refine ⟨?_, hr.pid z⟩
    rcases hr.state z with h1 | ⟨h1, -⟩
    · rw [h1, hz]
    · exact absurd hz h1.ne.2.2
  generalize ht : s'.tab = t at *
  cases h with
  | quiet hr hk => exact Or.inl (relive hr)
  | kill c pid => exact Or.inl (relive (.kill s.tab pid))
  | fill hold hk =>
    rw [Table.fill_old]
    · exact Or.inl ⟨hz, rfl⟩
    · rintro rfl
      exact hold (by rw [hz]; trivial)
  | @exit _ p _ halive he =>
    have hzp : z ≠ p := by
      rintro rfl
      exact halive.ne.2.2 hz
    refine Or.inl ⟨?_, he.pid z⟩
    rcases he.state z hzp with h1 | ⟨h1, -⟩
    · rw [h1, hz]
    · cases h1.symm.trans hz
  | @reap c p y hp hy hparent =>
    by_cases hzy : z = y
    · subst hzy
      exact Or.inr ⟨c, p, rfl, hp, hparent, by rw [ht]; rfl⟩
    · rw [show (s.tab.reap y).proc z = s.tab.proc z from Function.update_of_ne hzy ..]
      exact Or.inl ⟨hz, rfl⟩

variable [DecidableEq C]

structure Families (s : State C) : Prop where
  parent : s.lock = none → ∀ p, (s.tab.proc p).state.Made → p ≠ s.tab.initproc →
    ∃ q, (s.tab.proc p).parent = some q ∧ (s.tab.proc q).state ≠ .unused ∧
      (s.tab.proc q).state ≠ .zombie
  waiting : s.lock = none → ∀ p z, (s.tab.proc p).state = .sleeping →
    (s.tab.proc p).chan = some (.proc p) → (s.tab.proc z).parent = some p →
    (s.tab.proc z).state ≠ .zombie
  zombie : ∀ a s' z, step s a = .ret s' → (s.tab.proc z).state = .zombie →
    ((s'.tab.proc z).state = .zombie ∧ (s'.tab.proc z).pid = (s.tab.proc z).pid) ∨ Reaps s a s' z
  once : s.tab.reaped.Nodup
  fail : ∀ c p, s.ctl c = .wait → s.cur c = some p → s.tab.look p = .fail →
    (∀ q, (s.tab.proc q).parent ≠ some p) ∨ (s.tab.proc p).killed
  pids : ∀ p q, (s.tab.proc p).state ≠ .unused → (s.tab.proc q).state ≠ .unused →
    (s.tab.proc p).pid = (s.tab.proc q).pid → p = q

theorem exit_wait {kstack pgdir : ℕ} (hk : kstack ≠ 0) (hd : pgdir ≠ 0) {es : List (Act C)}
    (hrun : Runs Step (boot C kstack pgdir) es s) : Families s := by
  have h := inv_of_run hk hd hrun
  refine ⟨fun _ p hp hi => ?_, fun _ p z h1 h2 => h.wf.waiting p z ⟨h1, h2⟩,
    fun a s' z hs => (h.change hs).zombie, h.wf.reaped_nodup, fun c p _ _ => look_fail,
    h.wf.pid_inj⟩
  obtain ⟨q, hq, halive⟩ := h.wf.parent p hp hi
  exact ⟨q, hq, halive.ne.1, halive.ne.2.2⟩

set_option maxRecDepth 8192 in
/-- Init has forked two processes. The first, with pid 2, has exited on another CPU, which
went on to the second, and init has reaped it. -/
theorem exit_wait_child : ∃ s es, Runs Step (boot Bool 1 1) es s ∧ s.tab.reaped = [2] ∧
    Families s := by
  have init := (((((Runs.nil (R := Step) (boot Bool 1 1)).snoc
    (e := .acquire true) rfl).snoc (e := .scan true) rfl).snoc (e := .load true) rfl).snoc
    (e := .start true) rfl).snoc (e := .resume true) rfl
  have fork := (((init.snoc (e := .alloc true) rfl).snoc (e := .stack true 2) rfl).snoc
    (e := .copy true 2) rfl).snoc (e := .ready true) rfl
  have again := (((fork.snoc (e := .alloc true) rfl).snoc (e := .stack true 3) rfl).snoc
    (e := .copy true 3) rfl).snoc (e := .ready true) rfl
  have child := (((((again.snoc (e := .acquire false) rfl).snoc (e := .scan false) rfl).snoc
    (e := .scan false) rfl).snoc (e := .load false) rfl).snoc (e := .start false) rfl).snoc
    (e := .resume false) rfl
  have exits := ((child.snoc (e := .exit false) rfl).snoc (e := .sched false) rfl).snoc
    (e := .back false) rfl
  have second := (((exits.snoc (e := .scan false) rfl).snoc (e := .load false) rfl).snoc
    (e := .start false) rfl).snoc (e := .resume false) rfl
  have reaps := (second.snoc (e := .wait true) rfl).snoc (e := .look true) rfl
  exact ⟨_, _, reaps, rfl, exit_wait (by decide) (by decide) reaps⟩

end Xv6.Ptable
