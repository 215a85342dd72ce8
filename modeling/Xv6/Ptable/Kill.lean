import Xv6.Ptable.Change

/-!
# `kill`

`kill` looks at pids only. A slot that is not in use still has a pid: `0`, or the one a
failed `fork` left there. `kill` of such a pid returns `0` and marks the slot, and
`allocproc` hands the mark to the next process. A `fork` that fails after its embryo was
killed leaves the mark too.
-/

namespace Xv6.Ptable
open Lib

/-- `kill(pid)` returns `0` where a process in use has the pid, and marks that one alone. -/
def KillsProcess (t : Table) (pid : ℤ) : Prop :=
  ((t.kill pid).2 = 0 ↔ ∃ p, (t.proc p).state ≠ .unused ∧ (t.proc p).pid = pid) ∧
    ((t.kill pid).2 = 0 → ∃ p, (t.proc p).state ≠ .unused ∧ (t.proc p).pid = pid ∧
      ∀ q, ((t.kill pid).1.proc q).killed = if q = p then true else (t.proc q).killed)

set_option maxRecDepth 8192 in
/-- Only init has been made, and it calls `kill(0)`. No process has pid `0`, but slot 1
does: the call returns `0`, and the child of the next `fork` starts out killed. -/
theorem kill_hits_unused :
    (∃ s es, Runs Step (boot Unit 1 1) es s ∧ ¬ KillsProcess s.tab 0 ∧
      ((s.tab.kill 0).1.proc 1).state = .unused ∧ ((s.tab.kill 0).1.proc 1).killed = true) ∧
    ∃ s es, Runs Step (boot Unit 1 1) es s ∧ s.tab.thread 0 = .stacked 1 ∧
      (s.tab.proc 1).state = .embryo ∧ (s.tab.proc 1).killed = true := by
  have init := (((((Runs.nil (R := Step) (boot Unit 1 1)).snoc
    (e := .acquire ()) rfl).snoc (e := .scan ()) rfl).snoc (e := .load ()) rfl).snoc
    (e := .start ()) rfl).snoc (e := .resume ()) rfl
  have fork := ((init.snoc (e := .kill () 0) rfl).snoc (e := .alloc ()) rfl).snoc
    (e := .stack () 2) rfl
  refine ⟨⟨_, _, init, fun h => ?_, rfl, rfl⟩, ⟨_, _, fork, rfl, rfl, rfl⟩⟩
  obtain ⟨p, hp, hpid⟩ := h.1.mp rfl
  have hpos := (inv_of_run (by decide) (by decide) init).wf.pid p hp
  omega

variable {C : Type} {s s' : State C} {t : Table} {p : Slot} {pid : ℤ}

theorem kill_found (h : t.target pid = some p) (q : Slot) : (t.kill pid).2 = 0 ∧
    ((t.kill pid).1.proc q).killed = if q = p then true else (t.proc q).killed := by
  unfold Table.kill
  rw [h]
  refine ⟨rfl, ?_⟩
  by_cases hq : q = p
  · rw [hq, Table.set_self, if_pos rfl]
  · rw [Table.set_ne _ hq, if_neg hq]

theorem kill_not_found (h : t.target pid = none) : t.kill pid = (t, -1) := by
  unfold Table.kill
  rw [h]

theorem target_pid (h : t.target pid = some p) : (t.proc p).pid = pid :=
  of_decide_eq_true (Table.first_some h)

theorem target_none (h : t.target pid = none) (p : Slot) : ((t.proc p).pid : ℤ) ≠ pid :=
  fun hp => Table.first_none h p (decide_eq_true hp)

def Unmarked (t : Table) : Prop :=
  ∀ p, ¬ (t.proc p).state.Made → (t.proc p).killed = false

theorem killsProcess_iff (h : Unmarked t) :
    KillsProcess t pid ↔ ∀ p, t.target pid = some p → (t.proc p).state ≠ .unused := by
  cases ht : t.target pid with
  | none =>
    refine iff_of_true ⟨?_, ?_⟩ nofun
    · rw [kill_not_found ht]
      exact iff_of_false nofun fun ⟨p, _, hp⟩ => target_none ht p hp
    · rw [kill_not_found ht]
      nofun
  | some p =>
    have hkill := kill_found ht
    refine ⟨fun hk q hq hu => ?_, fun hused => ?_⟩
    · obtain rfl := Option.some.inj hq
      obtain ⟨r, hr, -, hmark⟩ := hk.2 (hkill p).1
      have hpr : p ≠ r := by
        rintro rfl
        exact hr hu
      have h1 := hmark p
      rw [(hkill p).2, if_pos rfl, if_neg hpr, h p (by rw [hu]; exact id)] at h1
      cases h1
    · have hp := hused p rfl
      refine ⟨iff_of_true (hkill p).1 ⟨p, hp, target_pid ht⟩, fun _ => ⟨p, hp, target_pid ht, ?_⟩⟩
      exact fun q => (hkill q).2

def Aimed (s : State C) (a : Act C) : Prop :=
  ∀ c pid p, a = .kill c pid → s.tab.target pid = some p → (s.tab.proc p).state.Made

theorem Change.unmarked {a : Act C} (h : Change s a t) (hu : Unmarked s.tab) (ha : Aimed s a) :
    Unmarked t := by
  have made {t : Table} (hr : s.tab.Relive t) {q : Slot} (hq : ¬ (t.proc q).state.Made) :
      ¬ (s.tab.proc q).state.Made := by
    rcases hr.state q with h1 | ⟨-, h1⟩
    · rwa [h1] at hq
    · exact absurd h1.made hq
  cases h with
  | quiet hr hk =>
    intro q hq
    rw [hk]
    exact hu q (made hr hq)
  | kill c pid =>
    intro q hq
    have hold := made (.kill s.tab pid) hq
    cases ht : s.tab.target pid with
    | none =>
      rw [kill_not_found ht]
      exact hu q hold
    | some p =>
      have hqp : q ≠ p := by
        rintro rfl
        exact hold (ha c pid q rfl ht)
      rw [(kill_found ht q).2, if_neg hqp]
      exact hu q hold
  | @fill _ p np x th n hold hk =>
    intro q hq
    by_cases hqn : q = np
    · rw [hqn, Table.fill_new, hk]
      exact hu np hold
    · rw [Table.fill_old hqn] at hq ⊢
      exact hu q hq
  | @exit _ p _ halive he =>
    intro q hq
    rw [he.killed]
    exact hu q (mt (he.made halive q).mpr hq)
  | @reap c p z hp hz hparent =>
    intro q hq
    by_cases hqz : q = z
    · rw [hqz, show (s.tab.reap z).proc z = _ from Function.update_self ..]
    · have hsame : (s.tab.reap z).proc q = s.tab.proc q := Function.update_of_ne hqz ..
      rw [hsame] at hq ⊢
      exact hu q hq

variable [DecidableEq C]

/-- In a run whose kills all find processes, `kill(pid)` is right where the first slot with
the pid is in use, and no empty slot and no new process is marked. -/
theorem kill_hits_processes {kstack pgdir : ℕ} (hk : kstack ≠ 0) (hd : pgdir ≠ 0)
    {es : List (Act C)}
    (hrun : Runs (fun s a s' => Step s a s' ∧ Aimed s a) (boot C kstack pgdir) es s) :
    (∀ pid, KillsProcess s.tab pid ↔
      ∀ p, s.tab.target pid = some p → (s.tab.proc p).state ≠ .unused) ∧
    ∀ p, (s.tab.proc p).state = .unused ∨ (s.tab.proc p).state = .embryo →
      (s.tab.proc p).killed = false := by
  have hend : Inv s ∧ Unmarked s.tab := by
    refine hrun.invariant (I := fun s => Inv s ∧ Unmarked s.tab)
      (fun s a s' hs hstep => ⟨hs.1.step hstep.1, (hs.1.change hstep.1).unmarked hs.2 hstep.2⟩)
      ⟨boot_inv hk hd, fun p _ => ?_⟩
    simp only [boot, userinit]
    split_ifs <;> rfl
  refine ⟨fun pid => killsProcess_iff hend.2, fun p hp => hend.2 p ?_⟩
  rcases hp with hp | hp <;> rw [hp] <;> exact id

set_option maxRecDepth 8192 in
/-- Init has forked a process and killed it. -/
theorem kill_hits_processes_child : ∃ s es,
    Runs (fun s a s' => Step s a s' ∧ Aimed s a) (boot Unit 1 1) es s ∧
    (s.tab.proc 1).killed = true ∧ (KillsProcess s.tab 2 ↔
      ∀ p, s.tab.target 2 = some p → (s.tab.proc p).state ≠ .unused) := by
  have init := (((((Runs.nil (R := fun s a s' => Step s a s' ∧ Aimed s a) (boot Unit 1 1)).snoc
    (e := .acquire ()) ⟨rfl, nofun⟩).snoc (e := .scan ()) ⟨rfl, nofun⟩).snoc
    (e := .load ()) ⟨rfl, nofun⟩).snoc (e := .start ()) ⟨rfl, nofun⟩).snoc
    (e := .resume ()) ⟨rfl, nofun⟩
  have fork := (((init.snoc (e := .alloc ()) ⟨rfl, nofun⟩).snoc
    (e := .stack () 2) ⟨rfl, nofun⟩).snoc (e := .copy () 2) ⟨rfl, nofun⟩).snoc
    (e := .ready ()) ⟨rfl, nofun⟩
  have kills := fork.snoc (e := .kill () 2) ⟨rfl, fun _ _ p ha ht => by
    cases ha
    cases Option.some.inj (ht.symm.trans (rfl : _ = some (1 : Slot)))
    trivial⟩
  exact ⟨_, _, kills, rfl, (kill_hits_processes (by decide) (by decide) kills).1 2⟩

end Xv6.Ptable
