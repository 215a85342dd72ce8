import Xv6.Ptable.Calls

/-!
# What a step does to the process table

Every step leaves the table alone up to the states of live processes, kills, fills a slot
for `fork`, exits or reaps a child.
-/

namespace Xv6.Ptable
open Lib

variable {C : Type}

inductive Change (s : State C) : Act C → Table → Prop
  | quiet {a : Act C} {t : Table} (hr : s.tab.Relive t)
      (hk : ∀ q, (t.proc q).killed = (s.tab.proc q).killed) : Change s a t
  | kill (c : C) (pid : ℤ) : Change s (.kill c pid) (s.tab.kill pid).1
  | fill {a : Act C} {p np : Slot} {x : Proc} {th : Thread} {n : ℕ}
      (hold : ¬ (s.tab.proc np).state.Made) (hk : x.killed = (s.tab.proc np).killed) :
      Change s a (s.tab.fill p np x th n)
  | exit {a : Act C} {p : Slot} {t : Table} (halive : (s.tab.proc p).state.Alive)
      (he : s.tab.Exited p t) : Change s a t
  | reap {c : C} {p z : Slot} (hp : s.cur c = some p) (hz : (s.tab.proc z).state = .zombie)
      (hparent : (s.tab.proc z).parent = some p) : Change s (.look c) (s.tab.reap z)

variable {s s' : State C} {p : Slot}

theorem Change.same (s : State C) (a : Act C) : Change s a s.tab :=
  .quiet ⟨rfl, rfl, rfl, rfl, fun _ => rfl, fun _ => rfl, fun _ => rfl, fun _ => Or.inl rfl,
    fun _ => Or.inl rfl, fun _ => Or.inl⟩ fun _ => rfl

theorem Change.set {a : Act C} {f : Proc → Proc} (hr : s.tab.Relive (s.tab.set p f))
    (hk : (f (s.tab.proc p)).killed = (s.tab.proc p).killed) : Change s a (s.tab.set p f) := by
  refine .quiet hr fun q => ?_
  by_cases hq : q = p
  · rw [hq, Table.set_self, hk]
  · rw [Table.set_ne f hq]

theorem Change.alloc {a : Act C} (p : Slot) : Change s a (s.tab.alloc p) := by
  unfold Table.alloc
  cases hf : Table.first fun q => (s.tab.proc q).state = .unused with
  | none => exact .same s a
  | some np =>
    refine .fill (p := p) ?_ rfl
    rw [show _ = _ from of_decide_eq_true (Table.first_some hf)]
    exact id

theorem Change.stack {a : Act C} {np : Slot} (hold : ¬ (s.tab.proc np).state.Made) (k : ℕ) :
    Change s a (s.tab.stack p np k) := by
  unfold Table.stack
  split_ifs <;> exact .fill hold rfl

theorem Change.copy {a : Act C} {np : Slot} (hold : ¬ (s.tab.proc np).state.Made) (k : ℕ) :
    Change s a (s.tab.copy p np k) := by
  unfold Table.copy
  split_ifs <;> exact .fill hold rfl

theorem Inv.filling (h : Inv s) {np : Slot} (hp : (s.tab.thread p).slot = some np) :
    ¬ (s.tab.proc np).state.Made := by
  rw [h.wf.fills p np hp]
  exact id

variable [DecidableEq C]

theorem Inv.change {a : Act C} (h : Inv s) (hs : Ptable.step s a = .ret s') :
    Change s a s'.tab := by
  cases a with
  | acquire c =>
    simp only [Ptable.step] at hs
    split_ifs at hs
    obtain ⟨-, hs⟩ := locked_ret hs
    cases hs
    exact .same s _
  | scan c =>
    simp only [Ptable.step] at hs
    split at hs
    · split_ifs at hs <;> cases hs <;> exact .same s _
    · cases hs
  | load c =>
    obtain ⟨p, hk, hp, hs⟩ := onProc_ret hs
    obtain ⟨t, ht, hs⟩ := Outcome.bind_eq_ret.mp hs
    cases switchuvm_ret ht
    cases hs
    exact .same s _
  | start c =>
    obtain ⟨p, hk, hp, hs⟩ := onProc_ret hs
    cases hs
    have hon := h.on c p hp
    rw [hk] at hon
    refine .set (.start ?_) rfl
    rw [show _ = _ from hon]
    trivial
  | resume c =>
    obtain ⟨p, hk, hp, hs⟩ := onProc_ret hs
    cases hc : (s.tab.proc p).context <;> rw [hc] at hs <;> cases hs
    · exact .same s _
    · exact .same s _
    · exact .set (.tidy _ p) rfl
    · exact .set (.tidy _ p) rfl
  | sched c =>
    obtain ⟨p, hk, hp, hs⟩ := onProc_ret hs
    split_ifs at hs
    cases hs
    exact .same s _
  | back c =>
    obtain ⟨p, hk, hp, hs⟩ := onProc_ret hs
    cases hs
    exact .same s _
  | yield c =>
    obtain ⟨p, hk, hp, hs⟩ := onProc_ret hs
    obtain ⟨-, hs⟩ := locked_ret hs
    cases hs
    exact .set (.yield (h.alive (Or.inl hk) hp)) rfl
  | sleep c a =>
    obtain ⟨p, hk, hp, hs⟩ := onProc_ret hs
    obtain ⟨-, hs⟩ := locked_ret hs
    cases hs
    exact .set (.sleep (h.alive (Or.inl hk) hp) a) rfl
  | wakeup c chan =>
    simp only [Ptable.step] at hs
    split_ifs at hs
    obtain ⟨-, hs⟩ := locked_ret hs
    cases hs
    refine .quiet (.wakeup1 s.tab _) fun q => ?_
    rcases Table.wakeup1_eq (t := s.tab) (some chan) q with h1 | ⟨-, -, h1⟩ <;>
      rw [State.withTab, h1]
  | kill c pid =>
    obtain ⟨p, hk, hp, hs⟩ := onProc_ret hs
    obtain ⟨-, hs⟩ := locked_ret hs
    cases hs
    exact .kill c pid
  | alloc c =>
    obtain ⟨p, hk, hp, hs⟩ := onProc_ret hs
    split_ifs at hs
    obtain ⟨-, hs⟩ := locked_ret hs
    cases hs
    exact .alloc p
  | stack c kstack =>
    obtain ⟨p, hk, hp, hs⟩ := onProc_ret hs
    cases hth : s.tab.thread p <;> rw [hth] at hs <;> cases hs
    exact .stack (h.filling (by rw [hth]; rfl)) kstack
  | copy c pgdir =>
    obtain ⟨p, hk, hp, hs⟩ := onProc_ret hs
    cases hth : s.tab.thread p <;> rw [hth] at hs <;> cases hs
    exact .copy (h.filling (by rw [hth]; rfl)) pgdir
  | ready c =>
    obtain ⟨p, hk, hp, hs⟩ := onProc_ret hs
    cases hth : s.tab.thread p with
    | copied np =>
      rw [hth] at hs
      obtain ⟨-, hs⟩ := locked_ret hs
      cases hs
      exact .fill (h.filling (by rw [hth]; rfl)) rfl
    | _ =>
      rw [hth] at hs
      cases hs
  | exec c pgdir =>
    obtain ⟨p, hk, hp, hs⟩ := onProc_ret hs
    split_ifs at hs with hd
    · cases hs
      exact .same s _
    · rw [switchuvm_ret hs]
      exact .set (.exec hd _ p) rfl
  | growproc c =>
    obtain ⟨p, hk, hp, hs⟩ := onProc_ret hs
    rw [switchuvm_ret hs]
    exact .same s _
  | exit c =>
    obtain ⟨p, hk, hp, hs⟩ := onProc_ret hs
    split_ifs at hs with hu hi
    obtain ⟨-, hs⟩ := locked_ret hs
    cases hs
    exact .exit (h.alive (Or.inl hk) hp) (Table.exited s.tab hi)
  | wait c =>
    obtain ⟨p, hk, hp, hs⟩ := onProc_ret hs
    split_ifs at hs
    obtain ⟨-, hs⟩ := locked_ret hs
    cases hs
    exact .same s _
  | look c =>
    obtain ⟨p, hk, hp, hs⟩ := onProc_ret hs
    cases hl : s.tab.look p with
    | child z =>
      rw [hl] at hs
      cases hs
      exact .reap hp (look_child hl).2 (look_child hl).1
    | fail =>
      rw [hl] at hs
      cases hs
      exact .same s _
    | sleep =>
      rw [hl] at hs
      cases hs
      exact .set (.wait (h.alive (Or.inr hk) hp) (look_sleep hl)) rfl

end Xv6.Ptable
