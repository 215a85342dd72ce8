import Mathlib.Data.List.Induction
import Xv6.Ptable.Slots

/-!
# `exit`, `wait` and `kill` on the process table

`exit` wakes its parent, hands its children to init and becomes a zombie in one hold of
the lock, so the parent it wakes finds it. `wait` frees the slot of one zombie child.
-/

namespace Xv6.Ptable
namespace Table

variable {t t' : Table} {p q z : Slot}

structure Abandoned (p : Slot) (l : List Slot) (t t' : Table) : Prop where
  thread : t'.thread = t.thread
  initproc : t'.initproc = t.initproc
  nextpid : t'.nextpid = t.nextpid
  reaped : t'.reaped = t.reaped
  pid : ∀ q, (t'.proc q).pid = (t.proc q).pid
  kstack : ∀ q, (t'.proc q).kstack = (t.proc q).kstack
  pgdir : ∀ q, (t'.proc q).pgdir = (t.proc q).pgdir
  chan : ∀ q, (t'.proc q).chan = (t.proc q).chan
  killed : ∀ q, (t'.proc q).killed = (t.proc q).killed
  parent : ∀ q, (t'.proc q).parent =
    if q ∈ l ∧ (t.proc q).parent = some p then some t.initproc else (t.proc q).parent
  state : ∀ q, (t'.proc q).state = (t.proc q).state ∨
    (t.proc q).state = .sleeping ∧ (t'.proc q).state = .runnable
  woken : ∀ q ∈ l, (t.proc q).parent = some p → (t.proc q).state = .zombie →
    ¬ t'.Waiting t.initproc

theorem Abandoned.nil (p : Slot) (t : Table) : Abandoned p [] t t where
  thread := rfl
  initproc := rfl
  nextpid := rfl
  reaped := rfl
  pid _ := rfl
  kstack _ := rfl
  pgdir _ := rfl
  chan _ := rfl
  killed _ := rfl
  parent q := by
    rw [if_neg fun h => absurd h.1 List.not_mem_nil]
  state _ := Or.inl rfl
  woken _ hq := absurd hq List.not_mem_nil

theorem not_waiting_wakeup1 (t : Table) (p : Slot) : ¬ (t.wakeup1 (some (.proc p))).Waiting p := by
  intro h
  rcases wakeup1_eq (t := t) (some (.proc p)) p with heq | ⟨-, -, heq⟩
  · rw [Waiting, heq] at h
    have : (t.wakeup1 (some (.proc p))).proc p = { t.proc p with state := .runnable } := if_pos h
    rw [heq] at this
    cases h.1.symm.trans (congrArg Proc.state this)
  · rw [Waiting, heq] at h
    cases h.1

theorem Abandoned.wakeup1 {l : List Slot} (h : Abandoned p l t t') (chan : Option Chan) :
    Abandoned p l t (t'.wakeup1 chan) := by
  have hr := Relive.wakeup1 t' chan
  refine ⟨h.thread, h.initproc, h.nextpid, h.reaped, fun q => ?_, fun q => ?_, fun q => ?_,
    fun q => ?_, fun q => ?_, fun q => ?_, fun q => ?_, fun q hq hp hz hw => ?_⟩
  · rw [hr.pid, h.pid]
  · rw [hr.kstack, h.kstack]
  · rcases wakeup1_eq (t := t') chan q with heq | ⟨-, -, heq⟩ <;> rw [heq] <;> exact h.pgdir q
  · rcases wakeup1_eq (t := t') chan q with heq | ⟨-, -, heq⟩ <;> rw [heq] <;> exact h.chan q
  · rcases wakeup1_eq (t := t') chan q with heq | ⟨-, -, heq⟩ <;> rw [heq] <;> exact h.killed q
  · rw [hr.parent, h.parent]
  · rcases wakeup1_eq (t := t') chan q with heq | ⟨hs, -, heq⟩
    · rw [heq]
      exact h.state q
    · rw [heq]
      refine Or.inr ⟨?_, rfl⟩
      rcases h.state q with h1 | h1
      · rw [← h1, hs]
      · exact h1.1
  · refine h.woken q hq hp hz ?_
    rcases wakeup1_eq (t := t') chan t.initproc with heq | ⟨-, -, heq⟩
    · rwa [Waiting, heq] at hw
    · rw [Waiting, heq] at hw
      cases hw.1

theorem Abandoned.skip {l : List Slot} {a : Slot} (h : Abandoned p l t t')
    (ha : (t.proc a).parent = some p → a ∈ l) : Abandoned p (l ++ [a]) t t' where
  thread := h.thread
  initproc := h.initproc
  nextpid := h.nextpid
  reaped := h.reaped
  pid := h.pid
  kstack := h.kstack
  pgdir := h.pgdir
  chan := h.chan
  killed := h.killed
  state := h.state
  parent q := by
    rw [h.parent]
    by_cases hq : (t.proc q).parent = some p
    · by_cases hqa : q = a
      · simp [hqa, ha (hqa ▸ hq)]
      · simp [hqa]
    · simp [hq]
  woken q hq hp hz := by
    refine h.woken q ?_ hp hz
    rcases List.mem_append.mp hq with h1 | h1
    · exact h1
    · rw [List.mem_singleton.mp h1] at hp ⊢
      exact ha hp

theorem Abandoned.hand {l : List Slot} {a : Slot} (h : Abandoned p l t t')
    (ha : (t.proc a).parent = some p)
    (hz : (t.proc a).state = .zombie → ¬ t'.Waiting t.initproc) :
    Abandoned p (l ++ [a]) t (t'.set a fun x => { x with parent := some t.initproc }) := by
  have hset (q : Slot) : (t'.set a fun x => { x with parent := some t.initproc }).proc q =
      { t'.proc q with parent := if q = a then some t.initproc else (t'.proc q).parent } := by
    by_cases hq : q = a
    · rw [hq, set_self, if_pos rfl]
    · rw [set_ne _ hq, if_neg hq]
  refine ⟨h.thread, h.initproc, h.nextpid, h.reaped, fun q => ?_, fun q => ?_, fun q => ?_,
    fun q => ?_, fun q => ?_, fun q => ?_, fun q => ?_, fun q hq hp hzq hw => ?_⟩
  · rw [hset]
    exact h.pid q
  · rw [hset]
    exact h.kstack q
  · rw [hset]
    exact h.pgdir q
  · rw [hset]
    exact h.chan q
  · rw [hset]
    exact h.killed q
  · rw [hset]
    dsimp only
    rw [h.parent]
    by_cases hq : q = a
    · simp [hq, ha]
    · simp [hq]
  · rw [hset]
    exact h.state q
  · rw [Waiting, hset] at hw
    rcases List.mem_append.mp hq with h1 | h1
    · exact h.woken q h1 hp hzq hw
    · rw [List.mem_singleton.mp h1] at hzq
      exact hz hzq hw

theorem wakeup1_set_parent (t : Table) (a : Slot) (v : Option Slot) (chan : Option Chan) :
    (t.set a fun x => { x with parent := v }).wakeup1 chan =
      (t.wakeup1 chan).set a fun x => { x with parent := v } := by
  have hproc (q : Slot) : ((t.set a fun x => { x with parent := v }).wakeup1 chan).proc q =
      ((t.wakeup1 chan).set a fun x => { x with parent := v }).proc q := by
    by_cases hq : q = a
    · subst hq
      simp only [Table.wakeup1, set_self]
      split_ifs <;> rfl
    · simp only [Table.wakeup1, set_ne _ hq]
  exact congrArg (fun f => { t with proc := f }) (funext hproc)

theorem Abandoned.step {l : List Slot} (h : Abandoned p l t t') (hp : p ≠ t.initproc) (a : Slot) :
    Abandoned p (l ++ [a]) t (abandon p t' a) := by
  unfold abandon
  by_cases ha : (t'.proc a).parent = some p
  · rw [if_pos ha]
    have hold : (t.proc a).parent = some p := by
      rw [h.parent] at ha
      split_ifs at ha with hl
      · exact absurd (Option.some.inj ha).symm hp
      · exact ha
    by_cases hz : (t'.proc a).state = .zombie
    · simp only [if_pos hz]
      rw [h.initproc, wakeup1_set_parent]
      exact (h.wakeup1 _).hand hold fun _ => not_waiting_wakeup1 t' t.initproc
    · simp only [if_neg hz]
      rw [h.initproc]
      refine h.hand hold fun hz' => absurd ?_ hz
      rcases h.state a with h1 | h1
      · rw [h1, hz']
      · cases h1.1.symm.trans hz'
  · rw [if_neg ha]
    refine h.skip fun hold => ?_
    by_contra hl
    rw [h.parent, if_neg fun hl' => hl hl'.1] at ha
    exact ha hold

theorem abandoned (t : Table) (hp : p ≠ t.initproc) (l : List Slot) :
    Abandoned p l t (l.foldl (abandon p) t) := by
  induction l using List.reverseRecOn with
  | nil => exact .nil p t
  | append_singleton l a ih =>
    rw [List.foldl_append]
    exact ih.step hp a

structure Exited (p : Slot) (t t' : Table) : Prop where
  thread : t'.thread = t.thread
  initproc : t'.initproc = t.initproc
  nextpid : t'.nextpid = t.nextpid
  reaped : t'.reaped = t.reaped
  pid : ∀ q, (t'.proc q).pid = (t.proc q).pid
  kstack : ∀ q, (t'.proc q).kstack = (t.proc q).kstack
  pgdir : ∀ q, (t'.proc q).pgdir = (t.proc q).pgdir
  killed : ∀ q, (t'.proc q).killed = (t.proc q).killed
  parent : ∀ q, (t'.proc q).parent =
    if (t.proc q).parent = some p then some t.initproc else (t.proc q).parent
  zombie : (t'.proc p).state = .zombie
  state : ∀ q, q ≠ p → (t'.proc q).state = (t.proc q).state ∨
    (t.proc q).state = .sleeping ∧ (t'.proc q).state = .runnable
  waiting : ∀ q, t'.Waiting q → t.Waiting q ∧ (t.proc p).parent ≠ some q
  woken : ∀ q, q ≠ p → (t.proc q).parent = some p → (t.proc q).state = .zombie →
    ¬ t'.Waiting t.initproc

theorem exited (t : Table) (hp : p ≠ t.initproc) : Exited p t (t.exit p) := by
  -- the three parts of the section: wake the parent, hand over the children, leave
  generalize hw : t.wakeup1 ((t.proc p).parent.map .proc) = u
  have hr : Relive t u := hw ▸ Relive.wakeup1 t _
  have hu (q : Slot) : u.proc q = t.proc q ∨ (t.proc q).state = .sleeping ∧
      (t.proc q).chan = (t.proc p).parent.map .proc ∧
      u.proc q = { t.proc q with state := .runnable } := hw ▸ wakeup1_eq _ q
  have ha := abandoned u (hr.initproc ▸ hp) (List.finRange NPROC)
  generalize hv : (List.finRange NPROC).foldl (abandon p) u = v at ha
  have hexit : t.exit p = v.set p fun x => { x with state := .zombie } := by
    rw [exit, hw, hv]
  rw [hexit]
  have hset (q : Slot) : (v.set p fun x => { x with state := .zombie }).proc q =
      { v.proc q with state := if q = p then .zombie else (v.proc q).state } := by
    by_cases hq : q = p
    · rw [hq, set_self, if_pos rfl]
    · rw [set_ne _ hq, if_neg hq]
  have hstate (q : Slot) : (v.proc q).state = (t.proc q).state ∨
      (t.proc q).state = .sleeping ∧ (v.proc q).state = .runnable := by
    rcases hu q with h1 | ⟨h1, -, h2⟩
    · rw [← h1]
      exact ha.state q
    · rcases ha.state q with h3 | h3
      · exact Or.inr ⟨h1, by rw [h3, h2]⟩
      · exact Or.inr ⟨h1, h3.2⟩
  have hback {q : Slot} (hq : (v.set p fun x => { x with state := .zombie }).Waiting q) :
      v.Waiting q := by
    rw [Waiting, hset] at hq
    by_cases hqp : q = p
    · simp [hqp] at hq
    · simpa [hqp, Waiting] using hq
  refine ⟨ha.thread.trans hr.thread, ha.initproc.trans hr.initproc, ha.nextpid.trans hr.nextpid,
    ha.reaped.trans hr.reaped, fun q => ?_, fun q => ?_, fun q => ?_, fun q => ?_, fun q => ?_, ?_,
    fun q hq => ?_, fun q hq => ?_, fun q hqp hq hz hwait => ?_⟩
  · rw [hset]
    exact (ha.pid q).trans (hr.pid q)
  · rw [hset]
    exact (ha.kstack q).trans (hr.kstack q)
  · rw [hset]
    refine (ha.pgdir q).trans ?_
    rcases hu q with h1 | ⟨-, -, h1⟩ <;> rw [h1]
  · rw [hset]
    refine (ha.killed q).trans ?_
    rcases hu q with h1 | ⟨-, -, h1⟩ <;> rw [h1]
  · rw [hset]
    refine (ha.parent q).trans ?_
    rw [hr.parent, hr.initproc]
    simp
  · rw [hset]
    simp
  · rw [hset]
    simpa [hq] using hstate q
  · have hq' := hback hq
    have hchan := ha.chan q
    rcases hu q with h1 | ⟨-, -, h1⟩
    · have hsleep : (t.proc q).state = .sleeping := by
        rcases hstate q with h2 | h2
        · rw [← h2, hq'.1]
        · exact h2.1
      have hc : (t.proc q).chan = some (.proc q) := by
        rw [← h1, ← hchan, hq'.2]
      refine ⟨⟨hsleep, hc⟩, fun hpar => ?_⟩
      have hwoken : u.proc q = { t.proc q with state := .runnable } := by
        rw [← hw]
        exact if_pos ⟨hsleep, by rw [hc, hpar]; rfl⟩
      rw [h1] at hwoken
      cases hsleep.symm.trans (congrArg Proc.state hwoken)
    · -- a process that was woken does not sleep
      have hrun : (u.proc q).state = .runnable := by
        rw [h1]
      rcases ha.state q with h2 | h2
      · cases hq'.1.symm.trans (h2.trans hrun)
      · cases hrun.symm.trans h2.1
  · refine ha.woken q (List.mem_finRange q) (by rw [hr.parent, hq]) ?_
      (by rw [hr.initproc]; exact hback hwait)
    rcases hu q with h1 | ⟨h1, -, -⟩
    · rw [h1, hz]
    · cases h1.symm.trans hz

namespace Exited

variable (he : Exited p t t')
include he

theorem made (hp : (t.proc p).state.Alive) (q : Slot) :
    (t'.proc q).state.Made ↔ (t.proc q).state.Made := by
  by_cases hq : q = p
  · rw [hq, he.zombie]
    exact iff_of_true trivial hp.made
  · rcases he.state q hq with h1 | ⟨h1, h2⟩
    · rw [h1]
    · rw [h1, h2]
      exact Iff.rfl

theorem alive (hq : q ≠ p) (halive : (t.proc q).state.Alive) : (t'.proc q).state.Alive := by
  rcases he.state q hq with h1 | ⟨-, h1⟩
  · rwa [h1]
  · rw [h1]
    trivial

theorem same (hp : (t.proc p).state.Alive) {s : ProcState} (hs : s = .unused ∨ s = .embryo)
    (q : Slot) : (t'.proc q).state = s ↔ (t.proc q).state = s := by
  have hne {x : ProcState} (hx : x.Made) : x ≠ s := by
    rintro rfl
    rcases hs with rfl | rfl <;> exact hx
  by_cases hq : q = p
  · rw [hq]
    exact iff_of_false (by rw [he.zombie]; exact hne trivial) (hne hp.made)
  · rcases he.state q hq with h1 | ⟨h1, h2⟩
    · rw [h1]
    · rw [h1, h2]
      exact iff_of_false (hne trivial) (hne trivial)

theorem wf (h : t.Wf) (hpi : p ≠ t.initproc) (hp : (t.proc p).state.Alive)
    (hu : t.thread p = .user) : t'.Wf := by
  have hused (q : Slot) : (t'.proc q).state ≠ .unused ↔ (t.proc q).state ≠ .unused :=
    not_congr (he.same hp (Or.inl rfl) q)
  refine ⟨?_, ?_, fun q hq => ?_, fun q hq => ?_, fun q hq => ?_, fun q m hq => ?_,
    fun q r m hq hr => ?_, fun q m hq => ?_, fun q m hq => ?_, fun q hq hi => ?_, fun q r hr => ?_,
    fun q z hw hz => ?_, fun q hq => ?_, fun q r hq hr hpid => ?_, fun m hm => ?_, ?_⟩
  · rw [he.initproc]
    exact he.alive hpi.symm h.init
  · rw [he.initproc, he.parent, h.init_parent]
    rfl
  · rw [he.parent] at hq
    split_ifs at hq with hpar
    · rw [← Option.some.inj hq, h.init_parent] at hpar
      cases hpar
    · exact h.no_self q hq
  · rw [he.kstack, he.pgdir]
    exact h.made q ((he.made hp q).mp hq)
  · rw [he.thread] at hq
    refine he.alive ?_ (h.thread q hq)
    rintro rfl
    exact hq hu
  · rw [he.thread] at hq
    exact (he.same hp (Or.inr rfl) m).mpr (h.fills q m hq)
  · rw [he.thread] at hq hr
    exact h.filler q r m hq hr
  · rw [he.thread] at hq
    rw [he.kstack]
    exact h.stacked q m hq
  · rw [he.thread] at hq
    obtain ⟨h1, h2, h3⟩ := h.copied q m hq
    rw [he.kstack, he.pgdir, he.parent, if_neg]
    · exact ⟨h1, h2, h3⟩
    · rw [h3]
      rintro hqp
      rw [Option.some.inj hqp, hu] at hq
      cases hq
  · rw [he.initproc] at hi
    obtain ⟨r, hr, hralive⟩ := h.parent q ((he.made hp q).mp hq) hi
    rw [he.parent]
    by_cases hrp : r = p
    · rw [if_pos (by rw [hr, hrp])]
      exact ⟨t.initproc, rfl, he.alive hpi.symm h.init⟩
    · rw [if_neg (by rw [hr]; exact fun hc => hrp (Option.some.inj hc))]
      exact ⟨r, hr, he.alive hrp hralive⟩
  · rw [he.made hp, he.thread]
    rw [he.parent] at hr
    split_ifs at hr with hpar
    · refine Or.inl ((h.child q p hpar).resolve_right ?_)
      rw [hu]
      exact nofun
    · exact h.child q r hr
  · obtain ⟨hold, hnot⟩ := he.waiting q hw
    rw [he.parent] at hz
    intro hzombie
    by_cases hzp : z = p
    · subst hzp
      split_ifs at hz with hpar
      · exact h.no_self z hpar
      · exact hnot hz
    · have hzold : (t.proc z).state = .zombie := by
        rcases he.state z hzp with h1 | ⟨-, h1⟩
        · rw [← h1, hzombie]
        · cases h1.symm.trans hzombie
      split_ifs at hz with hpar
      · obtain rfl := Option.some.inj hz
        exact he.woken z hzp hpar hzold hw
      · exact h.waiting q z hold hz hzold
  · rw [he.pid, he.nextpid]
    exact h.pid q ((hused q).mp hq)
  · rw [he.pid, he.pid] at hpid
    exact h.pid_inj q r ((hused q).mp hq) ((hused r).mp hr) hpid
  · rw [he.reaped] at hm
    obtain ⟨h1, h2⟩ := h.reaped m hm
    refine ⟨he.nextpid ▸ h1, fun q hq => ?_⟩
    rw [he.pid]
    exact h2 q ((hused q).mp hq)
  · rw [he.reaped]
    exact h.reaped_nodup

end Exited

theorem Wf.reap (h : t.Wf) (hz : (t.proc z).state = .zombie) : (t.reap z).Wf := by
  have hproc (q : Slot) (hq : q ≠ z) : (t.reap z).proc q = t.proc q :=
    Function.update_of_ne hq ..
  have hself : (t.reap z).proc z = { t.proc z with
      kstack := 0, pid := 0, parent := none, killed := false, state := .unused } :=
    Function.update_self ..
  have hne {q : Slot} (hq : (t.proc q).state.Alive) : q ≠ z := by
    rintro rfl
    exact hq.ne.2.2 hz
  have hused {q : Slot} (hq : ((t.reap z).proc q).state ≠ .unused) : q ≠ z := by
    rintro rfl
    rw [hself] at hq
    exact hq rfl
  have hmade {q : Slot} (hq : ((t.reap z).proc q).state.Made) : q ≠ z := by
    rintro rfl
    rw [hself] at hq
    exact hq
  have hfill {q m : Slot} (hq : (t.thread q).slot = some m) : m ≠ z := by
    rintro rfl
    cases hz.symm.trans (h.fills q m hq)
  refine ⟨?_, ?_, fun q hq => ?_, fun q hq => ?_, fun q hq => ?_, fun q m hq => ?_,
    h.filler, fun q m hq => ?_, fun q m hq => ?_, fun q hq hi => ?_, fun q r hr => ?_,
    fun q w hw hwq => ?_, fun q hq => ?_, fun q r hq hr hpid => ?_, fun m hm => ?_, ?_⟩
  · rw [show (t.reap z).initproc = t.initproc from rfl, hproc _ (hne h.init)]
    exact h.init
  · rw [show (t.reap z).initproc = t.initproc from rfl, hproc _ (hne h.init)]
    exact h.init_parent
  · by_cases hqz : q = z
    · rw [hqz, hself] at hq
      cases hq
    · rw [hproc q hqz] at hq
      exact h.no_self q hq
  · have hqz := hmade hq
    rw [hproc q hqz] at hq ⊢
    exact h.made q hq
  · have halive := h.thread q hq
    rw [hproc q (hne halive)]
    exact halive
  · rw [hproc m (hfill hq)]
    exact h.fills q m hq
  · rw [hproc m (hfill (by rw [show t.thread q = _ from hq]; rfl))]
    exact h.stacked q m hq
  · rw [hproc m (hfill (by rw [show t.thread q = _ from hq]; rfl))]
    exact h.copied q m hq
  · have hqz := hmade hq
    rw [hproc q hqz] at hq ⊢
    obtain ⟨r, hr, halive⟩ := h.parent q hq hi
    exact ⟨r, hr, by rwa [hproc r (hne halive)]⟩
  · have hqz : q ≠ z := by
      rintro rfl
      rw [hself] at hr
      cases hr
    rw [hproc q hqz] at hr ⊢
    exact h.child q r hr
  · have hqz : q ≠ z := by
      rintro rfl
      rw [Waiting, hself] at hw
      cases hw.1
    by_cases hwz : w = z
    · rw [hwz, hself]
      exact ProcState.noConfusion
    · rw [hproc w hwz] at hwq ⊢
      rw [Waiting, hproc q hqz] at hw
      exact h.waiting q w hw hwq
  · have hqz := hused hq
    rw [hproc q hqz] at hq ⊢
    exact h.pid q hq
  · have hqz := hused hq
    have hrz := hused hr
    rw [hproc q hqz] at hq hpid
    rw [hproc r hrz] at hr hpid
    exact h.pid_inj q r hq hr hpid
  · have hzused : (t.proc z).state ≠ .unused := by
      rw [hz]
      decide
    rcases List.mem_append.mp hm with hm | hm
    · refine ⟨(h.reaped m hm).1, fun q hq => ?_⟩
      have hqz := hused hq
      rw [hproc q hqz] at hq ⊢
      exact (h.reaped m hm).2 q hq
    · rw [List.mem_singleton] at hm
      subst hm
      refine ⟨(h.pid z hzused).2, fun q hq hpid => ?_⟩
      have hqz := hused hq
      rw [hproc q hqz] at hq hpid
      exact hqz (h.pid_inj q z hq hzused hpid)
  · refine List.nodup_append.mpr ⟨h.reaped_nodup, List.nodup_singleton _, fun m hm n hn => ?_⟩
    rw [List.mem_singleton] at hn
    subst hn
    exact ((h.reaped m hm).2 z (by rw [hz]; decide)).symm

theorem Relive.kill (t : Table) (pid : ℤ) : Relive t (t.kill pid).1 := by
  unfold Table.kill
  cases t.target pid with
  | none =>
    exact ⟨rfl, rfl, rfl, rfl, fun _ => rfl, fun _ => rfl, fun _ => rfl, fun _ => Or.inl rfl,
      fun _ => Or.inl rfl, fun _ => Or.inl⟩
  | some p =>
    dsimp only
    by_cases hs : (t.proc p).state = .sleeping
    · refine Relive.set (Or.inr ?_) rfl rfl rfl (Or.inl rfl) ?_
      · simp only [hs, if_true]
        exact ⟨trivial, trivial⟩
      · simp only [hs, if_true]
        exact nofun
    · refine Relive.set (Or.inl (if_neg hs)) rfl rfl rfl (Or.inl rfl) ?_
      simp only [if_neg hs]
      exact fun h => absurd h hs

theorem userinit_wf {kstack pgdir : ℕ} (hk : kstack ≠ 0) (hd : pgdir ≠ 0) :
    (userinit kstack pgdir).Wf := by
  have hzero : (userinit kstack pgdir).proc 0 =
      ⟨pgdir, kstack, .runnable, 1, none, .forkret, none, false⟩ := by
    simp [userinit]
  have hrest {q : Slot} (hq : q ≠ 0) : (userinit kstack pgdir).proc q =
      ⟨0, 0, .unused, 0, none, .forkret, none, false⟩ := by
    simp [userinit, hq]
  have hparent (q : Slot) : ((userinit kstack pgdir).proc q).parent = none := by
    by_cases hq : q = 0
    · rw [hq, hzero]
    · rw [hrest hq]
  have hmade {q : Slot} (hq : ((userinit kstack pgdir).proc q).state.Made) : q = 0 := by
    by_contra hne
    rw [hrest hne] at hq
    exact hq
  have hused {q : Slot} (hq : ((userinit kstack pgdir).proc q).state ≠ .unused) : q = 0 := by
    by_contra hne
    rw [hrest hne] at hq
    exact hq rfl
  refine ⟨?_, hparent 0, fun q hq => ?_, fun q hq => ?_, fun q hq => absurd rfl hq,
    fun q m hq => absurd hq nofun, fun q r m hq => absurd hq nofun, fun q m hq => absurd hq nofun,
    fun q m hq => absurd hq nofun, fun q hq hi => absurd (hmade hq) hi, fun q r hr => ?_,
    fun q z _ hz => ?_, fun q hq => ?_, fun q r hq hr _ => (hused hq).trans (hused hr).symm,
    fun m hm => absurd hm List.not_mem_nil, List.nodup_nil⟩
  · rw [show (userinit kstack pgdir).initproc = 0 from rfl, hzero]
    trivial
  · rw [hparent] at hq
    cases hq
  · rw [hmade hq, hzero]
    exact ⟨hk, hd⟩
  · rw [hparent] at hr
    cases hr
  · rw [hparent] at hz
    cases hz
  · rw [hused hq, hzero]
    exact ⟨Nat.zero_lt_one, Nat.one_lt_two⟩

end Table

end Xv6.Ptable
