import Xv6.Ptable.Machine

/-!
# Families, kernel stacks and pids

What holds of the process table between any two steps: who has a parent, which slot
a `fork` is filling, that a process that can run has a stack and a page directory, that
nobody sleeps in `wait` beside a zombie child and that no pid is used twice.
-/

namespace Xv6.Ptable

def ProcState.Alive : ProcState → Prop
  | .sleeping | .runnable | .running => True
  | _ => False

def ProcState.Made : ProcState → Prop
  | .sleeping | .runnable | .running | .zombie => True
  | _ => False

theorem ProcState.Alive.made {s : ProcState} (h : s.Alive) : s.Made := by
  cases s <;> trivial

theorem ProcState.Alive.ne {s : ProcState} (h : s.Alive) :
    s ≠ .unused ∧ s ≠ .embryo ∧ s ≠ .zombie := by
  cases s <;> first | exact h.elim | decide

namespace Table

def Waiting (t : Table) (p : Slot) : Prop :=
  (t.proc p).state = .sleeping ∧ (t.proc p).chan = some (.proc p)

structure Wf (t : Table) : Prop where
  init : (t.proc t.initproc).state.Alive
  init_parent : (t.proc t.initproc).parent = none
  no_self : ∀ p, (t.proc p).parent ≠ some p
  made : ∀ p, (t.proc p).state.Made → (t.proc p).kstack ≠ 0 ∧ (t.proc p).pgdir ≠ 0
  thread : ∀ p, t.thread p ≠ .user → (t.proc p).state.Alive
  fills : ∀ p np, (t.thread p).slot = some np → (t.proc np).state = .embryo
  filler : ∀ p q np, (t.thread p).slot = some np → (t.thread q).slot = some np → p = q
  stacked : ∀ p np, t.thread p = .stacked np → (t.proc np).kstack ≠ 0
  copied : ∀ p np, t.thread p = .copied np →
    (t.proc np).kstack ≠ 0 ∧ (t.proc np).pgdir ≠ 0 ∧ (t.proc np).parent = some p
  parent : ∀ p, (t.proc p).state.Made → p ≠ t.initproc →
    ∃ q, (t.proc p).parent = some q ∧ (t.proc q).state.Alive
  child : ∀ p q, (t.proc p).parent = some q → (t.proc p).state.Made ∨ t.thread q = .copied p
  waiting : ∀ p z, t.Waiting p → (t.proc z).parent = some p → (t.proc z).state ≠ .zombie
  pid : ∀ p, (t.proc p).state ≠ .unused → 0 < (t.proc p).pid ∧ (t.proc p).pid < t.nextpid
  pid_inj : ∀ p q, (t.proc p).state ≠ .unused → (t.proc q).state ≠ .unused →
    (t.proc p).pid = (t.proc q).pid → p = q
  reaped : ∀ n ∈ t.reaped, n < t.nextpid ∧
    ∀ p, (t.proc p).state ≠ .unused → (t.proc p).pid ≠ n
  reaped_nodup : t.reaped.Nodup

variable {t t' : Table} {p q np : Slot}

theorem first_some {f : Slot → Bool} (h : first f = some p) : f p := List.find?_some h

theorem first_none {f : Slot → Bool} (h : first f = none) (q : Slot) : ¬ f q :=
  List.find?_eq_none.mp h q (List.mem_finRange q)

theorem set_self (f : Proc → Proc) : (t.set p f).proc p = f (t.proc p) := Function.update_self ..

theorem set_ne (f : Proc → Proc) (h : q ≠ p) : (t.set p f).proc q = t.proc q :=
  Function.update_of_ne h ..

structure Relive (t t' : Table) : Prop where
  thread : t'.thread = t.thread
  initproc : t'.initproc = t.initproc
  nextpid : t'.nextpid = t.nextpid
  reaped : t'.reaped = t.reaped
  pid : ∀ p, (t'.proc p).pid = (t.proc p).pid
  parent : ∀ p, (t'.proc p).parent = (t.proc p).parent
  kstack : ∀ p, (t'.proc p).kstack = (t.proc p).kstack
  pgdir : ∀ p, (t'.proc p).pgdir = (t.proc p).pgdir ∨ (t'.proc p).pgdir ≠ 0
  state : ∀ p, (t'.proc p).state = (t.proc p).state ∨
    (t.proc p).state.Alive ∧ (t'.proc p).state.Alive
  waiting : ∀ p, t'.Waiting p → t.Waiting p ∨
    ∀ z, (t.proc z).parent = some p → (t.proc z).state ≠ .zombie

theorem Wf.relive (h : t.Wf) (hr : Relive t t') : t'.Wf := by
  have hAlive (p) : (t'.proc p).state.Alive ↔ (t.proc p).state.Alive := by
    rcases hr.state p with h1 | h1
    · rw [h1]
    · exact iff_of_true h1.2 h1.1
  have hMade (p) : (t'.proc p).state.Made ↔ (t.proc p).state.Made := by
    rcases hr.state p with h1 | h1
    · rw [h1]
    · exact iff_of_true h1.2.made h1.1.made
  have hUnused (p) : (t'.proc p).state = .unused ↔ (t.proc p).state = .unused := by
    rcases hr.state p with h1 | h1
    · rw [h1]
    · exact iff_of_false h1.2.ne.1 h1.1.ne.1
  have hEmbryo (p) : (t'.proc p).state = .embryo ↔ (t.proc p).state = .embryo := by
    rcases hr.state p with h1 | h1
    · rw [h1]
    · exact iff_of_false h1.2.ne.2.1 h1.1.ne.2.1
  have hZombie (p) : (t'.proc p).state = .zombie ↔ (t.proc p).state = .zombie := by
    rcases hr.state p with h1 | h1
    · rw [h1]
    · exact iff_of_false h1.2.ne.2.2 h1.1.ne.2.2
  have hPgdir (p) (h0 : (t.proc p).pgdir ≠ 0) : (t'.proc p).pgdir ≠ 0 := by
    rcases hr.pgdir p with h1 | h1
    · rwa [h1]
    · exact h1
  refine ⟨?_, ?_, fun p => ?_, fun p hp => ?_, fun p hp => ?_, fun p np hp => ?_,
    fun p q np hp hq => ?_, fun p np hp => ?_, fun p np hp => ?_, fun p hp hi => ?_, fun p q hq => ?_,
    fun p z hp hz => ?_, fun p hp => ?_, fun p q hp hq hpq => ?_, fun n hn => ?_, ?_⟩
  · rw [hr.initproc, hAlive]
    exact h.init
  · rw [hr.initproc, hr.parent]
    exact h.init_parent
  · rw [hr.parent]
    exact h.no_self p
  · rw [hr.kstack]
    obtain ⟨h1, h2⟩ := h.made p ((hMade p).mp hp)
    exact ⟨h1, hPgdir p h2⟩
  · rw [hr.thread] at hp
    exact (hAlive p).mpr (h.thread p hp)
  · rw [hr.thread] at hp
    exact (hEmbryo np).mpr (h.fills p np hp)
  · rw [hr.thread] at hp hq
    exact h.filler p q np hp hq
  · rw [hr.thread] at hp
    rw [hr.kstack]
    exact h.stacked p np hp
  · rw [hr.thread] at hp
    rw [hr.kstack, hr.parent]
    obtain ⟨h1, h2, h3⟩ := h.copied p np hp
    exact ⟨h1, hPgdir np h2, h3⟩
  · rw [hr.initproc] at hi
    obtain ⟨q, hq, halive⟩ := h.parent p ((hMade p).mp hp) hi
    exact ⟨q, by rw [hr.parent, hq], (hAlive q).mpr halive⟩
  · rw [hr.parent] at hq
    rw [hr.thread, hMade]
    exact h.child p q hq
  · rw [hr.parent] at hz
    rw [Ne, hZombie]
    rcases hr.waiting p hp with h1 | h1
    · exact h.waiting p z h1 hz
    · exact h1 z hz
  · rw [hr.pid, hr.nextpid]
    exact h.pid p (mt (hUnused p).mpr hp)
  · rw [hr.pid, hr.pid] at hpq
    exact h.pid_inj p q (mt (hUnused p).mpr hp) (mt (hUnused q).mpr hq) hpq
  · rw [hr.reaped] at hn
    obtain ⟨h1, h2⟩ := h.reaped n hn
    refine ⟨by rwa [hr.nextpid], fun p hp => ?_⟩
    rw [hr.pid]
    exact h2 p (mt (hUnused p).mpr hp)
  · rw [hr.reaped]
    exact h.reaped_nodup

theorem Relive.set {f : Proc → Proc} (hstate : (f (t.proc p)).state = (t.proc p).state ∨
      (t.proc p).state.Alive ∧ (f (t.proc p)).state.Alive) (hpid : (f (t.proc p)).pid = (t.proc p).pid)
    (hparent : (f (t.proc p)).parent = (t.proc p).parent)
    (hkstack : (f (t.proc p)).kstack = (t.proc p).kstack)
    (hpgdir : (f (t.proc p)).pgdir = (t.proc p).pgdir ∨ (f (t.proc p)).pgdir ≠ 0)
    (hwait : (f (t.proc p)).state = .sleeping → (f (t.proc p)).chan = some (.proc p) →
      t.Waiting p ∨ ∀ z, (t.proc z).parent = some p → (t.proc z).state ≠ .zombie) :
    Relive t (t.set p f) where
  thread := rfl
  initproc := rfl
  nextpid := rfl
  reaped := rfl
  pid q := by
    by_cases hq : q = p
    · rw [hq, set_self, hpid]
    · rw [set_ne f hq]
  parent q := by
    by_cases hq : q = p
    · rw [hq, set_self, hparent]
    · rw [set_ne f hq]
  kstack q := by
    by_cases hq : q = p
    · rw [hq, set_self, hkstack]
    · rw [set_ne f hq]
  pgdir q := by
    by_cases hq : q = p
    · rw [hq, set_self]
      exact hpgdir
    · rw [set_ne f hq]
      exact Or.inl rfl
  state q := by
    by_cases hq : q = p
    · rw [hq, set_self]
      exact hstate
    · rw [set_ne f hq]
      exact Or.inl rfl
  waiting q hw := by
    by_cases hq : q = p
    · subst hq
      rw [Waiting, set_self] at hw
      exact hwait hw.1 hw.2
    · rw [Waiting, set_ne f hq] at hw
      exact Or.inl hw

theorem Relive.start (h : (t.proc p).state.Alive) :
    Relive t (t.set p fun x => { x with state := .running }) :=
  .set (Or.inr ⟨h, trivial⟩) rfl rfl rfl (Or.inl rfl) fun h => absurd h nofun

theorem Relive.yield (h : (t.proc p).state.Alive) :
    Relive t (t.set p fun x => { x with state := .runnable, context := .yield }) :=
  .set (Or.inr ⟨h, trivial⟩) rfl rfl rfl (Or.inl rfl) fun h => absurd h nofun

theorem Relive.sleep (h : (t.proc p).state.Alive) (a : ℕ) : Relive t (t.set p fun x =>
    { x with chan := some (.other a), state := .sleeping, context := .sleep }) :=
  .set (Or.inr ⟨h, trivial⟩) rfl rfl rfl (Or.inl rfl) fun _ h => absurd h nofun

theorem Relive.wait (h : (t.proc p).state.Alive)
    (hz : ∀ z, (t.proc z).parent = some p → (t.proc z).state ≠ .zombie) :
    Relive t (t.set p fun x =>
      { x with chan := some (.proc p), state := .sleeping, context := .wait }) :=
  .set (Or.inr ⟨h, trivial⟩) rfl rfl rfl (Or.inl rfl) fun _ _ => Or.inr hz

theorem Relive.tidy (t : Table) (p : Slot) :
    Relive t (t.set p fun x => { x with chan := none }) :=
  .set (Or.inl rfl) rfl rfl rfl (Or.inl rfl) fun _ h => absurd h nofun

theorem Relive.exec {pgdir : ℕ} (hd : pgdir ≠ 0) (t : Table) (p : Slot) :
    Relive t (t.set p fun x => { x with pgdir := pgdir }) :=
  .set (Or.inl rfl) rfl rfl rfl (Or.inr hd) fun h1 h2 => Or.inl ⟨h1, h2⟩

theorem wakeup1_eq (chan : Option Chan) (p : Slot) :
    (t.wakeup1 chan).proc p = t.proc p ∨ (t.proc p).state = .sleeping ∧
      (t.proc p).chan = chan ∧ (t.wakeup1 chan).proc p = { t.proc p with state := .runnable } := by
  by_cases h : (t.proc p).state = .sleeping ∧ (t.proc p).chan = chan
  · exact Or.inr ⟨h.1, h.2, if_pos h⟩
  · exact Or.inl (if_neg h)

theorem Relive.wakeup1 (t : Table) (chan : Option Chan) : Relive t (t.wakeup1 chan) where
  thread := rfl
  initproc := rfl
  nextpid := rfl
  reaped := rfl
  pid p := by
    rcases wakeup1_eq (t := t) chan p with h | ⟨-, -, h⟩ <;> rw [h]
  parent p := by
    rcases wakeup1_eq (t := t) chan p with h | ⟨-, -, h⟩ <;> rw [h]
  kstack p := by
    rcases wakeup1_eq (t := t) chan p with h | ⟨-, -, h⟩ <;> rw [h]
  pgdir p := by
    rcases wakeup1_eq (t := t) chan p with h | ⟨-, -, h⟩ <;> rw [h] <;> exact Or.inl rfl
  state p := by
    rcases wakeup1_eq (t := t) chan p with h | ⟨hs, -, h⟩
    · rw [h]
      exact Or.inl rfl
    · rw [h, hs]
      exact Or.inr ⟨trivial, trivial⟩
  waiting p hw := by
    rcases wakeup1_eq (t := t) chan p with h | ⟨-, -, h⟩
    · rw [Waiting, h] at hw
      exact Or.inl hw
    · rw [Waiting, h] at hw
      cases hw.1

structure Fill (t : Table) (p np : Slot) (x : Proc) (th : Thread) (n : ℕ) : Prop where
  old : ¬ (t.proc np).state.Made
  alive : (t.proc p).state.Alive
  own : ∀ m, (t.thread p).slot = some m → m = np
  free : ∀ q, (t.thread q).slot = some np → q = p
  slot : ∀ m, th.slot = some m → m = np ∧ x.state = .embryo
  made : x.state.Made → x.state = .runnable ∧ x.kstack ≠ 0 ∧ x.pgdir ≠ 0 ∧ x.parent = some p
  stacked : th = .stacked np → x.kstack ≠ 0
  copied : th = .copied np → x.kstack ≠ 0 ∧ x.pgdir ≠ 0 ∧ x.parent = some p
  parent : ∀ q, x.parent = some q → q = p ∧ (x.state.Made ∨ th = .copied np)
  pid : x.state ≠ .unused →
    (t.proc np).state ≠ .unused ∧ x.pid = (t.proc np).pid ∨ x.pid = t.nextpid ∧ t.nextpid < n
  nextpid : t.nextpid ≤ n

def fill (t : Table) (p np : Slot) (x : Proc) (th : Thread) (n : ℕ) : Table :=
  { t with
    proc := Function.update t.proc np x
    thread := Function.update t.thread p th
    nextpid := n }

section Fill

variable {x : Proc} {th : Thread} {n : ℕ}

theorem fill_new : (t.fill p np x th n).proc np = x := Function.update_self ..

theorem fill_old (hq : q ≠ np) : (t.fill p np x th n).proc q = t.proc q :=
  Function.update_of_ne hq ..

theorem fill_thread : (t.fill p np x th n).thread p = th := Function.update_self ..

theorem fill_other (hq : q ≠ p) : (t.fill p np x th n).thread q = t.thread q :=
  Function.update_of_ne hq ..

theorem Fill.pid_eq (hf : Fill t p np x th n)
    (hq : ((t.fill p np x th n).proc q).state ≠ .unused) :
    (t.proc q).state ≠ .unused ∧ ((t.fill p np x th n).proc q).pid = (t.proc q).pid ∨
      q = np ∧ ((t.fill p np x th n).proc q).pid = t.nextpid ∧ t.nextpid < n := by
  by_cases hqn : q = np
  · subst hqn
    rw [fill_new] at hq ⊢
    exact (hf.pid hq).imp_right fun h1 => ⟨rfl, h1⟩
  · rw [fill_old hqn] at hq ⊢
    exact Or.inl ⟨hq, rfl⟩

theorem Wf.nextpid_pos (h : t.Wf) : 0 < t.nextpid := by
  obtain ⟨h1, h2⟩ := h.pid t.initproc h.init.ne.1
  omega

theorem Wf.fill (h : t.Wf) (x : Proc) (th : Thread) (n : ℕ) (hf : Fill t p np x th n) :
    (t.fill p np x th n).Wf := by
  have hpn : p ≠ np := by
    rintro rfl
    exact hf.old hf.alive.made
  have hin : t.initproc ≠ np := by
    intro hi
    exact hf.old (hi ▸ h.init.made)
  have halive {q : Slot} (hq : (t.proc q).state.Alive) :
      ((t.fill p np x th n).proc q).state.Alive := by
    rwa [fill_old]
    rintro rfl
    exact hf.old hq.made
  have hslot {q m : Slot} (hqp : q ≠ p) (hq : (t.thread q).slot = some m) : m ≠ np := by
    rintro rfl
    exact hqp (hf.free q hq)
  refine ⟨halive h.init, ?_, fun q hq => ?_, fun q hq => ?_, fun q hq => ?_, fun q m hq => ?_,
    fun q r m hq hr => ?_,
    fun q m hq => ?_, fun q m hq => ?_, fun q hq hi => ?_, fun q r hr => ?_, fun q z hw hz => ?_,
    fun q hq => ?_, fun q r hq hr hpid => ?_, fun m hm => ?_, h.reaped_nodup⟩
  · rw [show (t.fill p np x th n).initproc = t.initproc from rfl, fill_old hin]
    exact h.init_parent
  · by_cases hqn : q = np
    · subst hqn
      rw [fill_new] at hq
      exact hpn (hf.parent q hq).1.symm
    · rw [fill_old hqn] at hq
      exact h.no_self q hq
  · by_cases hqn : q = np
    · subst hqn
      rw [fill_new] at hq ⊢
      exact ⟨(hf.made hq).2.1, (hf.made hq).2.2.1⟩
    · rw [fill_old hqn] at hq ⊢
      exact h.made q hq
  · by_cases hqp : q = p
    · rw [hqp]
      exact halive hf.alive
    · rw [fill_other hqp] at hq
      exact halive (h.thread q hq)
  · by_cases hqp : q = p
    · rw [hqp, fill_thread] at hq
      obtain ⟨rfl, hx⟩ := hf.slot m hq
      rw [fill_new, hx]
    · rw [fill_other hqp] at hq
      rw [fill_old (hslot hqp hq)]
      exact h.fills q m hq
  · by_cases hqp : q = p
    · by_cases hrp : r = p
      · rw [hqp, hrp]
      · rw [hqp, fill_thread] at hq
        rw [fill_other hrp] at hr
        exact absurd (hf.slot m hq).1 (hslot hrp hr)
    · rw [fill_other hqp] at hq
      by_cases hrp : r = p
      · rw [hrp, fill_thread] at hr
        exact absurd (hf.slot m hr).1 (hslot hqp hq)
      · rw [fill_other hrp] at hr
        exact h.filler q r m hq hr
  · by_cases hqp : q = p
    · rw [hqp, fill_thread] at hq
      obtain ⟨rfl, -⟩ := hf.slot m (by rw [hq]; rfl)
      rw [fill_new]
      exact hf.stacked hq
    · rw [fill_other hqp] at hq
      rw [fill_old (hslot hqp (by rw [hq]; rfl))]
      exact h.stacked q m hq
  · by_cases hqp : q = p
    · subst hqp
      rw [fill_thread] at hq
      obtain ⟨rfl, -⟩ := hf.slot m (by rw [hq]; rfl)
      rw [fill_new]
      exact hf.copied hq
    · rw [fill_other hqp] at hq
      rw [fill_old (hslot hqp (by rw [hq]; rfl))]
      exact h.copied q m hq
  · by_cases hqn : q = np
    · subst hqn
      rw [fill_new] at hq ⊢
      exact ⟨p, (hf.made hq).2.2.2, halive hf.alive⟩
    · rw [fill_old hqn] at hq ⊢
      obtain ⟨r, hr, hra⟩ := h.parent q hq hi
      exact ⟨r, hr, halive hra⟩
  · by_cases hqn : q = np
    · subst hqn
      rw [fill_new] at hr ⊢
      obtain ⟨rfl, hx⟩ := hf.parent r hr
      rwa [fill_thread]
    · rw [fill_old hqn] at hr ⊢
      rcases h.child q r hr with h1 | h1
      · exact Or.inl h1
      · have hrp : r ≠ p := by
          rintro rfl
          exact hqn (hf.own q (by rw [h1]; rfl))
        rw [fill_other hrp]
        exact Or.inr h1
  · -- the new slot is no zombie and does not sleep
    have hmade (hx : x.state.Made) : x.state = .runnable := (hf.made hx).1
    by_cases hzn : z = np
    · rw [hzn, fill_new]
      intro hx
      exact absurd ((hmade (by rw [hx]; trivial)).symm.trans hx) nofun
    · rw [fill_old hzn] at hz ⊢
      have hqn : q ≠ np := by
        rintro rfl
        rw [Waiting, fill_new] at hw
        exact absurd ((hmade (by rw [hw.1]; trivial)).symm.trans hw.1) nofun
      rw [Waiting, fill_old hqn] at hw
      exact h.waiting q z hw hz
  · rcases hf.pid_eq hq with ⟨hold, heq⟩ | ⟨-, heq, hlt⟩
    · rw [heq]
      exact ⟨(h.pid q hold).1, lt_of_lt_of_le (h.pid q hold).2 hf.nextpid⟩
    · rw [heq]
      exact ⟨h.nextpid_pos, hlt⟩
  · rcases hf.pid_eq hq with ⟨hold, heq⟩ | ⟨hqn, heq, -⟩ <;>
      rcases hf.pid_eq hr with ⟨hold', heq'⟩ | ⟨hrn, heq', -⟩
    · exact h.pid_inj q r hold hold' (by rw [← heq, ← heq', hpid])
    · have := (h.pid q hold).2
      omega
    · have := (h.pid r hold').2
      omega
    · rw [hqn, hrn]
  · obtain ⟨hlt, hne⟩ := h.reaped m hm
    refine ⟨lt_of_lt_of_le hlt hf.nextpid, fun q hq => ?_⟩
    rcases hf.pid_eq hq with ⟨hold, heq⟩ | ⟨-, heq, -⟩
    · rw [heq]
      exact hne q hold
    · omega

end Fill

theorem Wf.free_of_unused (h : t.Wf) (hnp : (t.proc np).state = .unused) (q : Slot) :
    (t.thread q).slot ≠ some np := fun hq => absurd (hnp.symm.trans (h.fills q np hq)) nofun

theorem Wf.parent_of_embryo (h : t.Wf) (hnp : ¬ (t.proc np).state.Made)
    (hq : (t.proc np).parent = some q) : t.thread q = .copied np :=
  (h.child np q hq).resolve_left hnp

theorem Wf.alloc (h : t.Wf) (hp : (t.proc p).state.Alive) (hu : t.thread p = .user) :
    (t.alloc p).Wf := by
  unfold Table.alloc
  cases hfirst : first fun q => (t.proc q).state = .unused with
  | none => exact h
  | some np =>
    have hnp : (t.proc np).state = .unused := of_decide_eq_true (first_some hfirst)
    have hmade : ¬ (t.proc np).state.Made := by
      rw [hnp]
      exact id
    have hfree := h.free_of_unused hnp
    refine h.fill { t.proc np with state := .embryo, pid := t.nextpid } (.allocated np)
      (t.nextpid + 1) ⟨hmade, hp, ?_, fun q hq => absurd hq (hfree q),
        ?_, nofun, nofun, nofun, fun q hq => ?_, fun _ => Or.inr ⟨rfl, Nat.lt_succ_self _⟩,
        Nat.le_succ _⟩
    · rw [hu]
      exact nofun
    · intro m hm
      exact ⟨(Option.some.inj hm).symm, rfl⟩
    · have := h.parent_of_embryo hmade hq
      exact absurd (show (t.thread q).slot = some np by rw [this]; rfl) (hfree q)

theorem Wf.refill (h : t.Wf) (x : Proc) (th : Thread) (hp : (t.thread p).slot = some np)
    (hslot : ∀ m, th.slot = some m → m = np ∧ x.state = .embryo)
    (hmade : x.state.Made →
      x.state = .runnable ∧ x.kstack ≠ 0 ∧ x.pgdir ≠ 0 ∧ x.parent = some p)
    (hstacked : th = .stacked np → x.kstack ≠ 0)
    (hcopied : th = .copied np → x.kstack ≠ 0 ∧ x.pgdir ≠ 0 ∧ x.parent = some p)
    (hparent : ∀ q, x.parent = some q → q = p ∧ (x.state.Made ∨ th = .copied np))
    (hpid : x.pid = (t.proc np).pid) : (t.fill p np x th t.nextpid).Wf := by
  have hembryo := h.fills p np hp
  refine h.fill x th _ ⟨?_, h.thread p ?_, fun m hm => ?_, fun q hq => h.filler q p np hq hp, hslot, hmade,
    hstacked, hcopied, hparent, fun _ => Or.inl ⟨?_, hpid⟩, le_rfl⟩
  · rw [hembryo]
    exact id
  · intro hu
    rw [hu] at hp
    cases hp
  · exact Option.some.inj (hm.symm.trans hp)
  · rw [hembryo]
    exact nofun

theorem Wf.no_parent (h : t.Wf) (hp : (t.thread p).slot = some np) (hc : t.thread p ≠ .copied np)
    (q : Slot) : (t.proc np).parent ≠ some q := by
  intro hq
  have hembryo := h.fills p np hp
  have hcopied := h.parent_of_embryo (by rw [hembryo]; exact id) hq
  obtain rfl := h.filler p q np hp (by rw [hcopied]; rfl)
  exact hc hcopied

theorem Wf.stack (h : t.Wf) (hp : t.thread p = .allocated np) (kstack : ℕ) :
    (t.stack p np kstack).Wf := by
  have hslot : (t.thread p).slot = some np := by
    rw [hp]
    rfl
  have hpar := h.no_parent hslot (by rw [hp]; exact nofun)
  unfold Table.stack
  by_cases hk : kstack = 0
  · rw [if_pos hk]
    exact h.refill { t.proc np with kstack := 0, state := .unused } .user hslot
      nofun nofun nofun nofun (fun q hq => absurd hq (hpar q)) rfl
  · rw [if_neg hk]
    have hembryo := h.fills p np hslot
    refine h.refill { t.proc np with kstack := kstack, context := .forkret } (.stacked np) hslot (fun m hm => ⟨(Option.some.inj hm).symm, hembryo⟩) ?_
      (fun _ => hk) nofun (fun q hq => absurd hq (hpar q)) rfl
    intro hm
    rw [show _ = _ from hembryo] at hm
    exact hm.elim

theorem Wf.copy (h : t.Wf) (hp : t.thread p = .stacked np) (pgdir : ℕ) :
    (t.copy p np pgdir).Wf := by
  have hslot : (t.thread p).slot = some np := by
    rw [hp]
    rfl
  have hpar := h.no_parent hslot (by rw [hp]; exact nofun)
  unfold Table.copy
  by_cases hk : pgdir = 0
  · rw [if_pos hk]
    exact h.refill { t.proc np with pgdir := 0, kstack := 0, state := .unused } .user hslot nofun nofun nofun nofun (fun q hq => absurd hq (hpar q)) rfl
  · rw [if_neg hk]
    have hembryo := h.fills p np hslot
    refine h.refill { t.proc np with pgdir := pgdir, parent := some p } (.copied np) hslot (fun m hm => ⟨(Option.some.inj hm).symm, hembryo⟩) ?_ nofun
      (fun _ => ⟨h.stacked p np hp, hk, rfl⟩)
      (fun q hq => ⟨(Option.some.inj hq).symm, Or.inr rfl⟩) rfl
    intro hm
    rw [show _ = _ from hembryo] at hm
    exact hm.elim

theorem Wf.ready (h : t.Wf) (hp : t.thread p = .copied np) : (t.ready p np).Wf := by
  have hslot : (t.thread p).slot = some np := by
    rw [hp]
    rfl
  obtain ⟨h1, h2, h3⟩ := h.copied p np hp
  exact h.refill { t.proc np with state := .runnable } .user hslot nofun
    (fun _ => ⟨rfl, h1, h2, h3⟩) nofun nofun
    (fun q hq => ⟨Option.some.inj (hq.symm.trans h3), Or.inl trivial⟩) rfl

end Table

end Xv6.Ptable
