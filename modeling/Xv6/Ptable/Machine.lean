import Mathlib.Data.List.FinRange
import Xv6.Lib.Outcome
import Xv6.Lib.Trace
import Xv6.Param

/-!
# The process table and the schedulers

`proc.c` for any CPUs `C`: every CPU runs `scheduler` or the kernel thread of the process
it has chosen, and all meet at `ptable.lock`. What a thread does under the lock up to
`sched` or `release` is one step, but `sched`, `swtch` and the rounds of `scheduler` are
steps of their own, so that the lock passes from one side of a switch to the other.
`fork` fills its new slot without the lock, also in steps of its own, and a timer
interrupt may call `yield` between any two of them.

Pids are not wrapped: `nextpid++` beyond the range of `int` is undefined.
-/

namespace Xv6.Ptable
open Lib

abbrev Slot := Fin NPROC

instance : NeZero NPROC := ⟨by decide⟩

inductive ProcState
  | unused
  | embryo
  | sleeping
  | runnable
  | running
  | zombie
  deriving DecidableEq

/-- A sleep channel: a `struct proc` or some other address. -/
inductive Chan
  | proc (p : Slot)
  | other (a : ℕ)
  deriving DecidableEq

/-- Where `swtch` goes on in a process. -/
inductive Context
  | forkret
  | yield
  | sleep
  | wait
  deriving DecidableEq

structure Proc where
  pgdir : ℕ
  kstack : ℕ
  state : ProcState
  pid : ℕ
  parent : Option Slot
  context : Context
  chan : Option Chan
  killed : Bool

/-- How far a kernel thread has come in `fork`. -/
inductive Thread
  | user
  | allocated (np : Slot)
  | stacked (np : Slot)
  | copied (np : Slot)
  deriving DecidableEq

def Thread.slot : Thread → Option Slot
  | .user => none
  | .allocated np | .stacked np | .copied np => some np

structure Table where
  proc : Slot → Proc
  thread : Slot → Thread
  initproc : Slot
  nextpid : ℕ
  /-- The pids that calls of `wait` have returned. -/
  reaped : List ℕ

namespace Table

def set (t : Table) (p : Slot) (f : Proc → Proc) : Table :=
  { t with proc := Function.update t.proc p (f (t.proc p)) }

def goto (t : Table) (p : Slot) (th : Thread) : Table :=
  { t with thread := Function.update t.thread p th }

def first (f : Slot → Bool) : Option Slot := (List.finRange NPROC).find? f

def wakeup1 (t : Table) (chan : Option Chan) : Table :=
  { t with proc := fun p =>
      if (t.proc p).state = .sleeping ∧ (t.proc p).chan = chan then
        { t.proc p with state := .runnable }
      else t.proc p }

def target (t : Table) (pid : ℤ) : Option Slot := first fun p => (t.proc p).pid = pid

def kill (t : Table) (pid : ℤ) : Table × ℤ :=
  match t.target pid with
  | some p =>
    (t.set p fun x =>
      { x with killed := true, state := if x.state = .sleeping then .runnable else x.state }, 0)
  | none => (t, -1)

/-- The locked part of `allocproc`, called by `p`. -/
def alloc (t : Table) (p : Slot) : Table :=
  match first fun q => (t.proc q).state = .unused with
  | some np =>
    { (t.set np fun x => { x with state := .embryo, pid := t.nextpid }).goto p (.allocated np) with
      nextpid := t.nextpid + 1 }
  | none => t

def stack (t : Table) (p np : Slot) (kstack : ℕ) : Table :=
  if kstack = 0 then
    (t.set np fun x => { x with kstack := 0, state := .unused }).goto p .user
  else
    (t.set np fun x => { x with kstack := kstack, context := .forkret }).goto p (.stacked np)

/-- `fork` up to the second `acquire`, with the result of `copyuvm`. -/
def copy (t : Table) (p np : Slot) (pgdir : ℕ) : Table :=
  if pgdir = 0 then
    (t.set np fun x => { x with pgdir := 0, kstack := 0, state := .unused }).goto p .user
  else
    (t.set np fun x => { x with pgdir := pgdir, parent := some p }).goto p (.copied np)

def ready (t : Table) (p np : Slot) : Table :=
  (t.set np fun x => { x with state := .runnable }).goto p .user

def abandon (p : Slot) (t : Table) (q : Slot) : Table :=
  if (t.proc q).parent = some p then
    let t' := t.set q fun x => { x with parent := some t.initproc }
    if (t.proc q).state = .zombie then t'.wakeup1 (some (.proc t.initproc)) else t'
  else t

/-- `exit` from `acquire` to `sched`. -/
def exit (t : Table) (p : Slot) : Table :=
  ((List.finRange NPROC).foldl (abandon p) (t.wakeup1 ((t.proc p).parent.map .proc))).set p
    fun x => { x with state := .zombie }

inductive Found
  | child (z : Slot)
  | fail
  | sleep

def look (t : Table) (p : Slot) : Found :=
  match first fun q => (t.proc q).parent = some p ∧ (t.proc q).state = .zombie with
  | some z => .child z
  | none =>
    if (first fun q => (t.proc q).parent = some p) = none ∨ (t.proc p).killed then .fail
    else .sleep

def reap (t : Table) (z : Slot) : Table :=
  { t.set z fun x =>
      { x with kstack := 0, pid := 0, parent := none, killed := false, state := .unused } with
    reaped := t.reaped ++ [(t.proc z).pid] }

end Table

/-- What a CPU is doing; `c->proc` is the process meant. -/
inductive Ctl
  /-- In `scheduler`, without the lock. -/
  | idle
  /-- In the loop of `scheduler`, at a slot. -/
  | scan (i : ℕ)
  /-- Before `switchuvm`. -/
  | chosen
  /-- After `switchuvm`. -/
  | loaded
  /-- In the process, just after `swtch`. -/
  | resume
  /-- In the process, without the lock. -/
  | run
  /-- In the loop of `wait`. -/
  | wait
  /-- In `sched`. -/
  | sched
  /-- In `scheduler`, just after `swtch`. -/
  | back
  deriving DecidableEq

structure State (C : Type) where
  tab : Table
  ctl : C → Ctl
  cur : C → Option Slot
  lock : Option C

inductive Act (C : Type)
  | acquire (c : C)
  | scan (c : C)
  | load (c : C)
  | start (c : C)
  | resume (c : C)
  | sched (c : C)
  | back (c : C)
  | yield (c : C)
  | sleep (c : C) (a : ℕ)
  | wakeup (c : C) (chan : Chan)
  | kill (c : C) (pid : ℤ)
  | alloc (c : C)
  | stack (c : C) (kstack : ℕ)
  | copy (c : C) (pgdir : ℕ)
  | ready (c : C)
  | exec (c : C) (pgdir : ℕ)
  | growproc (c : C)
  | exit (c : C)
  | wait (c : C)
  | look (c : C)

variable {C : Type} [DecidableEq C]

namespace State

def goto (s : State C) (c : C) (k : Ctl) : State C := { s with ctl := Function.update s.ctl c k }

def withTab (s : State C) (t : Table) : State C := { s with tab := t }

def onProc (s : State C) (c : C) (k : Ctl) (f : Slot → Outcome (State C)) : Outcome (State C) :=
  if s.ctl c = k then
    match s.cur c with
    | some p => f p
    | none => .panic "trap"
  else .hang

/-- Run `f` under `ptable.lock`, taken by CPU `c`; block while the lock is taken. -/
def locked (s : State C) (o : Outcome (State C)) : Outcome (State C) :=
  if s.lock = none then o else .hang

def leave (s : State C) (c : C) (t : Table) : Outcome (State C) :=
  .ret { (s.withTab t).goto c .sched with lock := some c }

def switchuvm (s : State C) (p : Slot) : Outcome (State C) :=
  if (s.tab.proc p).kstack = 0 then .panic "switchuvm: no kstack"
  else if (s.tab.proc p).pgdir = 0 then .panic "switchuvm: no pgdir"
  else .ret s

end State

open State in
def step (s : State C) : Act C → Outcome (State C)
  -- scheduler
  | .acquire c =>
    if s.ctl c = .idle then s.locked (.ret { s.goto c (.scan 0) with lock := some c }) else .hang
  | .scan c =>
    match s.ctl c with
    | .scan i =>
      if h : i < NPROC then
        if (s.tab.proc ⟨i, h⟩).state ≠ .runnable then .ret (s.goto c (.scan (i + 1)))
        else .ret { s.goto c .chosen with cur := Function.update s.cur c (some ⟨i, h⟩) }
      else .ret { s.goto c .idle with lock := none }
    | _ => .hang
  | .load c => s.onProc c .chosen fun p => (s.switchuvm p).bind fun s => .ret (s.goto c .loaded)
  | .start c => s.onProc c .loaded fun p =>
      .ret ((s.withTab (s.tab.set p fun x => { x with state := .running })).goto c .resume)
  | .resume c => s.onProc c .resume fun p =>
      match (s.tab.proc p).context with
      | .forkret | .yield => .ret { s.goto c .run with lock := none }
      | .sleep =>
        .ret { (s.withTab (s.tab.set p fun x => { x with chan := none })).goto c .run with
          lock := none }
      | .wait => .ret ((s.withTab (s.tab.set p fun x => { x with chan := none })).goto c .wait)
  | .sched c => s.onProc c .sched fun p =>
      if (s.tab.proc p).state = .running then .panic "sched running" else .ret (s.goto c .back)
  | .back c => s.onProc c .back fun p =>
      .ret { s.goto c (.scan (p + 1)) with cur := Function.update s.cur c none }
  -- calls of the process on the CPU
  | .yield c => s.onProc c .run fun p => s.locked <|
      s.leave c (s.tab.set p fun x => { x with state := .runnable, context := .yield })
  | .sleep c a => s.onProc c .run fun p => s.locked <| s.leave c (s.tab.set p fun x =>
      { x with chan := some (.other a), state := .sleeping, context := .sleep })
  | .wakeup c chan =>
    -- also from an interrupt on a CPU without a process
    if s.ctl c = .run ∨ s.ctl c = .idle then
      s.locked (.ret (s.withTab (s.tab.wakeup1 (some chan))))
    else .hang
  | .kill c pid => s.onProc c .run fun _ => s.locked (.ret (s.withTab (s.tab.kill pid).1))
  | .alloc c => s.onProc c .run fun p =>
      if s.tab.thread p = .user then s.locked (.ret (s.withTab (s.tab.alloc p))) else .hang
  | .stack c kstack => s.onProc c .run fun p =>
      match s.tab.thread p with
      | .allocated np => .ret (s.withTab (s.tab.stack p np kstack))
      | _ => .hang
  | .copy c pgdir => s.onProc c .run fun p =>
      match s.tab.thread p with
      | .stacked np => .ret (s.withTab (s.tab.copy p np pgdir))
      | _ => .hang
  | .ready c => s.onProc c .run fun p =>
      match s.tab.thread p with
      | .copied np => s.locked (.ret (s.withTab (s.tab.ready p np)))
      | _ => .hang
  | .exec c pgdir => s.onProc c .run fun p =>
      -- `setupkvm` has not failed
      if pgdir = 0 then .ret s
      else (s.withTab (s.tab.set p fun x => { x with pgdir := pgdir })).switchuvm p
  | .growproc c => s.onProc c .run fun p => s.switchuvm p
  | .exit c => s.onProc c .run fun p =>
      if s.tab.thread p ≠ .user then .hang
      else if p = s.tab.initproc then .panic "init exiting"
      else s.locked (s.leave c (s.tab.exit p))
  | .wait c => s.onProc c .run fun p =>
      if s.tab.thread p = .user then s.locked (.ret { s.goto c .wait with lock := some c })
      else .hang
  | .look c => s.onProc c .wait fun p =>
      match s.tab.look p with
      | .child z => .ret { (s.withTab (s.tab.reap z)).goto c .run with lock := none }
      | .fail => .ret { s.goto c .run with lock := none }
      | .sleep => s.leave c (s.tab.set p fun x =>
          { x with chan := some (.proc p), state := .sleeping, context := .wait })

abbrev Step (s : State C) (a : Act C) (s' : State C) : Prop := step s a = .ret s'

/-- The table after `userinit`, with the addresses of the stack and the page directory
of the first process. -/
def userinit (kstack pgdir : ℕ) : Table where
  proc := fun p =>
    if p = 0 then ⟨pgdir, kstack, .runnable, 1, none, .forkret, none, false⟩
    else ⟨0, 0, .unused, 0, none, .forkret, none, false⟩
  thread := fun _ => .user
  initproc := 0
  nextpid := 2
  reaped := []

def boot (C : Type) (kstack pgdir : ℕ) : State C where
  tab := userinit kstack pgdir
  ctl := fun _ => .idle
  cur := fun _ => none
  lock := none

end Xv6.Ptable
