import Mathlib.Data.Fintype.Card
import Xv6.Lib.Bytes
import Xv6.Lib.Outcome
import Xv6.Param

/-!
# The two disk drivers

`memide.c` has the disk in memory and serves a request in the call. `ide.c` queues the requests
for a drive and sleeps until an interrupt completes them. A step of `ide.c` is what a process or
the interrupt handler does from taking `idelock` to giving it up. A sleeper looks at its buffer
again when `wakeup` or `kill` has made it runnable. The drive does one command at a time, raises
one interrupt for each and reports no error. A block is one sector.
-/

namespace Xv6.Ide
open Function Lib

/-- `struct buf` without its links; `lock` is the holder of the sleep lock. -/
structure Buf (P : Type) where
  valid : Bool
  dirty : Bool
  dev : ℕ
  blockno : ℕ
  lock : Option P
  data : Bytes

variable {P B : Type}

namespace Buf

/-- `(b->flags & (B_VALID|B_DIRTY)) == B_VALID` -/
def Done (x : Buf P) : Prop := x.valid = true ∧ x.dirty = false

instance (x : Buf P) : Decidable x.Done := inferInstanceAs (Decidable (_ ∧ _))

/-- `iderw` of `memide.c` -/
def iderw (disksize : ℕ) (x : Buf P) (memdisk : ℕ → Bytes) : Outcome (Buf P × (ℕ → Bytes)) :=
  if x.lock = none then .panic "iderw: buf not locked"
  else if x.Done then .panic "iderw: nothing to do"
  else if x.dev ≠ 1 then .panic "iderw: request not for disk 1"
  else if disksize ≤ x.blockno then .panic "iderw: block out of range"
  else if x.dirty then
    .ret ({ x with dirty := false, valid := true }, update memdisk x.blockno x.data)
  else .ret ({ x with data := memdisk x.blockno, valid := true }, memdisk)

def finish (x : Buf P) (port : Bytes) : Buf P :=
  { x with valid := true, dirty := false, data := if x.dirty then x.data else port }

end Buf

/-- What the registers hold: the drive, 28 bits of the sector, and the data of a write. -/
inductive Cmd
  | read (unit sector : ℕ)
  | write (unit sector : ℕ) (data : Bytes)

structure Drive where
  busy : Option Cmd
  irq : Bool
  port : Bytes
  disk : ℕ → ℕ → Bytes

def Drive.perform (v : Drive) : Cmd → Drive
  | .read unit sector => ⟨none, true, v.disk unit sector, v.disk⟩
  | .write unit sector data =>
    ⟨none, true, v.port, update v.disk unit (update (v.disk unit) sector data)⟩

def command (x : Buf P) : Cmd :=
  if x.dirty then .write (x.dev % 2) (x.blockno % 2 ^ 28) x.data
  else .read (x.dev % 2) (x.blockno % 2 ^ 28)

/-- Where a process is: outside of `iderw`, or in its loop around `sleep`. -/
inductive Proc (B : Type)
  | user
  | asleep (b : B)
  | awake (b : B)

def Proc.wakeup [DecidableEq B] (b : B) : Proc B → Proc B
  | .asleep c => if c = b then .awake c else .asleep c
  | l => l

structure Driver (P B : Type) where
  buf : B → Buf P
  qnext : B → Option B
  idequeue : Option B
  havedisk1 : Bool
  drive : Drive
  proc : P → Proc B

/-- `for(pp=&idequeue; *pp; pp=&(*pp)->qnext)`, where `none` is `&idequeue` and `some b` is
`&b->qnext`. After more rounds than there are buffers the loop has no end. -/
def walk (qnext : B → Option B) : ℕ → Option B → Option B → Outcome (Option B)
  | _, pp, none => .ret pp
  | 0, _, some _ => .hang
  | n + 1, _, some c => walk qnext n (some c) (qnext c)

namespace Driver

variable [DecidableEq P] [DecidableEq B] (s : Driver P B)

def idestart : Option B → Outcome (Driver P B)
  | none => .panic "idestart"
  | some b =>
    if FSSIZE ≤ (s.buf b).blockno then .panic "incorrect blockno"
    -- idewait(0) spins
    else if s.drive.busy.isSome then .hang
    else .ret { s with drive := { s.drive with busy := some (command (s.buf b)) } }

def store (b : B) : Option B → Driver P B
  | none => { s with idequeue := some b }
  | some c => { s with qnext := update s.qnext c (some b) }

/-- The loop of `iderw`: return when the buffer is done, or sleep. -/
def check (p : P) (b : B) : Driver P B :=
  { s with proc := update s.proc p (if (s.buf b).Done then .user else .asleep b) }

def iderw [Fintype B] (p : P) (b : B) : Outcome (Driver P B) :=
  if (s.buf b).lock = none then .panic "iderw: buf not locked"
  else if (s.buf b).Done then .panic "iderw: nothing to do"
  else if (s.buf b).dev ≠ 0 ∧ s.havedisk1 = false then .panic "iderw: ide disk 1 not present"
  else
    let s := { s with qnext := update s.qnext b none }
    (walk s.qnext (Fintype.card B) none s.idequeue).bind fun pp =>
      let s := s.store b pp
      (if s.idequeue = some b then s.idestart (some b) else .ret s).bind fun s =>
        .ret (s.check p b)

def ideintr : Outcome (Driver P B) :=
  match s.idequeue with
  | none => .ret s
  | some b =>
    -- idewait(1) spins
    if (s.buf b).dirty = false ∧ s.drive.busy.isSome then .hang
    else
      let s := { s with
        idequeue := s.qnext b
        buf := update s.buf b ((s.buf b).finish s.drive.port)
        proc := fun p => (s.proc p).wakeup b }
      if s.idequeue = none then .ret s else s.idestart s.idequeue

end Driver

/-- A buffer of disk 1 that `p` has locked, with something to do. -/
structure Buf.Ready (x : Buf P) (p : P) : Prop where
  lock : x.lock = some p
  undone : ¬x.Done
  dev : x.dev = 1
  blockno : x.blockno < FSSIZE

def Buf.Open (x : Buf P) (p : P) : Prop := x.lock = none ∨ x.lock = some p

inductive Event (P B : Type)
  | use (p : P) (b : B) (x : Buf P)
  | request (p : P) (b : B)
  | complete
  | done (p : P) (b : B)

variable [DecidableEq P] [DecidableEq B]

inductive Driver.Step [Fintype B] : Driver P B → Option (Event P B) → Driver P B → Prop
  | use {s p b x} : s.proc p = .user → (s.buf b).Open p → x.Open p →
      Step s (some (.use p b x)) { s with buf := update s.buf b x }
  | request {s t p b} : s.proc p = .user → (s.buf b).Ready p → s.iderw p b = .ret t →
      Step s (some (.request p b)) t
  | drive {s c} : s.drive.busy = some c → Step s none { s with drive := s.drive.perform c }
  | interrupt {s t} : s.drive.irq = true →
      { s with drive := { s.drive with irq := false } }.ideintr = .ret t →
      Step s (some .complete) t
  | done {s p b} : s.proc p = .awake b → (s.buf b).Done → Step s (some (.done p b)) (s.check p b)
  | again {s p b} : s.proc p = .awake b → ¬(s.buf b).Done → Step s none (s.check p b)
  | kill {s p b} : s.proc p = .asleep b → Step s none { s with proc := update s.proc p (.awake b) }

/-- A disk in memory behind a queue: `memide.c` serves the requests one after the other. -/
structure Ram (P B : Type) where
  buf : B → Buf P
  memdisk : ℕ → Bytes
  queue : List B
  proc : P → Option B

inductive Ram.Step : Ram P B → Event P B → Ram P B → Prop
  | use {r p b x} : r.proc p = none → (r.buf b).Open p → x.Open p →
      Step r (.use p b x) { r with buf := update r.buf b x }
  | request {r p b} : r.proc p = none → (r.buf b).Ready p → b ∉ r.queue →
      Step r (.request p b) { r with queue := r.queue ++ [b], proc := update r.proc p (some b) }
  | complete {r b bs x d} : r.queue = b :: bs → (r.buf b).iderw FSSIZE r.memdisk = .ret (x, d) →
      Step r .complete { r with buf := update r.buf b x, memdisk := d, queue := bs }
  | done {r p b} : r.proc p = some b → b ∉ r.queue → (r.buf b).Done →
      Step r (.done p b) { r with proc := update r.proc p none }

end Xv6.Ide
