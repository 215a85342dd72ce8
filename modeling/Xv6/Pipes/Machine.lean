import Xv6.Lib.Monitor
import Xv6.Vm.Layout

/-!
# Pipes

`pipewrite`, `piperead` and `pipeclose` of `pipe.c` as programs around `p->lock`, for
any processes `P`. Besides the pipe and the `killed` flags the shared state records
every byte stored, with the process that stored it, and every byte handed out.

The page of a pipe with both ends closed is not followed here: no process has a
descriptor of it any more.
-/

namespace Xv6.Pipes
open Lib
open Vm (add32 sub32)

def PIPESIZE : ℕ := 512

structure Pipe where
  data : ℕ → UInt8
  nread : ℕ
  nwrite : ℕ
  readopen : Bool
  writeopen : Bool

structure Shared (P : Type) extends Pipe where
  killed : P → Bool
  stored : List (P × UInt8)
  handed : List UInt8

inductive Chan
  | nread
  | nwrite
  deriving DecidableEq

/-- A call of `pipewrite`. `since` is the number of bytes stored before the call,
`fresh` whether the call has stored a byte and not yet woken the readers. -/
structure Write where
  addr : ℕ → UInt8
  n : ℤ
  i : ℕ
  since : ℕ
  fresh : Bool

/-- A call of `piperead`, with the bytes copied to `addr`; `i` is their number. -/
structure Read where
  n : ℤ
  got : List UInt8

inductive Result
  | wrote (w : Write) (v : ℤ)
  | read (r : Read) (v : ℤ)
  | closed

inductive Loc
  | idle
  | callWrite (addr : ℕ → UInt8) (n : ℤ)
  | enterWrite (addr : ℕ → UInt8) (n : ℤ)
  | write (w : Write)
  | full (w : Write)
  | tell (w : Write)
  | waitRoom (w : Write)
  | backWrite (w : Write)
  | written (w : Write)
  | callRead (n : ℤ)
  | read (r : Read)
  | empty (r : Read)
  | waitData (r : Read)
  | backRead (r : Read)
  | copy (r : Read)
  | copied (r : Read)
  | callClose (writable : Bool)
  | close (writable : Bool)
  | closeWake (writable : Bool)
  | ret (v : Result)

def Call : Loc → Prop
  | .callWrite _ _ | .callRead _ | .callClose _ => True
  | _ => False

namespace Shared

variable {P : Type}

def isFull (s : Shared P) : Bool := s.nwrite = add32 s.nread PIPESIZE

def isEmpty (s : Shared P) : Bool := s.nread = s.nwrite

def store (s : Shared P) (p : P) (b : UInt8) : Shared P :=
  { s with
    data := Function.update s.data (s.nwrite % PIPESIZE) b
    nwrite := add32 s.nwrite 1
    stored := s.stored ++ [(p, b)] }

def next (s : Shared P) : UInt8 := s.data (s.nread % PIPESIZE)

def hand (s : Shared P) : Shared P :=
  { s with nread := add32 s.nread 1, handed := s.handed ++ [s.next] }

def close (s : Shared P) : Bool → Shared P
  | true => { s with writeopen := false }
  | false => { s with readopen := false }

end Shared

variable {P : Type}

def code (p : P) : Loc → Instr (Shared P) Loc Chan
  | .idle => .choose Call
  -- pipewrite
  | .callWrite addr n => .acquire (.enterWrite addr n)
  | .enterWrite addr n => .act fun s => (s, .write ⟨addr, n, 0, s.stored.length, false⟩)
  | .write w => .act fun s =>
      if w.i < w.n then
        if s.isFull then (s, .full w)
        else (s.store p (w.addr w.i), .write { w with i := w.i + 1, fresh := true })
      else (s, .written w)
  | .full w => .act fun s =>
      if s.readopen = false ∨ s.killed p then (s, .ret (.wrote w (-1))) else (s, .tell w)
  | .tell w => .wakeup .nread (.waitRoom { w with fresh := false })
  | .waitRoom w => .sleep .nwrite (.backWrite w)
  | .backWrite w => .acquire (.write w)
  | .written w => .wakeup .nread (.ret (.wrote { w with fresh := false } w.n))
  -- piperead
  | .callRead n => .acquire (.read ⟨n, []⟩)
  | .read r => .act fun s => if s.isEmpty ∧ s.writeopen then (s, .empty r) else (s, .copy r)
  | .empty r => .act fun s => if s.killed p then (s, .ret (.read r (-1))) else (s, .waitData r)
  | .waitData r => .sleep .nread (.backRead r)
  | .backRead r => .acquire (.read r)
  | .copy r => .act fun s =>
      if r.got.length < r.n then
        if s.isEmpty then (s, .copied r) else (s.hand, .copy { r with got := r.got ++ [s.next] })
      else (s, .copied r)
  | .copied r => .wakeup .nwrite (.ret (.read r r.got.length))
  -- pipeclose
  | .callClose w => .acquire (.close w)
  | .close w => .act fun s => (s.close w, .closeWake w)
  | .closeWake true => .wakeup .nread (.ret .closed)
  | .closeWake false => .wakeup .nwrite (.ret .closed)
  | .ret _ => .release .idle

def monitor [DecidableEq P] : Monitor P (Shared P) Loc Chan where
  code := code
  kill := fun p s => { s with killed := Function.update s.killed p true }

abbrev Config (P : Type) := Lib.Config P (Shared P) Loc Chan

/-- A pipe as `pipealloc` leaves it, used by nobody yet. -/
def Start (g : Config P) : Prop :=
  g.shared.nread = 0 ∧ g.shared.nwrite = 0 ∧ g.shared.readopen = true ∧
    g.shared.writeopen = true ∧ g.shared.stored = [] ∧ g.shared.handed = [] ∧
    g.lk = none ∧ g.table = none ∧ ∀ p, g.phase p = .run .idle

abbrev Step [DecidableEq P] : Config P → Signal P → Config P → Prop := Monitor.Step monitor

end Xv6.Pipes
