import Xv6.Lib.Bytes
import Xv6.Lib.Outcome
import Xv6.Param

/-!
# The redo log at block-write and lock granularity

Processes run `begin_op`, buffer updates, `log_write` and `end_op` in any
order; the last one to leave runs `commit`. Each iteration of the loops of
`write_log`, `install_trans` and `write_head` makes one block write and is one
step here, so a crash can fall between any two of them. After a crash
`recover_from_log` runs from an empty cache and may be cut again.

`log_write` reads `log.lh.n` before it takes the lock: the test and the append
are two steps, `logWrite` and `logAppend`.
-/

namespace Xv6.Log
open Lib

/-- `log.start` and `log.size`, read from the superblock; the header block is
part of the log area. -/
structure Config where
  start : ℕ
  size : ℕ
  size_pos : 0 < size
  size_lt : size < 2 ^ 32

/-- The log of an image made by `mkfs`: it follows the superblock and has
`nlog = LOGSIZE` blocks. -/
def mkfsLog : Config := ⟨2, LOGSIZE, by decide, by decide⟩

/-- `struct logheader`; only `block[0..n)` is meaningful. -/
structure Header where
  n : ℕ
  block : ℕ → ℕ

namespace Header

def blocks (h : Header) : List ℕ := (List.range h.n).map h.block

def decode (b : Bytes) : Header := ⟨b.read32 0, fun i => b.read32 (4 + 4 * i)⟩

/-- `write_head`: entries from `n` on keep what the block held before. -/
def encode (h : Header) (b : Bytes) : Bytes :=
  (List.range h.n).foldl (fun b i => b.write32 (4 + 4 * i) (h.block i)) (b.write32 0 h.n)

def slot (h : Header) (b : ℕ) : ℕ := ((List.range h.n).find? fun i => h.block i == b).getD h.n

def add (h : Header) (b : ℕ) : Header where
  n := if h.slot b = h.n then h.n + 1 else h.n
  block := Function.update h.block (h.slot b) b

def clear (h : Header) : Header := { h with n := 0 }

end Header

structure Buf where
  data : Bytes
  dirty : Bool

/-- A sleep-locked buffer: its holder, whether its data was changed since the
last `log_write`, and whether a `log_write` of it has passed its tests. -/
structure Hold where
  owner : ℕ
  changed : Bool
  checked : Bool

inductive Phase
  | outside
  | asleep
  | ready
  | inside
  | committer
  deriving DecidableEq

/-- The next block write of `commit` or of `recover_from_log`. -/
inductive Pc
  | idle
  | writeLog (tail : ℕ)
  | writeHead
  | install (tail : ℕ)
  | clear
  | done
  | readHead
  deriving DecidableEq

structure State where
  disk : ℕ → Bytes
  cache : ℕ → Option Buf
  lh : Header
  outstanding : ℕ
  committing : Bool
  phase : ℕ → Phase
  held : ℕ → Option Hold
  pc : Pc
  recovering : Bool

inductive Event
  | beginOp (p : ℕ)
  | bread (p b : ℕ)
  | modify (p b : ℕ) (data : Bytes)
  | logWrite (p b : ℕ)
  | logAppend (p b : ℕ)
  | brelse (p b : ℕ)
  | endOp (p : ℕ)
  | evict (b : ℕ)
  | io
  | crash

def State.view (s : State) (b : ℕ) : Bytes :=
  match s.cache b with
  | some buf => buf.data
  | none => s.disk b

/-- `bread` of a buffer nobody holds: a miss reads the disk. -/
def State.fetch (s : State) (b : ℕ) : State :=
  match s.cache b with
  | some _ => s
  | none => { s with cache := Function.update s.cache b (some ⟨s.disk b, false⟩) }

/-- `bwrite`: the driver copies the data to the disk and clears `B_DIRTY`. -/
def State.bwrite (s : State) (b : ℕ) (data : Bytes) : State :=
  { s with
    disk := Function.update s.disk b data
    cache := Function.update s.cache b (some ⟨data, false⟩) }

def State.wakeup (s : State) : State :=
  { s with phase := fun p => if s.phase p = .asleep then .ready else s.phase p }

def State.setPhase (s : State) (p : ℕ) (f : Phase) : State :=
  { s with phase := Function.update s.phase p f }

def beginOp (s : State) (p : ℕ) : Outcome State :=
  if s.phase p = .outside ∨ s.phase p = .ready then
    if s.committing then .ret (s.setPhase p .asleep)
    else if LOGSIZE < s.lh.n + (s.outstanding + 1) * MAXOPBLOCKS then
      .ret (s.setPhase p .asleep)
    else .ret { s.setPhase p .inside with outstanding := s.outstanding + 1 }
  else .hang

def bread (s : State) (p b : ℕ) : Outcome State :=
  match s.held b with
  | some _ => .hang
  | none =>
    .ret { s.fetch b with held := Function.update s.held b (some ⟨p, false, false⟩) }

def modify (s : State) (p b : ℕ) (data : Bytes) : Outcome State :=
  match s.held b, s.cache b with
  | some h, some buf =>
    if h.owner = p ∧ s.phase p = .inside then
      .ret { s with
        cache := Function.update s.cache b (some { buf with data := data })
        held := Function.update s.held b (some { h with changed := true }) }
    else .hang
  | _, _ => .hang

/-- The tests of `log_write`, made without the lock. -/
def logWrite (c : Config) (s : State) (p b : ℕ) : Outcome State :=
  match s.held b with
  | some h =>
    if h.owner = p then
      if LOGSIZE ≤ s.lh.n ∨ c.size ≤ s.lh.n + 1 then .panic "too big a transaction"
      else if s.outstanding < 1 then .panic "log_write outside of trans"
      else .ret { s with held := Function.update s.held b (some { h with checked := true }) }
    else .hang
  | none => .hang

/-- The locked part of `log_write`. -/
def logAppend (s : State) (p b : ℕ) : Outcome State :=
  match s.held b, s.cache b with
  | some h, some buf =>
    if h.owner = p ∧ h.checked then
      .ret { s with
        lh := s.lh.add b
        cache := Function.update s.cache b (some { buf with dirty := true })
        held := Function.update s.held b (some { h with changed := false, checked := false }) }
    else .hang
  | _, _ => .hang

def brelse (s : State) (p b : ℕ) : Outcome State :=
  match s.held b with
  | some h => if h.owner = p then .ret { s with held := Function.update s.held b none } else .hang
  | none => .hang

/-- The test of `commit`: an empty transaction writes nothing. -/
def commitPc (lh : Header) : Pc := if 0 < lh.n then .writeLog 0 else .done

def endOp (s : State) (p : ℕ) : Outcome State :=
  if s.phase p = .inside then
    if s.committing then .panic "log.committing"
    else if s.outstanding - 1 = 0 then
      .ret { s.setPhase p .committer with
        outstanding := 0
        committing := true
        pc := commitPc s.lh }
    else .ret { (s.setPhase p .outside).wakeup with outstanding := s.outstanding - 1 }
  else .hang

/-- Recycling of a buffer by `bget`: never one that is held or dirty. -/
def evict (s : State) (b : ℕ) : Outcome State :=
  match s.cache b, s.held b with
  | some buf, none =>
    if buf.dirty then .hang else .ret { s with cache := Function.update s.cache b none }
  | _, _ => .hang

/-- Copy one block through the cache: `bread` both, `memmove`, `bwrite`. -/
def copyBlock (s : State) (src dst : ℕ) : Outcome State :=
  if s.held src = none ∧ s.held dst = none then
    let s' := (s.fetch src).fetch dst
    .ret (s'.bwrite dst (s'.view src))
  else .hang

def writeHead (c : Config) (s : State) : Outcome State :=
  if s.held c.start = none then
    let s' := s.fetch c.start
    .ret (s'.bwrite c.start (s.lh.encode (s'.view c.start)))
  else .hang

def io (c : Config) (s : State) : Outcome State :=
  match s.pc with
  | .idle => .hang
  | .writeLog tail =>
    if tail < s.lh.n then
      (copyBlock s (s.lh.block tail) (c.start + tail + 1)).bind fun s' =>
        .ret { s' with pc := .writeLog (tail + 1) }
    else .ret { s with pc := .writeHead }
  | .writeHead => (writeHead c s).bind fun s' => .ret { s' with pc := .install 0 }
  | .install tail =>
    if tail < s.lh.n then
      (copyBlock s (c.start + tail + 1) (s.lh.block tail)).bind fun s' =>
        .ret { s' with pc := .install (tail + 1) }
    else .ret { s with lh := s.lh.clear, pc := .clear }
  | .clear =>
    (writeHead c s).bind fun s' =>
      .ret { s' with pc := if s.recovering then .idle else .done, recovering := false }
  | .done =>
    .ret { s.wakeup with
      committing := false
      phase := fun p => if s.phase p = .committer then .outside else s.wakeup.phase p
      pc := .idle }
  | .readHead =>
    if s.held c.start = none then
      let s' := s.fetch c.start
      .ret { s' with lh := Header.decode (s'.view c.start), pc := .install 0 }
    else .hang

/-- Memory is lost, the disk stays; the next boot calls `recover_from_log`. -/
def boot (disk : ℕ → Bytes) : State where
  disk := disk
  cache := fun _ => none
  lh := ⟨0, fun _ => 0⟩
  outstanding := 0
  committing := false
  phase := fun _ => .outside
  held := fun _ => none
  pc := .readHead
  recovering := true

/-- System calls start once `recover_from_log` has returned. -/
def step (c : Config) (s : State) : Event → Outcome State
  | .beginOp p => if s.recovering then .hang else beginOp s p
  | .bread p b => if s.recovering then .hang else bread s p b
  | .modify p b data => modify s p b data
  | .logWrite p b => logWrite c s p b
  | .logAppend p b => logAppend s p b
  | .brelse p b => brelse s p b
  | .endOp p => endOp s p
  | .evict b => evict s b
  | .io => io c s
  | .crash => .ret (boot s.disk)

end Xv6.Log
