import Xv6.Lib.Trace
import Xv6.Log.Machine

/-!
# Runs of the log and the contents they promise

`logical` is what the file system has stored: every `log_write` applied.
`committed` is the value `logical` had when the last non-empty header reached
the disk. A crash takes `logical` back to `committed`.

`Allowed` collects what the callers promise: only blocks outside the log area
are changed, every change is passed to `log_write`, inside an operation, before
the buffer is released or the operation ends, and the logged blocks fit the
log.
-/

namespace Xv6.Log
open Lib

def Home (c : Config) (b : ℕ) : Prop := b < 2 ^ 32 ∧ (b < c.start ∨ c.start + c.size ≤ b)

structure Hist where
  logical : ℕ → Bytes
  committed : ℕ → Bytes

def Hist.after (h : Hist) (s : State) : Event → Hist
  | .logAppend _ b => { h with logical := Function.update h.logical b (s.view b) }
  | .io => if s.pc = .writeHead then { h with committed := h.logical } else h
  | .crash => { h with logical := h.committed }
  | _ => h

def Allowed (c : Config) (s : State) : Event → Prop
  | .modify _ b _ => Home c b
  | .logAppend p b => s.phase p = .inside ∧ Home c b ∧
      (b ∈ s.lh.blocks ∨ s.lh.n < LOGSIZE ∧ s.lh.n + 2 ≤ c.size)
  | .brelse _ b => ∀ hd, s.held b = some hd → hd.changed = false
  | .endOp p => ∀ b hd, s.held b = some hd → hd.owner = p → hd.changed = false
  | _ => True

def Step (c : Config) (x : State × Hist) (e : Event) (y : State × Hist) : Prop :=
  Allowed c x.1 e ∧ step c x.1 e = .ret y.1 ∧ y.2 = x.2.after x.1 e

theorem Step.intro {c : Config} {s s' : State} {h : Hist} {e : Event} (hal : Allowed c s e)
    (hs : step c s e = .ret s') : Step c (s, h) e (s', h.after s e) :=
  ⟨hal, hs, rfl⟩

def start (disk : ℕ → Bytes) : State × Hist := (boot disk, ⟨disk, disk⟩)

end Xv6.Log
