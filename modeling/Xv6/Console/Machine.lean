import Xv6.Lib.Monitor
import Xv6.Vm.Layout

/-!
# Console input

`consoleintr` and `consoleread` of `console.c` around `cons.lock`. Every process, or the
processor that takes an interrupt in its place, may handle any characters and read any
number of bytes. The shared state also records each character delivered and each one
consumed, with the process that did so.

What is echoed to the screen, and the process listing, are not modelled.
-/

namespace Xv6.Console
open Lib
open Vm (add32 sub32)

def INPUT_BUF : ℕ := 128

def newline : UInt8 := 10
def carriageReturn : UInt8 := 13
def delete : UInt8 := 127

def ctrl (x : Char) : UInt8 := .ofNat (x.toNat - 64)

structure Input where
  buf : ℕ → UInt8
  r : ℕ
  w : ℕ
  e : ℕ

inductive Event (P : Type)
  | key (c : UInt8)
  | take (p : P) (b : UInt8)

structure Shared (P : Type) extends Input where
  killed : P → Bool
  log : List (Event P)

namespace Input

/-- The loop of `^U`. Each round lowers `e`, so it runs at most `e - w` times. -/
def eraseLine : ℕ → Input → Input
  | 0, s => s
  | fuel + 1, s =>
    if s.e ≠ s.w ∧ s.buf (sub32 s.e 1 % INPUT_BUF) ≠ newline then
      eraseLine fuel { s with e := sub32 s.e 1 }
    else s

def put (s : Input) (c : UInt8) : Input :=
  { s with buf := Function.update s.buf (s.e % INPUT_BUF) c, e := add32 s.e 1 }

def next (s : Input) : UInt8 := s.buf (s.r % INPUT_BUF)

def get (s : Input) : Input := { s with r := add32 s.r 1 }

def unget (s : Input) : Input := { s with r := sub32 s.r 1 }

/-- The body of the loop of `consoleintr`. The answer says whether the readers are woken. -/
def key (s : Input) (c : UInt8) : Input × Bool :=
  if c = ctrl 'P' then (s, false)
  else if c = ctrl 'U' then (s.eraseLine (sub32 s.e s.w), false)
  else if c = ctrl 'H' ∨ c = delete then
    (if s.e ≠ s.w then { s with e := sub32 s.e 1 } else s, false)
  else if c ≠ 0 ∧ sub32 s.e s.r < INPUT_BUF then
    let c := if c = carriageReturn then newline else c
    let t := s.put c
    if c = newline ∨ c = ctrl 'D' ∨ t.e = add32 t.r INPUT_BUF then ({ t with w := t.e }, true)
    else (t, false)
  else (s, false)

end Input

/-- A call of `consoleread`. `target` is the `n` of the call and `got` the bytes copied to
`dst`; `since` is the length of the log at the start of the call. -/
structure Read where
  target : ℤ
  got : List UInt8
  since : ℕ

inductive Loc
  | idle
  | callIntr (cs : List UInt8)
  | getc (cs : List UInt8)
  | tell (cs : List UInt8)
  | handled
  | callRead (n : ℤ)
  | enterRead (n : ℤ)
  | read (r : Read)
  | test (r : Read)
  | wait (r : Read)
  | back (r : Read)
  | take (r : Read)
  | ret (r : Read) (v : ℤ)

def Call : Loc → Prop
  | .callIntr _ | .callRead _ => True
  | _ => False

namespace Shared

variable {P : Type}

def key (s : Shared P) (c : UInt8) : Shared P :=
  { s with toInput := (s.toInput.key c).1, log := s.log ++ [.key c] }

/-- What follows `c = input.buf[input.r++ % INPUT_BUF]` in the loop of `consoleread`. -/
def take (s : Shared P) (p : P) (r : Read) : Shared P × Loc :=
  let c := s.next
  let t : Shared P := { s with toInput := s.get, log := s.log ++ [.take p c] }
  if c = ctrl 'D' then
    if r.target - r.got.length < r.target then
      ({ s with toInput := s.get.unget }, .ret r r.got.length)
    else (t, .ret r r.got.length)
  else
    let r := { r with got := r.got ++ [c] }
    if c = newline then (t, .ret r r.got.length) else (t, .read r)

end Shared

variable {P : Type}

def code (p : P) : Loc → Instr (Shared P) Loc Unit
  | .idle => .choose Call
  -- consoleintr
  | .callIntr cs => .acquire (.getc cs)
  | .getc [] => .act fun s => (s, .handled)
  | .getc (c :: cs) => .act fun s =>
      (s.key c, if (s.toInput.key c).2 then .tell cs else .getc cs)
  | .tell cs => .wakeup () (.getc cs)
  | .handled => .release .idle
  -- consoleread
  | .callRead n => .acquire (.enterRead n)
  | .enterRead n => .act fun s => (s, .read ⟨n, [], s.log.length⟩)
  | .read r => .act fun s =>
      if r.got.length < r.target then (s, .test r) else (s, .ret r r.got.length)
  | .test r => .act fun s =>
      if s.r = s.w then (s, if s.killed p then .ret r (-1) else .wait r) else (s, .take r)
  | .wait r => .sleep () (.back r)
  | .back r => .acquire (.test r)
  | .take r => .act fun s => s.take p r
  | .ret _ _ => .release .idle

def monitor [DecidableEq P] : Monitor P (Shared P) Loc Unit where
  code := code
  kill := fun p s => { s with killed := Function.update s.killed p true }

abbrev Config (P : Type) := Lib.Config P (Shared P) Loc Unit

structure Start (g : Config P) : Prop where
  r : g.shared.r = 0
  w : g.shared.w = 0
  e : g.shared.e = 0
  log : g.shared.log = []
  lk : g.lk = none
  table : g.table = none
  phase : ∀ p, g.phase p = .run .idle

abbrev Step [DecidableEq P] : Config P → Signal P → Config P → Prop := Monitor.Step monitor

end Xv6.Console
