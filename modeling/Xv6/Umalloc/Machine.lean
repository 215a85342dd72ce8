import Xv6.Lib.Outcome

/-!
# The user heap allocator

`umalloc.c`. Memory is made of cells of the size of a `Header`; a block is a cell with a
header and the cells behind it, and its size counts all of them. What the cells of a block
hold is up to the program that has it.

`sbrk` is any function that answers fresh memory or fails; it sees what it answered before
and how often it was called. The loops run with fuel, more steps than there are addresses;
without a return by then they never end.
-/

namespace Xv6.Umalloc
open Lib

def UINT : ℕ := 2 ^ 32
def KERNBASE : ℕ := 0x80000000

def headerSize : ℕ := 8

structure Header where
  ptr : ℕ
  size : ℕ
  deriving DecidableEq

abbrev Region := ℕ × ℕ

/-- The variables of `umalloc.c`, with `base` at a fixed address, and what `sbrk` answered. -/
structure Heap where
  mem : ℕ → Header
  freep : ℕ
  got : List Region
  calls : ℕ

namespace Heap

def ptr (s : Heap) (p : ℕ) : ℕ := (s.mem p).ptr
def size (s : Heap) (p : ℕ) : ℕ := (s.mem p).size

def setPtr (s : Heap) (p q : ℕ) : Heap :=
  { s with mem := Function.update s.mem p { s.mem p with ptr := q } }

def setSize (s : Heap) (p n : ℕ) : Heap :=
  { s with mem := Function.update s.mem p { s.mem p with size := n } }

end Heap

/-- Memory that `sbrk` may answer: of the user's half of the addresses, and above the
program's own and everything answered before. -/
structure Fresh (base : ℕ) (got : List Region) (n p : ℕ) : Prop where
  above_base : base + headerSize ≤ p
  above : ∀ r ∈ got, r.1 + r.2 ≤ p
  user : p + n ≤ KERNBASE

structure Sbrk (base : ℕ) where
  ask : ℕ → List Region → ℕ → Option ℕ
  fresh : ∀ k got n p, ask k got n = some p → Fresh base got n p

def advance (p n : ℕ) : ℕ := (p + headerSize * n) % UINT

def enough : ℕ := 2 ^ 32

abbrev M := Prog Heap

section Free

def search (bp : ℕ) : ℕ → ℕ → M ℕ
  | 0, _ => .hang
  | fuel + 1, p => do
    let q ← .read (·.ptr p)
    if p < bp ∧ bp < q then return p
    else if q ≤ p ∧ (p < bp ∨ bp < q) then return p
    else search bp fuel q

/-- `bp` before `p->s.ptr`, or one block with it. -/
def joinUp (s : Heap) (p bp : ℕ) : Heap :=
  let q := s.ptr p
  if advance bp (s.size bp) = q then
    (s.setSize bp ((s.size bp + s.size q) % UINT)).setPtr bp (s.ptr q)
  else s.setPtr bp q

/-- `bp` behind `p`, or one block with it. -/
def joinDown (s : Heap) (p bp : ℕ) : Heap :=
  if advance p (s.size p) = bp then
    (s.setSize p ((s.size p + s.size bp) % UINT)).setPtr p (s.ptr bp)
  else s.setPtr p bp

def insert (s : Heap) (p bp : ℕ) : Heap :=
  { joinDown (joinUp s p bp) p bp with freep := p }

def free (ap : ℕ) : M Unit := do
  let bp := (ap + UINT - headerSize) % UINT
  let freep ← .read (·.freep)
  let p ← search bp enough freep
  .modify fun s => insert s p bp

end Free

section Malloc

variable {base : ℕ} (S : Sbrk base)

def sbrk (n : ℕ) : M ℕ := fun s =>
  match S.ask s.calls s.got n with
  | some p => .ret (p, { s with calls := s.calls + 1, got := (p, n) :: s.got })
  | none => .ret (UINT - 1, { s with calls := s.calls + 1 })

def morecore (nu : ℕ) : M ℕ := do
  let nu := if nu < 4096 then 4096 else nu
  let p ← sbrk S (nu * headerSize % UINT)
  if p = UINT - 1 then return 0
  else do
    .modify (·.setSize p nu)
    free (advance p 1)
    .read (·.freep)

def take (nunits prevp p : ℕ) : M ℕ := fun s =>
  if s.size p = nunits then
    .ret (advance p 1, { s.setPtr prevp (s.ptr p) with freep := prevp })
  else
    let s := s.setSize p (s.size p - nunits)
    let p := advance p (s.size p)
    .ret (advance p 1, { s.setSize p nunits with freep := prevp })

def scan (nunits : ℕ) : ℕ → ℕ → ℕ → M ℕ
  | 0, _, _ => .hang
  | fuel + 1, prevp, p => do
    let size ← .read (·.size p)
    if nunits ≤ size then take nunits prevp p
    else do
      let freep ← .read (·.freep)
      if p = freep then do
        let p ← morecore S nunits
        if p = 0 then return 0
        else do
          let q ← .read (·.ptr p)
          scan nunits fuel p q
      else do
        let q ← .read (·.ptr p)
        scan nunits fuel p q

def unitsFor (nbytes : ℕ) : ℕ := (nbytes + headerSize - 1) % UINT / headerSize + 1

def malloc (nbytes : ℕ) : M ℕ := do
  .modify fun s =>
    if s.freep = 0 then { (s.setPtr base base).setSize base 0 with freep := base } else s
  let prevp ← .read (·.freep)
  let p ← .read (·.ptr prevp)
  scan S (unitsFor nbytes) enough prevp p

end Malloc

section Runs

/-- The memory of a program with the blocks it has, and how many bytes it asked for in each. -/
structure World where
  heap : Heap
  live : List (ℕ × ℕ)

/-- Requests whose size in bytes, rounded up and with a header, is positive as an `int`. -/
def Request (n : ℕ) : Prop := ((n + 7) / 8 + 1) * headerSize < 2 ^ 31

inductive Event
  | malloc (n r : ℕ)
  | free (ap : ℕ)
  | store (x : ℕ) (h : Header)

inductive Step {base : ℕ} (S : Sbrk base) : World → Event → World → Prop
  | fail {w n s} : Request n → malloc S n w.heap = .ret (0, s) →
      Step S w (.malloc n 0) { w with heap := s }
  | malloc {w n r s} : Request n → malloc S n w.heap = .ret (r, s) → r ≠ 0 →
      Step S w (.malloc n r) ⟨s, (r - headerSize, n) :: w.live⟩
  | free {w g s} : g ∈ w.live → free (g.1 + headerSize) w.heap = .ret ((), s) →
      Step S w (.free (g.1 + headerSize)) ⟨s, w.live.erase g⟩
  | store {w g k h} : g ∈ w.live → 0 < k → k < w.heap.size g.1 →
      Step S w (.store (g.1 + headerSize * k) h)
        { w with heap := { w.heap with
          mem := Function.update w.heap.mem (g.1 + headerSize * k) h } }

def boot (mem : ℕ → Header) : World := ⟨⟨mem, 0, [], 0⟩, []⟩

end Runs

end Xv6.Umalloc
