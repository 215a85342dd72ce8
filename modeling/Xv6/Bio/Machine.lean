import Xv6.Ide.Machine
import Xv6.Lib.Links
import Xv6.Lib.Trace

/-!
# The buffer cache

`bio.c` over the disk of `memide.c`. A step is what a process does under `bcache.lock`, or to a
buffer whose sleep lock it holds. `P` are the uses of buffers, each from `bread` to `brelse`: a
process that has two buffers is two of them. A use changes the data and then calls `log_write`,
which sets `B_DIRTY`, or `bwrite`.
-/

namespace Xv6.Bio
open Function Lib Ide

/-- The links of the buffers; `none` is `bcache.head`. -/
structure Ring (B : Type) where
  next : Option B → Option B
  prev : Option B → Option B

namespace Ring

variable {B : Type} [DecidableEq B] (r : Ring B) (b : B)

def unlink : Ring B :=
  ⟨update r.next (r.prev b) (r.next b), update r.prev (r.next b) (r.prev b)⟩

def push : Ring B :=
  ⟨update (update r.next b (r.next none)) none b, update (update r.prev b none) (r.next none) b⟩

def binit (bs : List B) : Ring B := bs.foldl push ⟨fun _ => none, fun _ => none⟩

structure Holds (l : List B) : Prop where
  linked : Linked r.next r.prev (none :: (l.map some ++ [none]))
  nodup : l.Nodup
  all : ∀ b, b ∈ l

end Ring

/-- Where a use is: before `acquiresleep`, after `bread`, after `releasesleep`. -/
inductive Stage
  | wait
  | held
  | leave
  deriving DecidableEq

structure Use (B : Type) where
  b : B
  blockno : ℕ
  stage : Stage

structure Bcache (P B : Type) where
  buf : B → Buf P
  refcnt : B → ℕ
  ring : Ring B
  disk : ℕ → Bytes
  uses : P → Option (Use B)

variable {P B : Type}

/-- `bread` after `bget`, with the lock -/
def bread (x : Buf P) (disk : ℕ → Bytes) : Outcome (Buf P × (ℕ → Bytes)) :=
  if x.valid = false then x.iderw FSSIZE disk else .ret (x, disk)

def bwrite (x : Buf P) (disk : ℕ → Bytes) : Outcome (Buf P × (ℕ → Bytes)) :=
  if x.lock = none then .panic "bwrite" else { x with dirty := true }.iderw FSSIZE disk

/-- `brelse` up to `acquire(&bcache.lock)` -/
def brelse (x : Buf P) : Outcome (Buf P) :=
  if x.lock = none then .panic "brelse" else .ret { x with lock := none }

namespace Bcache

variable [DecidableEq P] [DecidableEq B] (s : Bcache P B)

/-- `bget` up to `acquiresleep` -/
def bget [Fintype B] (dev blockno : ℕ) : Outcome (B × Bcache P B) :=
  (seek s.ring.next (fun b => (s.buf b).dev = dev ∧ (s.buf b).blockno = blockno)
    (Fintype.card B) (s.ring.next none)).bind fun
  | some b => .ret (b, { s with refcnt := update s.refcnt b (s.refcnt b + 1) })
  | none =>
    (seek s.ring.prev (fun b => s.refcnt b = 0 ∧ (s.buf b).dirty = false)
      (Fintype.card B) (s.ring.prev none)).bind fun
    | some b => .ret (b, { s with
        buf := update s.buf b
          { s.buf b with dev := dev, blockno := blockno, valid := false, dirty := false }
        refcnt := update s.refcnt b 1 })
    | none => .panic "bget: no buffers"

/-- `brelse` under `bcache.lock` -/
def put (b : B) : Bcache P B :=
  { s with
    refcnt := update s.refcnt b (s.refcnt b - 1)
    ring := if s.refcnt b - 1 = 0 then (s.ring.unlink b).push b else s.ring }

def act (p : P) (u : Use B) (x : Buf P) (d : ℕ → Bytes) : Bcache P B :=
  { s with
    buf := update s.buf u.b x, disk := d, uses := update s.uses p (some u) }

end Bcache

inductive Event (P : Type)
  | bread (p : P) (blockno : ℕ) (data : Bytes)
  | store (p : P) (blockno : ℕ) (data : Bytes)
  | brelse (p : P) (blockno : ℕ)

section Machines

variable [DecidableEq P] [DecidableEq B]

inductive Bcache.Step [Fintype B] : Bcache P B → Option (Event P) → Bcache P B → Prop
  | bget {s t p b k} : s.uses p = none → k < FSSIZE → s.bget 1 k = .ret (b, t) →
      Step s none { t with uses := update s.uses p (some ⟨b, k, .wait⟩) }
  | bread {s p b k x d} : s.uses p = some ⟨b, k, .wait⟩ → (s.buf b).lock = none →
      bread { s.buf b with lock := some p } s.disk = .ret (x, d) →
      Step s (some (.bread p k x.data)) (s.act p ⟨b, k, .held⟩ x d)
  | log_write {s p b k} (data : Bytes) : s.uses p = some ⟨b, k, .held⟩ →
      Step s (some (.store p k data))
        (s.act p ⟨b, k, .held⟩ { s.buf b with data := data, dirty := true } s.disk)
  | bwrite {s p b k x d} (data : Bytes) : s.uses p = some ⟨b, k, .held⟩ →
      bwrite { s.buf b with data := data } s.disk = .ret (x, d) →
      Step s (some (.store p k data)) (s.act p ⟨b, k, .held⟩ x d)
  | brelse {s p b k x} : s.uses p = some ⟨b, k, .held⟩ → brelse (s.buf b) = .ret x →
      Step s (some (.brelse p k)) (s.act p ⟨b, k, .leave⟩ x s.disk)
  | put {s p b k} : s.uses p = some ⟨b, k, .leave⟩ →
      Step s none { s.put b with uses := update s.uses p none }

/-- The blocks without a cache; a block has one user at a time. -/
structure Blocks (P : Type) where
  data : ℕ → Bytes
  holder : P → Option ℕ

inductive Blocks.Step : Blocks P → Event P → Blocks P → Prop
  | bread {a p k} : a.holder p = none → (∀ q, a.holder q ≠ some k) →
      Step a (.bread p k (a.data k)) { a with holder := update a.holder p (some k) }
  | store {a p k} (data : Bytes) : a.holder p = some k →
      Step a (.store p k data) { a with data := update a.data k data }
  | brelse {a p k} : a.holder p = some k →
      Step a (.brelse p k) { a with holder := update a.holder p none }

end Machines

end Xv6.Bio
