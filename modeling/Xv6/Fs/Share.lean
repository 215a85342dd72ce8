import Mathlib.Algebra.BigOperators.Pi
import Mathlib.Algebra.Order.BigOperators.Group.Finset
import Mathlib.Data.Fintype.BigOperators
import Xv6.Fs.Calls

/-!
# What a process holds in the middle of a call

Four kinds of things are counted: references to cached inodes, references to open files,
ends of pipes and pages of pipes. Between two operations a process may hold some of them in
its hands, and it may owe some: `dup` puts a file into a descriptor before it counts the
reference, `exit` gives a reference back before it clears the descriptor. `Share.bal` is
the difference; a call that returns leaves it at zero.

A share also has the inode locks of the process, the inodes that cannot be freed under its
hands, and how far it has come in `iput`, `create` and `fork`.
-/

namespace Xv6.Fs
open Lib

inductive Key
  | inode (ip : Slot)
  | file (f : FileId)
  | pipeEnd (a : ℕ) (writable : Bool)
  | page (a : ℕ)
  deriving DecidableEq

def Proc.assets (x : Proc) : Key → ℤ
  | .inode ip => if x.cwd = some ip then 1 else 0
  | .file f => (Finset.univ.filter fun fd => x.ofile fd = some f).card
  | _ => 0

def Proc.setFd (x : Proc) (fd : Fd) (f : Option FileId) : Proc :=
  { x with ofile := Function.update x.ofile fd f }

structure Share (P : Type) where
  busy : Bool
  own : Proc
  bal : Key → ℤ
  tx : Bool
  -- inodes
  held : Finset Slot
  loaded : Finset Slot
  seen : Finset Slot
  /-- `iput` is about to free this inode. -/
  sole : Option Slot
  /-- `iput` is done with this inode but for the count. -/
  lame : Option Slot
  -- files
  blank : Finset FileId
  via : Option (FileId × Slot)
  -- `fork`
  child : Option P
  /-- The descriptors that are copied, and `none` for the working directory. -/
  filled : Finset (Option Fd)
  -- `create`, `link` and `unlink`
  fresh : Option ℕ
  new : Option Slot
  work : Option Slot
  kid : Option (Slot × Bool)
  odd : Bool

namespace Share

variable {P : Type}

def empty : Share P where
  busy := false
  own := ⟨.unused, none, fun _ => none⟩
  bal := 0
  tx := false
  held := ∅
  loaded := ∅
  seen := ∅
  sole := none
  lame := none
  blank := ∅
  via := none
  child := none
  filled := ∅
  fresh := none
  new := none
  work := none
  kid := none
  odd := false

def enter (x : Proc) : Share P :=
  { empty with busy := true, own := x, seen := x.cwd.toFinset }

def add (l : Share P) (k : Key) (n : ℤ) : Share P := { l with bal := l.bal + Pi.single k n }

def has (l : Share P) (k : Key) : ℤ := l.own.assets k + l.bal k

def drop (l : Share P) (ip : Slot) : Share P :=
  { l.add (.inode ip) (-1) with
    lame := none
    seen := if 2 ≤ l.has (.inode ip) then l.seen else l.seen.erase ip }

def gain (l : Share P) (f : FileId) : Share P :=
  { l.add (.file f) 1 with blank := insert f l.blank }

def lose (l : Share P) (f : FileId) : Share P :=
  { l.add (.file f) (-1) with blank := l.blank.erase f }

def through (l : Share P) (f : FileId) (ip : Slot) : Share P := { l with via := some (f, ip) }

def reown (l : Share P) (x : Proc) : Share P :=
  { l with own := x, bal := l.bal + l.own.assets - x.assets }

def find (l : Share P) (dp : Slot) (name : Name) (ip : Slot) : Share P :=
  if l.work = none then l.add (.inode ip) 1
  else if l.work = some dp ∧ l.kid = none then
    { l.add (.inode ip) 1 with kid := some (ip, decide (name ≠ dot ∧ name ≠ dotdot)) }
  else { l.add (.inode ip) 1 with odd := true }

def Holds (l : Share P) (ip : Slot) : Prop := 1 ≤ l.has (.inode ip) ∨ ∃ f, l.via = some (f, ip)

/-- The locks a process may hold while it waits for `ip`: none, or the directory it works in
while it waits for the inode found there, or the other way round. -/
def Ordered (l : Share P) (ip : Slot) : Prop :=
  l.odd = true ∨ l.held = ∅ ∨
    (∃ dp b, l.held = {dp} ∧ l.work = some dp ∧ l.kid = some (ip, b)) ∨
    ∃ k b, l.held = {k} ∧ l.kid = some (k, b) ∧ l.work = some ip

structure Idle (l : Share P) : Prop where
  bal : l.bal = 0
  tx : l.tx = false
  held : l.held = ∅
  sole : l.sole = none
  lame : l.lame = none
  blank : l.blank = ∅
  child : l.child = none
  fresh : l.fresh = none
  work : l.work = none
  cwd : ∀ ip, l.own.cwd = some ip → ip ∈ l.seen

theorem has_add (l : Share P) (k k' : Key) (n : ℤ) :
    (l.add k n).has k' = l.has k' + if k' = k then n else 0 := by
  simp only [has, add, Pi.add_apply, Pi.single_apply]
  omega

theorem add_comm (l : Share P) (k k' : Key) (n m : ℤ) :
    (l.add k n).add k' m = (l.add k' m).add k n := by
  simp only [add, add_right_comm]

theorem has_add_self (l : Share P) (k : Key) (n : ℤ) : (l.add k n).has k = l.has k + n := by
  rw [has_add, if_pos rfl]

theorem has_add_ge {n : ℤ} (hn : 0 ≤ n) (l : Share P) (k k' : Key) :
    l.has k' ≤ (l.add k n).has k' := by
  rw [has_add]
  split_ifs <;> omega

end Share

variable {P : Type}

open Share in
def pre : Op P → Share P → Prop
  | .beginOp, l => l.tx = false
  | .endOp, l => l.tx = true
  | .idup ip, l => l.Holds ip
  | .acquiresleep ip, l => l.Holds ip ∧ l.Ordered ip
  | .releasesleep ip, l => ip ∈ l.held ∧ l.sole = none
  | .load ip, l => ip ∈ l.held ∧ l.Holds ip
  | .lastRef ip, l => ip ∈ l.held ∧ 1 ≤ l.has (.inode ip) ∧ l.sole = none
  | .ifree ip, l => l.sole = some ip ∧ l.tx = true
  | .unref ip, l => 1 ≤ l.has (.inode ip) ∧ ip ∉ l.held ∧ l.lame = some ip ∧ l.new = none
  | .ialloc type, l => type ≠ .free ∧ l.tx = true ∧ l.fresh = none
  | .setup ip _ _, l => ip ∈ l.loaded ∧ l.new = some ip ∧ l.tx = true
  | .addLink ip _, l => ip ∈ l.loaded ∧ 1 ≤ l.has (.inode ip) ∧ l.tx = true
  | .dirlookup dp _, l | .dirslot dp, l | .isdirempty dp, l | .readData dp _ _, l =>
    dp ∈ l.loaded
  | .writeData ip _ _, l => ip ∈ l.loaded ∧ l.tx = true
  | .enterDir _, l => l.work = none ∧ l.held = ∅
  | .filedup f, l => 1 ≤ l.has (.file f) ∧ f ∉ l.blank
  | .filedrop f, l => 1 ≤ l.has (.file f) ∧ l.via = none
  | .file f, l => 1 ≤ l.has (.file f) ∧ (l.via = none ∨ ∃ ip, l.via = some (f, ip))
  | .openInode f ip _ _, l =>
    f ∈ l.blank ∧ ip ∈ l.seen ∧ 1 ≤ l.has (.inode ip) ∧ l.via = none ∧ l.held = ∅ ∧
      l.new = none
  | .openPipe f a w, l => f ∈ l.blank ∧ 1 ≤ l.has (.pipeEnd a w)
  | .pipeclose a w, l => 1 ≤ l.has (.pipeEnd a w)
  | .kfree a, l => 1 ≤ l.has (.page a)
  | .setOfile _ f, _ => f = none
  | .setCwd ip, l => ∀ i, ip = some i → i ∈ l.seen
  | .allocproc _, l => l.child = none
  | .childFile c fd f, l =>
    l.child = some c ∧ some fd ∉ l.filled ∧ 1 ≤ l.has (.file f) ∧ l.via = none ∧ l.blank = ∅
  | .childCwd c ip, l =>
    l.child = some c ∧ none ∉ l.filled ∧ ip ∈ l.seen ∧ 1 ≤ l.has (.inode ip) ∧ l.held = ∅ ∧
      l.new = none
  | .spawn c, l => l.child = some c
  | .die, l => l.Idle ∧ l.own.cwd = none ∧ ∀ fd, l.own.ofile fd = none
  | _, _ => True

open Share in
def post [DecidableEq P] : (o : Op P) → Share P → Ans o → Share P → Prop
  | .panic _, _, _, _ => False
  | .beginOp, l, _, l' => l' = { l with tx := true }
  | .endOp, l, _, l' => l' = { l with tx := false }
  | .iget inum, l, ip, l' =>
    l' = if l.fresh = some inum then
        { l.add (.inode ip) 1 with new := some ip, kid := some (ip, true) }
      else l.add (.inode ip) 1
  | .idup ip, l, _, l' => l' = l.add (.inode ip) 1
  | .acquiresleep ip, l, _, l' => ip ∉ l.held ∧ l' = { l with held := insert ip l.held }
  | .releasesleep ip, l, _, l' =>
    l' = { l with held := l.held.erase ip, loaded := l.loaded.erase ip }
  | .load ip, l, _, l' =>
    l' = { l with loaded := insert ip l.loaded, seen := insert ip l.seen }
  | .lastRef ip, l, last, l' =>
    (last = true → l.has (.inode ip) ≤ 1) ∧
      l' = if last then { l with sole := some ip } else { l with lame := some ip }
  | .ifree ip, l, _, l' =>
    l' = { l with sole := none, lame := some ip, loaded := l.loaded.erase ip,
                  seen := l.seen.erase ip }
  | .unref ip, l, _, l' => l' = l.drop ip
  | .ialloc _, l, inum, l' => l' = { l with fresh := some inum }
  | .setup _ _ _, l, _, l' => l' = { l with fresh := none, new := none }
  | .dirlookup dp name, l, r, l' =>
    match r with
    | none => l' = l
    | some (ip, _) => l' = l.find dp name ip
  | .enterDir dp, l, _, l' => l' = { l with work := some dp, kid := none }
  | .leaveDir, l, _, l' => l' = { l with work := none, kid := none }
  | .filealloc, l, r, l' =>
    match r with
    | none => l' = l
    | some f => f ∉ l.blank ∧ l' = l.gain f
  | .filedup f, l, _, l' => l' = l.add (.file f) 1
  | .filedrop f, l, r, l' =>
    match r with
    | none => l' = l.lose f
    | some ff =>
      (f ∈ l.blank → ff.type = .none) ∧
      l' = match ff.type with
        | .none => l.lose f
        | .pipe => (l.lose f).add (.pipeEnd ff.pipe ff.writable) 1
        | .inode => { (l.lose f).add (.inode ff.ip) 1 with seen := insert ff.ip l.seen }
  | .file f, l, x, l' =>
    (∀ ip, l.via = some (f, ip) → x.type = .inode ∧ x.ip = ip) ∧
      l' = if x.type = .inode then l.through f x.ip else l
  | .openInode f ip _ _, l, _, l' =>
    l' = { l.drop ip with blank := l.blank.erase f }
  | .openPipe f a w, l, _, l' =>
    l' = { l.add (.pipeEnd a w) (-1) with blank := l.blank.erase f }
  | .pipeKalloc, l, r, l' =>
    match r with
    | none => l' = l
    | some a => l' = (l.add (.pipeEnd a false) 1).add (.pipeEnd a true) 1
  | .pipeclose a w, l, both, l' =>
    l' = if both then (l.add (.pipeEnd a w) (-1)).add (.page a) 1
      else l.add (.pipeEnd a w) (-1)
  | .kfree a, l, _, l' => l' = l.add (.page a) (-1)
  | .ofile fd, l, r, l' => r = l.own.ofile fd ∧ l' = l
  | .setOfile fd _, l, _, l' =>
    l' = l.reown (l.own.setFd fd none)
  | .fdalloc f, l, r, l' =>
    match r with
    | none => l' = l
    | some fd => l.own.ofile fd = none ∧ l' = l.reown (l.own.setFd fd (some f))
  | .cwd, l, ip, l' => l.own.cwd = some ip ∧ l' = l
  | .setCwd ip, l, _, l' => l' = l.reown { l.own with cwd := ip }
  | .allocproc c, l, ok, l' => l' = if ok then { l with child := some c, filled := ∅ } else l
  | .childFile _ fd f, l, _, l' =>
    l' = { l.add (.file f) (-1) with filled := insert (some fd) l.filled }
  | .childCwd _ ip, l, _, l' =>
    l' = { l.drop ip with filled := insert none l.filled }
  | .spawn _, l, _, l' => l' = { l with child := none }
  | .die, _, _, l' => l' = empty
  | _, l, _, l' => l' = l

def logic (P : Type) [DecidableEq P] : Logic (Op P) Ans where
  Share := Share P
  pre o l := l.busy = true ∧
    (∀ ip, l.lame = some ip → o = .releasesleep ip ∨ o = .unref ip) ∧ Fs.pre o l
  post := Fs.post

end Xv6.Fs
