import Xv6.Fs.Forking
import Xv6.Fs.Sound

/-!
# Runs of the file system

Processes make calls from a state in which some of them live in the root directory, as
`userinit` and `fork` leave them, and no file is open. In every interleaving the shares
account for the state.
-/

namespace Xv6.Fs
open Lib

variable {P : Type} [DecidableEq P] [Fintype P]

abbrev World (P : Type) := Pool P (State P) (Op P) Ans

def rootSlot : Slot := ⟨0, Nat.succ_pos _⟩

def AtRest (g : World P) : Prop := ∀ p, (g.code p).next = none

structure Start (g : World P) : Prop where
  idle : ∀ p, (g.code p).next = none
  live : ∀ q, (g.shared.proc q).state = .live ∧ (g.shared.proc q).cwd = some rootSlot ∨
    (g.shared.proc q).state = .unused ∧ (g.shared.proc q).cwd = none
  ofile : ∀ q fd, (g.shared.proc q).ofile fd = none
  ref : ∀ ip, (g.shared.inode ip).ref =
    (Finset.univ.filter fun q => (g.shared.proc q).cwd = some ip).card
  lock : ∀ ip, (g.shared.inode ip).lock = none
  valid : ∀ ip, (g.shared.inode ip).valid = false
  root : (g.shared.inode rootSlot).inum = ROOTINO
  alloc : (g.shared.disk ROOTINO).type = .dir
  file : ∀ f, (g.shared.file f).type = .none ∧ (g.shared.file f).ref = 0
  pipe : ∀ a, (g.shared.pipe a).readopen = false ∧ (g.shared.pipe a).writeopen = false ∧
    (g.shared.pipe a).kallocs = (g.shared.pipe a).kfrees
  dir : ∀ q, g.shared.dir q = none

/-- The rules are sound: every call keeps to them, and every operation that does keeps the
invariant. -/
theorem sound : (logic P).Sound (machine P) Inv Share.Idle fun s p => .enter (s.proc p) where
  call _ _ _ c h hi he := ⟨h.enter hi (of_decide_eq_true he), c.safe _⟩
  op _ _ _ _ _ _ _ h hpre he := h.exec hpre.1 hpre.2.2 he

abbrev Accounted (g : World P) (ls : P → Share P) : Prop :=
  (logic P).Accounts Inv Share.Idle g ls

omit [DecidableEq P] [Fintype P] in
theorem Share.idle_empty : (Share.empty : Share P).Idle :=
  ⟨rfl, rfl, rfl, rfl, rfl, rfl, rfl, rfl, rfl, nofun⟩

section Start

variable {g : World P}

omit [DecidableEq P] in
theorem Start.files (h : Start g) (k : Key) : g.shared.files k = 0 := by
  have : (Finset.univ.filter fun f => (g.shared.file f).holds k) = ∅ := by
    refine Finset.filter_eq_empty_iff.mpr fun f _ hf => ?_
    cases k <;> simp [File.holds, (h.file f).1] at hf
  simp [State.files, this]

omit [DecidableEq P] in
theorem Start.balance (h : Start g) (k : Key) :
    g.shared.count k = due g.shared (fun _ => .empty) k := by
  cases k with
  | inode ip =>
    simp only [State.count, due, Proc.assets, Share.empty, Pi.zero_apply, add_zero, h.ref ip]
    exact Finset.natCast_card_filter _ _
  | file f => simp [State.count, due, Proc.assets, Share.empty, (h.file f).2, h.ofile]
  | pipeEnd a w =>
    cases w <;> simp [State.count, due, Proc.assets, Share.empty, h.pipe a]
  | page a => simp [State.count, due, Proc.assets, Share.empty, h.pipe a]

omit [DecidableEq P] in
theorem Start.cwd (h : Start g) {q : P} {ip : Slot} (hc : (g.shared.proc q).cwd = some ip) :
    ip = rootSlot := by
  rcases h.live q with ⟨-, h1⟩ | ⟨-, h1⟩
  · exact Option.some.inj (hc.symm.trans h1)
  · cases hc.symm.trans h1

omit [DecidableEq P] in
theorem Start.ref_pos (h : Start g) {ip : Slot} (hr : 0 < (g.shared.inode ip).ref) :
    ip = rootSlot := by
  rw [h.ref ip, Finset.card_pos] at hr
  obtain ⟨q, hq⟩ := hr
  exact h.cwd (Finset.mem_filter.mp hq).2

omit [DecidableEq P] in
theorem Start.inv (h : Start g) : Inv g.shared fun _ => .empty where
  fits q := by
    refine fits_empty (g.shared.proc q).assets_nonneg (fun ip hl => ?_) (h.dir q)
    cases (h.lock ip).symm.trans hl
  balance k := by
    rw [h.files, zero_add]
    exact h.balance k
  tables :=
    { unique := fun i j hi hj _ => (h.ref_pos hi).trans (h.ref_pos hj).symm
      cached := fun ip _ hv => absurd ((h.valid ip).symm.trans hv) nofun
      closed := fun f _ => (h.file f).1
      opened := fun f hf => absurd ((h.file f).1.symm.trans hf) nofun
      unused := fun q hq => by
        rcases h.live q with ⟨h1, -⟩ | ⟨-, h1⟩
        · cases hq.symm.trans h1
        · exact ⟨h1, h.ofile q⟩
      paged := fun a => by
        rw [(h.pipe a).2.2]
        exact Nat.le_succ _ }
  pairs :=
    { sole := nofun
      blank := nofun
      child := nofun
      home := fun q ip _ hc => by
        rw [h.cwd hc, State.Alloc, h.root, h.alloc]
        exact nofun }

theorem Start.accounted (h : Start g) : Accounted g fun _ => .empty where
  inv := h.inv
  safe p := by
    have := h.idle p
    cases hc : g.code p with
    | ret a => exact Share.idle_empty
    | op o k =>
      rw [hc] at this
      cases this

end Start

variable {g₀ g : World P} {es : List (Turn P (Call P))}

theorem Start.reach (h : Start g₀) (hrun : Runs (machine P).Step g₀ es g) :
    ∃ ls, Accounted g ls :=
  Logic.Accounts.of_runs sound ⟨_, h.accounted⟩ hrun

section Sample

def dirBytes (des : List Dirent) : Bytes := fun a => ((des.flatMap Dirent.bytes)[a]?).getD 0

def sample : World (Fin 2) where
  shared :=
    { disk := fun i =>
        if i = ROOTINO then ⟨.dir, 0, 0, 1, 48⟩
        else if i = 2 then ⟨.file, 0, 0, 1, 0⟩ else ⟨.free, 0, 0, 0, 0⟩
      data := fun i =>
        if i = ROOTINO then dirBytes [⟨1, dot⟩, ⟨1, dotdot⟩, ⟨2, [102]⟩] else fun _ => 0
      inode := fun ip =>
        if ip = rootSlot then ⟨ROOTINO, 2, none, false, ⟨.free, 0, 0, 0, 0⟩⟩
        else ⟨0, 0, none, false, ⟨.free, 0, 0, 0, 0⟩⟩
      file := fun _ => ⟨.none, 0, false, false, 0, rootSlot, 0⟩
      pipe := fun _ => ⟨false, false, 0, 0⟩
      proc := fun _ => ⟨.live, some rootSlot, fun _ => none⟩
      dir := fun _ => none }
  code := fun _ => .ret ()

def proc0 : Fin 2 := 0

def proc1 : Fin 2 := 1

theorem sample_start : Start sample where
  idle _ := rfl
  live _ := Or.inl ⟨rfl, rfl⟩
  ofile _ _ := rfl
  ref := by decide
  lock := by decide
  valid := by decide
  root := rfl
  alloc := rfl
  file _ := ⟨rfl, rfl⟩
  pipe _ := ⟨rfl, rfl, rfl⟩
  dir _ := rfl

end Sample

end Xv6.Fs
