import Mathlib.Tactic.Abel
import Xv6.Fs.Entries
import Xv6.Fs.Procs

/-!
# Calls that open files, by the rules

`open`, `mkdir`, `mknod`, `chdir` and `exec`. Each one starts from the share of a process that
enters a call and ends with an idle share.
-/

namespace Xv6.Fs
open Lib Lib.Logic

variable {P : Type} [DecidableEq P] {b l : Share P} {ip : Slot} {S : Finset Slot} {f : FileId}
  {fd : Fd} {r : ℤ}

section Assets

theorem Proc.assets_nonneg (x : Proc) (k : Key) : 0 ≤ x.assets k := by
  cases k with
  | inode ip =>
    simp only [Proc.assets]
    split_ifs <;> decide
  | file f => exact Int.natCast_nonneg _
  | pipeEnd a w => exact le_rfl
  | page a => exact le_rfl

theorem Proc.assets_pos {x : Proc} (h : x.ofile fd = some f) : 1 ≤ x.assets (.file f) := by
  have : 0 < (Finset.univ.filter fun fd => x.ofile fd = some f).card :=
    Finset.card_pos.mpr ⟨fd, by simpa using h⟩
  simp only [Proc.assets]
  omega

end Assets

structure Quiet (b : Share P) : Prop where
  busy : b.busy = true
  tx : b.tx = false
  lame : b.lame = none
  sole : b.sole = none
  fresh : b.fresh = none
  new : b.new = none
  work : b.work = none
  kid : b.kid = none
  held : b.held = ∅
  loaded : b.loaded = ∅
  bal : b.bal = 0
  blank : b.blank = ∅
  child : b.child = none
  cwd : ∀ ip, b.own.cwd = some ip → ip ∈ b.seen

namespace Quiet

omit [DecidableEq P] in
theorem idle (h : Quiet b) : b.Idle :=
  ⟨h.bal, h.tx, h.held, h.sole, h.lame, h.blank, h.child, h.fresh, h.work, h.cwd⟩

omit [DecidableEq P] in
theorem nonneg (h : Quiet b) (k : Key) : 0 ≤ b.has k := by
  have := b.own.assets_nonneg k
  simpa [Share.has, h.bal] using this

omit [DecidableEq P] in
theorem enter (x : Proc) : Quiet (.enter x : Share P) where
  busy := rfl
  tx := rfl
  lame := rfl
  sole := rfl
  fresh := rfl
  new := rfl
  work := rfl
  kid := rfl
  held := rfl
  loaded := rfl
  bal := rfl
  blank := rfl
  child := rfl
  cwd ip hc := by
    have hc : x.cwd = some ip := hc
    simp [Share.enter, hc]

omit [DecidableEq P] in
theorem has_file (h : Quiet b) (hf : b.own.ofile fd = some f) : 1 ≤ b.has (.file f) := by
  have := Proc.assets_pos hf
  simpa [Share.has, h.bal] using this

omit [DecidableEq P] in
theorem begun (h : Quiet b) (hv : b.via = none) : Begun { b with tx := true } where
  busy := h.busy
  tx := rfl
  lame := h.lame
  sole := h.sole
  fresh := h.fresh
  new := h.new
  work := h.work
  kid := h.kid
  nonneg := h.nonneg
  held := h.held
  loaded := h.loaded
  bal := h.bal
  blank := h.blank
  via := hv
  child := h.child
  cwd := h.cwd

theorem beginOp {α : Type} {cont : Thread P α} {R : α → Share P → Prop} (h : Quiet b)
    (hc : Safe cont { b with tx := true } R) : Safe (do perform .beginOp; cont) b R := by
  refine safe_op h.busy h.lame h.tx ?_
  rintro _ _ rfl
  exact hc

end Quiet

section Open

theorem safe_fileclose_blank {Q : Unit → Share P → Prop} (hb : l.busy = true)
    (hl : l.lame = none) (hf : f ∈ l.blank) (hH : 1 ≤ l.has (.file f)) (hv : l.via = none)
    (h : Q () (l.lose f)) : Safe (fileclose f) l Q := by
  refine safe_op hb hl ⟨hH, hv⟩ ?_
  rintro (_ | ff) _ hpost
  · obtain rfl := hpost
    exact h
  · obtain ⟨htype, rfl⟩ := hpost
    dsimp only
    rw [htype hf]
    exact h

omit [DecidableEq P] in
theorem Share.lose_gain (hf : f ∉ l.blank) : (l.gain f).lose f = l := by
  simp only [gain, lose, add, Pi.single_neg, add_neg_cancel_right, Finset.erase_insert hf]

def Share.install (l : Share P) (fd : Fd) (f : FileId) : Share P :=
  { l with own := l.own.setFd fd (some f), blank := insert f l.blank }

omit [DecidableEq P] in
theorem Share.reown_gain (hfd : l.own.ofile fd = none) :
    (l.gain f).reown ((l.gain f).own.setFd fd (some f)) = l.install fd f := by
  have hassets : (l.own.setFd fd (some f)).assets = l.own.assets + Pi.single (.file f) 1 :=
    Proc.assets_ofile hfd
  have hbal : l.bal + Pi.single (.file f) 1 + l.own.assets -
      (l.own.assets + Pi.single (.file f) 1) = l.bal := by abel
  simp only [reown, gain, add, install, hassets, hbal]

omit [DecidableEq P] in
theorem Share.has_gain (h : 0 ≤ l.has (.file f)) : 1 ≤ (l.gain f).has (.file f) := by
  have h1 := l.has_add_self (.file f) 1
  change 1 ≤ (l.add (.file f) 1).has (.file f)
  omega

theorem Begun.openFile (h : Begun b) (hS : Keeps b S) {omode : ℕ} :
    Safe (openFile ip omode) (((b.add (.inode ip) 1).see S).lock ip) fun _ l => l.Idle := by
  have hpos := (h.toFree.add (k := .inode ip) (n := 1) (by decide)).nonneg
  refine safe_op h.busy h.lame trivial ?_
  rintro (_ | f) _ hpost
  · obtain rfl := hpost
    exact safe_bind (h.unlockput (fun _ => le_rfl) hS fun _ hS' => h.done hS')
  obtain ⟨hblank, rfl⟩ := hpost
  refine safe_op h.busy h.lame trivial ?_
  rintro (_ | fd) _ hpost
  · obtain rfl := hpost
    refine safe_bind (safe_fileclose_blank h.busy h.lame (Finset.mem_insert_self f _)
      (Share.has_gain (hpos _)) h.via ?_)
    rw [Share.lose_gain hblank]
    exact safe_bind (h.unlockput (fun _ => le_rfl) hS fun _ hS' => h.done hS')
  · obtain ⟨hfd, hpost⟩ := hpost
    rw [Share.reown_gain (l := ((b.add (.inode ip) 1).see S).lock ip) hfd] at hpost
    obtain rfl := hpost
    have hone : 1 ≤ ((b.add (.inode ip) 1).install fd f).has (.inode ip) := h.one_le
    refine safe_bind (safe_iunlock h.busy h.lame (Finset.mem_insert_self _ _) h.sole ?_)
    refine safe_op h.busy h.lame h.tx ?_
    rintro _ _ rfl
    have hheld : (insert ip b.held).erase ip = ∅ := by
      rw [h.held, Finset.erase_insert (Finset.notMem_empty ip)]
    refine safe_op h.busy h.lame ⟨Finset.mem_insert_self f _, Finset.mem_insert_self ip _, hone,
      h.via, hheld, h.new⟩ ?_
    rintro _ _ rfl
    refine ⟨?_, rfl, hheld, h.sole, rfl, ?_, h.child, h.fresh, h.work, fun jp hc => ?_⟩
    · change b.bal + Pi.single (.inode ip) 1 + Pi.single (.inode ip) (-1) = 0
      rw [Pi.single_neg, add_neg_cancel_right, h.bal]
    · change (insert f b.blank).erase f = ∅
      rw [h.blank, Finset.erase_insert (Finset.notMem_empty f)]
    · have hc : b.own.cwd = some jp := hc
      refine Share.mem_put_seen
        (Finset.mem_insert_of_mem (hS jp (h.cwd jp hc) (h.has_cwd hc))) ?_
      by_cases hj : jp = ip
      · subst hj
        have h1 := h.has_cwd hc
        have h2 := b.has_add_self (.inode jp) 1
        refine Or.inr (show 2 ≤ (b.add (.inode jp) 1).has (.inode jp) from ?_)
        omega
      · exact Or.inl hj

theorem Quiet.sysOpen {path : List UInt8} {omode : ℕ} (h : Quiet b) (hv : b.via = none) :
    Safe (sysOpen path omode) b fun _ l => l.Idle := by
  have hb := h.begun hv
  refine h.beginOp ?_
  split_ifs
  · exact safe_bind (safe_create hb.toFree (by decide) (fun ip => hb.has_cwd)
      (fun S hS => hb.done hS) fun S ip hS => hb.openFile hS)
  · refine safe_bind (safe_namei hb.toFree (fun ip => hb.has_cwd) (fun S hS => hb.done hS)
      fun S ip hS => safe_bind (hb.ilock ?_))
    refine safe_look hb.busy hb.lame trivial (fun _ _ => id) fun d => ?_
    split_ifs
    · exact safe_bind (hb.unlockput (fun _ => le_rfl) hS fun _ hS' => hb.done hS')
    · exact hb.openFile hS

theorem Quiet.sysMake {path : Option (List UInt8)} {type : IType} {major minor : ℤ}
    (h : Quiet b) (hv : b.via = none) (ht : type ≠ .free) :
    Safe (sysMake path type major minor) b fun _ l => l.Idle := by
  have hb := h.begun hv
  have hS : Keeps { b with tx := true } b.seen := fun _ hj _ => hj
  refine h.beginOp ?_
  cases path with
  | none => exact hb.done hS
  | some path =>
    exact safe_bind (safe_create hb.toFree ht (fun ip => hb.has_cwd) (fun S hS => hb.done hS)
      fun S ip hS => safe_bind (hb.unlockput (fun _ => le_rfl) hS fun _ hS' => hb.done hS'))

theorem Quiet.sysChdir {path : Option (List UInt8)} (h : Quiet b) (hv : b.via = none) :
    Safe (sysChdir path) b fun _ l => l.Idle := by
  have hb := h.begun hv
  have hS : Keeps { b with tx := true } b.seen := fun _ hj _ => hj
  refine h.beginOp ?_
  cases path with
  | none => exact hb.done hS
  | some path =>
    refine safe_bind (safe_namei hb.toFree (fun ip => hb.has_cwd) (fun S hS => hb.done hS)
      fun S ip hS => safe_bind (hb.ilock ?_))
    refine safe_look hb.busy hb.lame trivial (fun _ _ => id) fun d => ?_
    split_ifs
    · exact safe_bind (hb.unlockput (fun _ => le_rfl) hS fun _ hS' => hb.done hS')
    · refine safe_bind (hb.iunlock ?_)
      refine safe_op hb.busy hb.lame trivial ?_
      rintro c _ ⟨hc, rfl⟩
      have hc : b.own.cwd = some c := hc
      have hf := hb.toFree.add (k := .inode ip) (n := 1) (by decide)
      have hhas := hb.has_cwd hc
      have htwo : ip ≠ c ∨ 2 ≤ (Share.add { b with tx := true } (.inode ip) 1).has (.inode ip) := by
        by_cases hj : ip = c
        · subst hj
          have h2 := Share.has_add_self { b with tx := true } (.inode ip) 1
          omega
        · exact Or.inl hj
      refine safe_bind (safe_iput hf.busy hf.lame hf.sole hf.new hf.tx
        (hhas.trans (Share.has_add_ge (by decide) _ _ _)) hf.ordered fun _ => ?_)
      refine safe_op hf.busy rfl hf.tx ?_
      rintro _ _ rfl
      have hmem : ip ∈ (((Share.add { b with tx := true } (.inode ip) 1).see
          (insert ip S)).put c).seen :=
        Share.mem_put_seen (Finset.mem_insert_self ip S) htwo
      refine safe_op hf.busy rfl (fun i hi => ?_) ?_
      · obtain rfl := Option.some.inj hi
        exact hmem
      rintro _ _ rfl
      refine ⟨?_, rfl, h.held, h.sole, rfl, h.blank, h.child, h.fresh, h.work, fun i hi => ?_⟩
      · have h1 : Proc.assets { b.own with cwd := some ip } =
            b.own.assets + Pi.single (.inode c) (-1) + Pi.single (.inode ip) 1 := by
          rw [← Proc.assets_leave hc, ← Proc.assets_cwd rfl]
        change b.bal + Pi.single (.inode ip) 1 + Pi.single (.inode c) (-1) + b.own.assets -
          Proc.assets { b.own with cwd := some ip } = 0
        rw [h1, h.bal]
        abel
      · obtain rfl := Option.some.inj hi
        exact hmem

theorem Open.readAll {l : Share P} {Q : Unit → Share P → Prop} (ho : Open l ip) (h : Q () l)
    (rs : List (ℕ × ℕ)) : Safe (readAll ip rs) l Q := by
  induction rs with
  | nil => exact h
  | cons a rs ih => exact safe_bind (safe_readi ho fun _ => ih)

omit [DecidableEq P] in
theorem Free.open (hb : Free b) : Open (((b.add (.inode ip) 1).see S).lock ip) ip := by
  have hf := (hb.add (k := .inode ip) (n := 1) (by decide)).see (S := S)
  refine ⟨hb.busy, hb.lame, hb.sole, Finset.mem_insert_self _ _, Finset.mem_insert_self _ _,
    Finset.mem_insert_self _ _, Or.inl hb.one_le, ?_⟩
  rw [hf.lock_unlock]
  exact hf.see.ordered

theorem Quiet.sysExec {path : List UInt8} {reads : List (ℕ × ℕ)} (h : Quiet b)
    (hv : b.via = none) : Safe (sysExec path reads) b fun _ l => l.Idle := by
  have hb := h.begun hv
  refine h.beginOp ?_
  refine safe_bind (safe_namei hb.toFree (fun ip => hb.has_cwd) (fun S hS => hb.done hS)
    fun S ip hS => safe_bind (hb.ilock ?_))
  exact safe_bind (hb.toFree.open.readAll (safe_bind (hb.unlockput (fun _ => le_rfl) hS
    fun _ hS' => hb.done hS')) reads)

end Open

end Xv6.Fs
