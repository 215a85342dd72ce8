import Xv6.Fs.Opening

/-!
# Calls on open files, by the rules

`read`, `write`, `fstat`, `dup` and `close`, and the closing of all files in `exit`.
-/

namespace Xv6.Fs
open Lib Lib.Logic

variable {P : Type} [DecidableEq P] {b l : Share P} {ip : Slot} {S : Finset Slot} {f : FileId}
  {fd : Fd} {r : ℤ}

section Use

theorem Quiet.argfd {Q : Option FileId → Share P → Prop} (h : Quiet b) {fd : Option Fd}
    (h0 : Q none b) (h1 : ∀ fd f, b.own.ofile fd = some f → Q (some f) b) :
    Safe (argfd fd) b Q := by
  cases fd with
  | none => exact h0
  | some fd =>
    refine safe_last h.busy h.lame trivial ?_
    rintro (_ | f) _ ⟨hf, rfl⟩
    · exact h0
    · exact h1 fd f hf.symm

omit [DecidableEq P] in
theorem Quiet.through (h : Quiet b) (f : FileId) (ip : Slot) : Quiet (b.through f ip) :=
  { h with }

omit [DecidableEq P] in
theorem Quiet.see (h : Quiet b) (hsub : b.seen ⊆ S) : Quiet (b.see S) :=
  { h with cwd := fun ip hc => hsub (h.cwd ip hc) }

omit [DecidableEq P] in
theorem Quiet.lock_unlock (h : Quiet b) : (b.lock ip).unlock ip = b.see (insert ip b.seen) :=
  Share.lock_unlock h.held h.loaded

omit [DecidableEq P] in
theorem Quiet.ordered (h : Quiet b) : b.Ordered ip := Or.inr (Or.inl h.held)

omit [DecidableEq P] in
theorem Quiet.openVia (h : Quiet b) {t : Bool} :
    Open (Share.lock { b.through f ip with tx := t } ip) ip := by
  refine ⟨h.busy, h.lame, h.sole, Finset.mem_insert_self _ _, Finset.mem_insert_self _ _,
    Finset.mem_insert_self _ _, Or.inr ⟨f, rfl⟩, Or.inr (Or.inl ?_)⟩
  change (insert ip b.held).erase ip = ∅
  rw [h.held, Finset.erase_insert (Finset.notMem_empty ip)]

section File

variable {α : Type} {cont : File → Thread P α} {R : α → Share P → Prop}

theorem Quiet.file (h : Quiet b) (hv : b.via = none) (hH : 1 ≤ b.has (.file f))
    (h0 : ∀ x : File, x.type ≠ .inode → Safe (cont x) b R)
    (h1 : ∀ x : File, x.type = .inode → Safe (cont x) (b.through f x.ip) R) :
    Safe (do let x ← perform (.file f); cont x) b R := by
  refine safe_op h.busy h.lame ⟨hH, Or.inl hv⟩ ?_
  rintro x _ ⟨-, rfl⟩
  split_ifs with ht
  · exact h1 x ht
  · exact h0 x ht

theorem safe_again (hb : l.busy = true) (hl : l.lame = none) (hv : l.via = some (f, ip))
    (hH : 1 ≤ l.has (.file f)) (h : ∀ y, Safe (cont y) l R) :
    Safe (do let y ← perform (.file f); cont y) l R := by
  refine safe_op hb hl ⟨hH, Or.inr ⟨ip, hv⟩⟩ ?_
  rintro y _ ⟨hy, rfl⟩
  obtain ⟨ht, rfl⟩ := hy ip hv
  have : l.through f y.ip = l := by
    rw [Share.through, ← hv]
  rw [if_pos ht, this]
  exact h y

end File

theorem Quiet.filestat (h : Quiet b) (hv : b.via = none) (hH : 1 ≤ b.has (.file f)) :
    Safe (filestat f) b fun _ l => l.Idle := by
  refine h.file hv hH (fun x ht => ?_) fun x ht => ?_
  · rw [if_neg ht]
    exact h.idle
  · have hu := h.through f x.ip
    rw [if_pos ht]
    refine safe_bind (safe_ilock h.busy h.lame (Or.inr ⟨f, rfl⟩) hu.ordered fun _ => ?_)
    refine safe_look h.busy h.lame trivial (fun _ _ => id) fun d => ?_
    refine safe_bind (safe_iunlock h.busy h.lame (Finset.mem_insert_self _ _) h.sole ?_)
    rw [hu.lock_unlock]
    exact (hu.see (Finset.subset_insert _ _)).idle

theorem Quiet.fileread (h : Quiet b) (hv : b.via = none) (hH : 1 ≤ b.has (.file f)) {n : ℕ} :
    Safe (fileread f n) b fun _ l => l.Idle := by
  refine h.file hv hH (fun x ht => ?_) fun x ht => ?_
  · split_ifs
    · exact h.idle
    · cases hx : x.type with
      | none => exact safe_panic h.busy h.lame
      | pipe =>
        refine safe_last h.busy h.lame trivial ?_
        rintro _ _ rfl
        exact h.idle
      | inode => exact absurd hx ht
  · have hu := h.through f x.ip
    split_ifs
    · exact hu.idle
    · rw [ht]
      refine safe_bind (safe_ilock h.busy h.lame (Or.inr ⟨f, rfl⟩) hu.ordered fun _ => ?_)
      refine safe_again h.busy h.lame rfl hH fun y => ?_
      refine safe_bind (safe_readi (h.openVia (t := b.tx)) fun r => ?_)
      have rest : Safe (do iunlock x.ip; return r) ((b.through f x.ip).lock x.ip)
          fun _ l => l.Idle := by
        refine safe_bind (safe_iunlock h.busy h.lame (Finset.mem_insert_self _ _) h.sole ?_)
        rw [hu.lock_unlock]
        exact (hu.see (Finset.subset_insert _ _)).idle
      refine safe_bind (wp_when.mpr ⟨fun _ => ?_, fun _ => rest⟩)
      refine safe_last h.busy h.lame trivial ?_
      rintro _ _ rfl
      exact rest

theorem Quiet.filewriteFrom {Q : Bool → Share P → Prop} (h : Quiet b)
    (hH : 1 ≤ b.has (.file f)) (hQ : ∀ r S, b.seen ⊆ S → Q r ((b.through f ip).see S))
    (fuel : ℕ) (src : List UInt8) (hS : b.seen ⊆ S) :
    Safe (filewriteFrom f ip fuel src) ((b.through f ip).see S) Q := by
  induction fuel generalizing src S with
  | zero => exact hQ _ S hS
  | succ fuel ih =>
    unfold filewriteFrom
    split_ifs
    · exact hQ _ S hS
    · have hu := (h.through f ip).see hS
      refine hu.beginOp (safe_bind (safe_ilock h.busy h.lame (Or.inr ⟨f, rfl⟩)
        (Or.inr (Or.inl h.held)) fun _ => ?_))
      refine safe_again h.busy h.lame rfl hH fun y => ?_
      refine safe_bind (safe_writei ((h.see hS).openVia (t := true)) rfl fun r => ?_)
      have rest : Safe (do
          iunlock ip
          perform .endOp
          if r < 0 then return false
          else if r ≠ (src.take MAXWRITE).length then panic "short filewrite"
          else filewriteFrom f ip fuel (src.drop (src.take MAXWRITE).length))
          (Share.lock { (b.through f ip).see S with tx := true } ip) Q := by
        refine safe_bind (safe_iunlock h.busy h.lame (Finset.mem_insert_self _ _) h.sole ?_)
        rw [Share.lock_unlock (b := { (b.through f ip).see S with tx := true }) h.held h.loaded]
        refine safe_op h.busy h.lame rfl ?_
        rintro _ _ rfl
        have hsub : b.seen ⊆ insert ip S := hS.trans (Finset.subset_insert _ _)
        have hend : { Share.see { (b.through f ip).see S with tx := true } (insert ip S) with
            tx := false } = (b.through f ip).see (insert ip S) := by
          simp only [Share.see, Share.through, h.tx]
        change Safe _ { Share.see { (b.through f ip).see S with tx := true } (insert ip S) with
            tx := false } Q
        rw [hend]
        split_ifs
        · exact hQ _ _ hsub
        · exact safe_panic h.busy h.lame
        · exact ih _ hsub
      refine safe_bind (wp_when.mpr ⟨fun _ => ?_, fun _ => rest⟩)
      refine safe_last h.busy h.lame trivial ?_
      rintro _ _ rfl
      exact rest

theorem Quiet.filewrite (h : Quiet b) (hv : b.via = none) (hH : 1 ≤ b.has (.file f))
    {src : List UInt8} : Safe (filewrite f src) b fun _ l => l.Idle := by
  refine h.file hv hH (fun x ht => ?_) fun x ht => ?_
  · split_ifs
    · exact h.idle
    · cases hx : x.type with
      | none => exact safe_panic h.busy h.lame
      | pipe =>
        refine safe_last h.busy h.lame trivial ?_
        rintro _ _ rfl
        exact h.idle
      | inode => exact absurd hx ht
  · have hu := h.through f x.ip
    split_ifs
    · exact hu.idle
    · rw [ht]
      exact safe_bind (h.filewriteFrom hH (fun r S hS => (hu.see hS).idle) _ _
        (Finset.Subset.refl _))

theorem Quiet.sysDup (h : Quiet b) {fd : Option Fd} : Safe (sysDup fd) b fun _ l => l.Idle := by
  refine safe_bind (h.argfd h.idle fun fd f hf => ?_)
  refine safe_op h.busy h.lame trivial ?_
  rintro (_ | fd') _ hpost
  · obtain rfl := hpost
    exact h.idle
  · obtain ⟨hfd, rfl⟩ := hpost
    refine safe_op h.busy h.lame ⟨?_, ?_⟩ ?_
    · rw [Share.has_reown]
      exact h.has_file hf
    · change f ∉ b.blank
      rw [h.blank]
      exact Finset.notMem_empty f
    · rintro _ _ rfl
      have hassets := Proc.assets_ofile (f := f) hfd
      refine ⟨?_, h.tx, h.held, h.sole, h.lame, h.blank, h.child, h.fresh, h.work, h.cwd⟩
      change b.bal + b.own.assets - (b.own.setFd fd' (some f)).assets + Pi.single (.file f) 1 = 0
      rw [hassets, h.bal]
      abel

end Use

section Close

structure Rest (b : Share P) : Prop where
  tx : b.tx = false
  free : Free { b with tx := true }
  via : b.via = none

theorem Rest.pipeclose {Q : Unit → Share P → Prop} (h : Rest b) {a : ℕ} {w : Bool}
    (hQ : Q () b) : Safe (pipeclose a w) (b.add (.pipeEnd a w) 1) Q := by
  have hback : ∀ k, ((b.add k 1).add k (-1)) = b := fun k => by
    simp only [Share.add, Pi.single_neg, add_neg_cancel_right]
  refine safe_op h.free.busy h.free.lame ?_ ?_
  · have h1 := b.has_add_self (.pipeEnd a w) 1
    have h2 : 0 ≤ b.has (.pipeEnd a w) := h.free.nonneg _
    change 1 ≤ (b.add (.pipeEnd a w) 1).has (.pipeEnd a w)
    omega
  · rintro both _ rfl
    rw [hback]
    refine wp_when.mpr ⟨fun hboth => ?_, fun hboth => ?_⟩
    · rw [if_pos hboth]
      refine safe_last h.free.busy h.free.lame ?_ ?_
      · have h1 := b.has_add_self (.page a) 1
        have h2 : 0 ≤ b.has (.page a) := h.free.nonneg _
        change 1 ≤ (b.add (.page a) 1).has (.page a)
        omega
      · rintro _ _ rfl
        rw [hback]
        exact hQ
    · rw [if_neg hboth]
      exact hQ

omit [DecidableEq P] in
theorem Rest.lose (h : Rest b) (hH : 1 ≤ b.has (.file f)) : Rest (b.lose f) where
  tx := h.tx
  free := { h.free with
    nonneg := fun k => by
      have h1 := b.has_add (.file f) k (-1)
      have h2 : 0 ≤ b.has k := h.free.nonneg k
      change 0 ≤ (b.add (.file f) (-1)).has k
      split_ifs at h1 with hk
      · rw [hk] at h1 h2 ⊢
        omega
      · omega }
  via := h.via

theorem Rest.fileclose {Q : Unit → Share P → Prop} (h : Rest b) (hH : 1 ≤ b.has (.file f))
    (hQ : ∀ S, Keeps b S → Q () ((b.lose f).see S)) : Safe (fileclose f) b Q := by
  have hl := h.lose hH
  have hS : Keeps b b.seen := fun _ hj _ => hj
  refine safe_op h.free.busy h.free.lame ⟨hH, h.via⟩ ?_
  rintro (_ | ff) _ hpost
  · obtain rfl := hpost
    exact hQ _ hS
  · obtain ⟨-, rfl⟩ := hpost
    dsimp only
    cases ff.type with
    | none => exact hQ _ hS
    | pipe => exact hl.pipeclose (hQ _ hS)
    | inode =>
      refine safe_op hl.free.busy hl.free.lame hl.tx ?_
      rintro _ _ rfl
      have hle : ∀ jp, b.has (.inode jp) ≤ Share.has { b.lose f with tx := true } (.inode jp) :=
        fun jp => ((b.has_add (.file f) (.inode jp) (-1)).trans (add_zero _)).ge
      refine safe_bind (hl.free.iput hle hS.insert fun S hS' => ?_)
      refine safe_last hl.free.busy hl.free.lame rfl ?_
      rintro _ _ rfl
      have hend : { Share.see { b.lose f with tx := true } S with tx := false } =
          (b.lose f).see S := by
        simp only [Share.see, Share.lose, Share.add, h.tx]
      rw [hend]
      exact hQ S hS'

omit [DecidableEq P] in
theorem Quiet.rest (h : Quiet b) (hv : b.via = none) : Rest b :=
  ⟨h.tx, (h.begun hv).toFree, hv⟩

omit [DecidableEq P] in
theorem Rest.reown (h : Rest b) (x : Proc) : Rest (b.reown x) where
  tx := h.tx
  free := { h.free with
    nonneg := fun k => (h.free.nonneg k).trans_eq (b.has_reown x k).symm }
  via := h.via

omit [DecidableEq P] in
theorem Rest.see (h : Rest b) : Rest (b.see S) := ⟨h.tx, h.free.see, h.via⟩

omit [DecidableEq P] in
theorem Quiet.closed (h : Quiet b) (hfd : b.own.ofile fd = some f) (hS : Keeps b S) :
    Quiet (((b.reown (b.own.setFd fd none)).lose f).see S) where
  busy := h.busy
  tx := h.tx
  lame := h.lame
  sole := h.sole
  fresh := h.fresh
  new := h.new
  work := h.work
  kid := h.kid
  held := h.held
  loaded := h.loaded
  bal := by
    change b.bal + b.own.assets - (b.own.setFd fd none).assets + Pi.single (.file f) (-1) = 0
    rw [Proc.assets_close hfd, h.bal]
    abel
  blank := by
    change b.blank.erase f = ∅
    rw [h.blank, Finset.erase_empty]
  child := h.child
  cwd ip hc := by
    have hc : b.own.cwd = some ip := hc
    refine hS ip (h.cwd ip hc) ?_
    simp [Share.has, h.bal, Proc.assets, hc]

omit [DecidableEq P] in
theorem Keeps.of_reown {x : Proc} (h : Keeps (b.reown x) S) : Keeps b S := fun jp hj h1 =>
  h jp hj (h1.trans_eq (b.has_reown x _).symm)

theorem Quiet.sysClose (h : Quiet b) (hv : b.via = none) {fd : Option Fd} :
    Safe (sysClose fd) b fun _ l => l.Idle := by
  cases fd with
  | none => exact h.idle
  | some fd =>
    refine safe_ask h.busy h.lame trivial (fun _ _ => id) ?_
    rintro (_ | f) hfd
    · exact h.idle
    · refine safe_op h.busy h.lame rfl ?_
      rintro _ _ rfl
      refine safe_bind (((h.rest hv).reown _).fileclose ?_ fun S hS => ?_)
      · rw [Share.has_reown]
        exact h.has_file hfd.symm
      · exact (h.closed hfd.symm hS.of_reown).idle

omit [DecidableEq P] in
theorem Share.lose_reown (x : Proc) :
    ((l.lose f).see S).reown x = ((l.reown x).lose f).see S := by
  have hbal : l.bal + Pi.single (.file f) (-1) + l.own.assets - x.assets =
      l.bal + l.own.assets - x.assets + Pi.single (.file f) (-1) := by abel
  simp only [lose, see, reown, add, hbal]

theorem Quiet.closeFiles {Q : Unit → Share P → Prop} (fds : List Fd) (h : Quiet b)
    (hv : b.via = none)
    (hQ : ∀ b' : Share P, Quiet b' → b'.via = none → b'.own.cwd = b.own.cwd →
      (∀ fd ∈ fds, b'.own.ofile fd = none) →
      (∀ fd, b.own.ofile fd = none → b'.own.ofile fd = none) → Q () b') :
    Safe (closeFiles fds) b Q := by
  induction fds generalizing b with
  | nil => exact hQ b h hv rfl nofun fun _ => id
  | cons fd fds ih =>
    refine safe_ask h.busy h.lame trivial (fun _ _ => id) ?_
    rintro (_ | f) hfd
    · refine ih h hv fun b' h1 h2 h3 h4 h5 => hQ b' h1 h2 h3 (fun fd' hf => ?_) h5
      rcases List.mem_cons.mp hf with rfl | hf
      · exact h5 _ hfd.symm
      · exact h4 fd' hf
    · refine safe_bind ((h.rest hv).fileclose (h.has_file hfd.symm) fun S hS => ?_)
      refine safe_op h.busy h.lame rfl ?_
      rintro _ _ rfl
      rw [Share.lose_reown]
      have hset : ∀ fd', fd' = fd ∨ b.own.ofile fd' = none →
          (b.own.setFd fd none).ofile fd' = none := fun fd' hf => by
        by_cases heq : fd' = fd
        · rw [heq]
          exact Function.update_self ..
        · exact (Function.update_of_ne heq ..).trans (hf.resolve_left heq)
      refine ih (h.closed hfd.symm hS) hv fun b' h1 h2 h3 h4 h5 =>
        hQ b' h1 h2 h3 (fun fd' hf => ?_) fun fd' hf => h5 fd' (hset fd' (Or.inr hf))
      rcases List.mem_cons.mp hf with rfl | hf
      · exact h5 _ (hset _ (Or.inl rfl))
      · exact h4 fd' hf

theorem Quiet.exit (h : Quiet b) (hv : b.via = none) : Safe exit b fun _ l => l.Idle := by
  refine safe_bind (h.closeFiles _ hv fun b' h' hv' hcwd hfile _ => ?_)
  have hb := h'.begun hv'
  refine h'.beginOp (safe_op h'.busy h'.lame trivial ?_)
  rintro c _ ⟨hc, rfl⟩
  have hc : b'.own.cwd = some c := hc
  refine safe_bind (safe_iput hb.busy hb.lame hb.sole hb.new rfl (hb.has_cwd hc)
    hb.toFree.ordered fun _ => ?_)
  refine safe_op h'.busy rfl rfl ?_
  rintro _ _ rfl
  refine safe_op h'.busy rfl nofun ?_
  rintro _ _ rfl
  refine safe_last h'.busy rfl ⟨⟨?_, rfl, h'.held, h'.sole, rfl, h'.blank, h'.child, h'.fresh,
    h'.work, nofun⟩, rfl, fun fd => hfile fd (List.mem_finRange fd)⟩ ?_
  · change b'.bal + Pi.single (.inode c) (-1) + b'.own.assets -
      Proc.assets { b'.own with cwd := none } = 0
    rw [Proc.assets_leave hc, h'.bal]
    abel
  · rintro _ _ rfl
    exact ⟨rfl, rfl, rfl, rfl, rfl, rfl, rfl, rfl, rfl, nofun⟩

end Close

end Xv6.Fs
