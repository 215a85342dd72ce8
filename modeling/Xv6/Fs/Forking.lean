import Xv6.Fs.Descriptors

/-!
# `pipe` and `fork`, by the rules

With them every call keeps to the rules.
-/

namespace Xv6.Fs
open Lib Lib.Logic

variable {P : Type} [DecidableEq P] {b l : Share P} {ip : Slot} {S : Finset Slot} {f : FileId}
  {fd : Fd} {r : ℤ}

section Pipe

variable {f₀ f₁ : FileId}

omit [DecidableEq P] in
theorem Rest.idle (h : Rest b) (hbal : b.bal = 0) (hblank : b.blank = ∅) (hchild : b.child = none)
    (hcwd : ∀ ip, b.own.cwd = some ip → ip ∈ b.seen) : b.Idle :=
  ⟨hbal, h.tx, h.free.held, h.free.sole, h.free.lame, hblank, hchild, h.free.fresh, h.free.work,
    hcwd⟩

omit [DecidableEq P] in
theorem erase_two {B : Finset FileId} (hB : B = ∅) :
    ((insert f₁ (insert f₀ B)).erase f₀).erase f₁ = B := by
  rw [hB]
  ext x
  simp only [Finset.mem_erase, Finset.mem_insert, Finset.notMem_empty]
  tauto

omit [DecidableEq P] in
theorem Share.lose_two (hb : l.blank = ∅) :
    (((l.gain f₀).gain f₁).lose f₀).lose f₁ = l := by
  have hbal : l.bal + Pi.single (.file f₀) 1 + Pi.single (.file f₁) 1 + Pi.single (.file f₀) (-1) +
      Pi.single (.file f₁) (-1) = l.bal := by
    rw [Pi.single_neg, Pi.single_neg]
    abel
  simp only [gain, lose, add, hbal, erase_two hb]

omit [DecidableEq P] in
theorem Share.open_two (hb : l.blank = ∅) {a : ℕ} :
    { Share.add { Share.add ((((l.gain f₀).gain f₁).add (.pipeEnd a false) 1).add
        (.pipeEnd a true) 1) (.pipeEnd a false) (-1) with
        blank := (insert f₁ (insert f₀ l.blank)).erase f₀ } (.pipeEnd a true) (-1) with
      blank := ((insert f₁ (insert f₀ l.blank)).erase f₀).erase f₁ } =
      (l.add (.file f₀) 1).add (.file f₁) 1 := by
  have hbal : l.bal + Pi.single (.file f₀) 1 + Pi.single (.file f₁) 1 +
      Pi.single (.pipeEnd a false) 1 + Pi.single (.pipeEnd a true) 1 +
      Pi.single (.pipeEnd a false) (-1) + Pi.single (.pipeEnd a true) (-1) =
      l.bal + Pi.single (.file f₀) 1 + Pi.single (.file f₁) 1 := by
    rw [Pi.single_neg, Pi.single_neg]
    abel
  simp only [gain, add, hbal, erase_two hb]

theorem Quiet.pipealloc {Q : Option (FileId × FileId) → Share P → Prop} (h : Quiet b)
    (hv : b.via = none) (h0 : Q none b)
    (h1 : ∀ f₀ f₁, Q (some (f₀, f₁)) ((b.add (.file f₀) 1).add (.file f₁) 1)) :
    Safe pipealloc b Q := by
  refine safe_op h.busy h.lame trivial ?_
  rintro (_ | f₀) _ hpost
  · obtain rfl := hpost
    exact h0
  obtain ⟨hf₀, rfl⟩ := hpost
  have hone : 1 ≤ (b.gain f₀).has (.file f₀) := Share.has_gain (h.nonneg _)
  refine safe_op h.busy h.lame trivial ?_
  rintro (_ | f₁) _ hpost
  · obtain rfl := hpost
    refine safe_bind (safe_fileclose_blank h.busy h.lame (Finset.mem_insert_self _ _) hone hv ?_)
    rw [Share.lose_gain hf₀]
    exact h0
  obtain ⟨hf₁, rfl⟩ := hpost
  have hne : f₁ ≠ f₀ := by
    have : f₁ ∉ insert f₀ b.blank := hf₁
    simpa [h.blank] using this
  have hpos : ∀ k, 0 ≤ ((b.gain f₀).gain f₁).has k := fun k =>
    ((h.nonneg k).trans (Share.has_add_ge (by decide) b (.file f₀) k)).trans
      (Share.has_add_ge (by decide) (b.gain f₀) (.file f₁) k)
  have hmem : f₀ ∈ insert f₁ (insert f₀ b.blank) :=
    Finset.mem_insert_of_mem (Finset.mem_insert_self _ _)
  have hmem' : f₁ ∈ (insert f₁ (insert f₀ b.blank)).erase f₀ :=
    Finset.mem_erase.mpr ⟨hne, Finset.mem_insert_self _ _⟩
  refine safe_op h.busy h.lame trivial ?_
  rintro (_ | a) _ hpost
  · obtain rfl := hpost
    refine safe_bind (safe_fileclose_blank h.busy h.lame hmem ?_ hv ?_)
    · exact hone.trans (Share.has_add_ge (by decide) (b.gain f₀) (.file f₁) _)
    refine safe_bind (safe_fileclose_blank h.busy h.lame hmem' ?_ hv ?_)
    · have h2 := ((b.gain f₀).gain f₁).has_add (.file f₀) (.file f₁) (-1)
      rw [if_neg (by simpa using hne)] at h2
      have h3 := Share.has_gain (l := b.gain f₀) (f := f₁)
        ((h.nonneg _).trans (Share.has_add_ge (by decide) b (.file f₀) _))
      change 1 ≤ (((b.gain f₀).gain f₁).add (.file f₀) (-1)).has (.file f₁)
      omega
    · rw [Share.lose_two h.blank]
      exact h0
  · obtain rfl := hpost
    have hread := ((b.gain f₀).gain f₁).has_add_self (.pipeEnd a false) 1
    have hwrite := (((b.gain f₀).gain f₁).add (.pipeEnd a false) 1).has_add_self (.pipeEnd a true) 1
    refine safe_op h.busy h.lame ⟨hmem, ?_⟩ ?_
    · refine le_trans ?_ (Share.has_add_ge (by decide) _ (.pipeEnd a true) _)
      have := hpos (.pipeEnd a false)
      omega
    · rintro _ _ rfl
      refine safe_op h.busy h.lame ⟨hmem', ?_⟩ ?_
      · have h2 := ((((b.gain f₀).gain f₁).add (.pipeEnd a false) 1).add (.pipeEnd a true) 1).has_add
          (.pipeEnd a false) (.pipeEnd a true) (-1)
        have h3 := (hpos (.pipeEnd a true)).trans
          (Share.has_add_ge (n := 1) (by decide) _ (.pipeEnd a false) _)
        rw [if_neg nofun, hwrite] at h2
        refine le_trans ?_ h2.ge
        omega
      · rintro _ _ rfl
        have h2 := h1 f₀ f₁
        rw [← Share.open_two h.blank (a := a)] at h2
        exact h2

theorem Rest.closeTwo (h : Rest b) (hbal : b.bal = Pi.single (.file f₀) 1 + Pi.single (.file f₁) 1)
    (hblank : b.blank = ∅) (hchild : b.child = none)
    (hcwd : ∀ ip, b.own.cwd = some ip → ip ∈ b.seen) :
    Safe (do Fs.fileclose f₀; Fs.fileclose f₁; return r) b fun _ l => l.Idle := by
  have hhas : ∀ f, b.has (.file f) = b.own.assets (.file f) + (b.bal (.file f)) := fun _ => rfl
  have hone : ∀ jp, b.own.cwd = some jp → 1 ≤ b.has (.inode jp) := fun jp hc => by
    have : b.has (.inode jp) = b.own.assets (.inode jp) + b.bal (.inode jp) := rfl
    rw [this, hbal]
    simp [Proc.assets, hc]
  have hinode : ∀ f jp, (b.lose f).has (.inode jp) = b.has (.inode jp) := fun f jp =>
    (b.has_add (.file f) (.inode jp) (-1)).trans (add_zero _)
  have h0 : 1 ≤ b.has (.file f₀) := by
    have h1 := b.own.assets_nonneg (.file f₀)
    rw [hhas, hbal]
    simp only [Pi.add_apply, Pi.single_eq_same, Pi.single_apply]
    split_ifs <;> omega
  have h1 : 1 ≤ (b.lose f₀).has (.file f₁) := by
    have h1 := b.own.assets_nonneg (.file f₁)
    have h2 := b.has_add (.file f₀) (.file f₁) (-1)
    rw [hhas, hbal] at h2
    change 1 ≤ (b.add (.file f₀) (-1)).has (.file f₁)
    simp only [Pi.add_apply, Pi.single_eq_same, Pi.single_apply] at h2
    split_ifs at h2 <;> omega
  refine safe_bind (h.fileclose h0 fun S hS => ?_)
  refine safe_bind ((h.lose h0).see.fileclose h1 fun S' hS' => ?_)
  refine (((h.lose h0).see.lose h1).see).idle ?_ ?_ hchild fun ip hc => ?_
  · change b.bal + Pi.single (.file f₀) (-1) + Pi.single (.file f₁) (-1) = 0
    rw [hbal, Pi.single_neg, Pi.single_neg]
    abel
  · change (b.blank.erase f₀).erase f₁ = ∅
    rw [hblank, Finset.erase_empty, Finset.erase_empty]
  · have hc : b.own.cwd = some ip := hc
    exact hS' ip (hS ip (hcwd ip hc) (hone ip hc)) ((hone ip hc).trans_eq (hinode f₀ ip).symm)

omit [DecidableEq P] in
theorem Rest.add {k : Key} {n : ℤ} (h : Rest b) (hn : 0 ≤ n) : Rest (b.add k n) :=
  ⟨h.tx, h.free.add hn, h.via⟩

theorem Quiet.sysPipe (h : Quiet b) (hv : b.via = none) : Safe sysPipe b fun _ l => l.Idle := by
  refine safe_bind (h.pipealloc hv h.idle fun f₀ f₁ => ?_)
  have hr : Rest ((b.add (.file f₀) 1).add (.file f₁) 1) :=
    ((h.rest hv).add (by decide)).add (by decide)
  refine safe_op h.busy h.lame trivial ?_
  rintro (_ | fd₀) _ hpost
  · obtain rfl := hpost
    refine hr.closeTwo ?_ h.blank h.child h.cwd
    change b.bal + Pi.single (.file f₀) 1 + Pi.single (.file f₁) 1 = _
    rw [h.bal, zero_add]
  obtain ⟨hfd₀, rfl⟩ := hpost
  have hfd₀ : b.own.ofile fd₀ = none := hfd₀
  refine safe_op h.busy h.lame trivial ?_
  rintro (_ | fd₁) _ hpost
  · obtain rfl := hpost
    refine safe_op h.busy h.lame rfl ?_
    rintro _ _ rfl
    refine ((hr.reown _).reown _).closeTwo ?_ h.blank h.child h.cwd
    have hset : (b.own.setFd fd₀ (some f₀)).ofile fd₀ = some f₀ := Function.update_self ..
    change b.bal + Pi.single (.file f₀) 1 + Pi.single (.file f₁) 1 + b.own.assets -
      (b.own.setFd fd₀ (some f₀)).assets + (b.own.setFd fd₀ (some f₀)).assets -
      ((b.own.setFd fd₀ (some f₀)).setFd fd₀ none).assets = _
    rw [Proc.assets_close hset, Proc.assets_ofile hfd₀, h.bal, Pi.single_neg]
    abel
  · obtain ⟨hfd₁, rfl⟩ := hpost
    have hfd₁ : (b.own.setFd fd₀ (some f₀)).ofile fd₁ = none := hfd₁
    refine ((hr.reown _).reown _).idle ?_ h.blank h.child h.cwd
    change b.bal + Pi.single (.file f₀) 1 + Pi.single (.file f₁) 1 + b.own.assets -
      (b.own.setFd fd₀ (some f₀)).assets + (b.own.setFd fd₀ (some f₀)).assets -
      ((b.own.setFd fd₀ (some f₀)).setFd fd₁ (some f₁)).assets = 0
    rw [Proc.assets_ofile hfd₁, Proc.assets_ofile hfd₀, h.bal]
    abel

end Pipe

section Fork

variable {c : P}

def Share.parent (l : Share P) (c : P) (F : Finset (Option Fd)) : Share P :=
  { l with child := some c, filled := F }

theorem Quiet.dupFiles {Q : Unit → Share P → Prop} (h : Quiet b) (hv : b.via = none)
    (fds : List Fd) (hnd : fds.Nodup) {F : Finset (Option Fd)} (hF : ∀ fd ∈ fds, some fd ∉ F)
    (hn : none ∉ F) (hQ : ∀ F, none ∉ F → Q () (b.parent c F)) :
    Safe (dupFiles c fds) (b.parent c F) Q := by
  induction fds generalizing F with
  | nil => exact hQ F hn
  | cons fd fds ih =>
    obtain ⟨hfd, hnd⟩ := List.nodup_cons.mp hnd
    refine safe_ask h.busy h.lame trivial (fun _ _ => id) ?_
    rintro (_ | f) hf
    · exact ih hnd (fun fd' hf' => hF fd' (List.mem_cons_of_mem _ hf')) hn
    · have hone := h.has_file (f := f) hf.symm
      refine safe_op h.busy h.lame ⟨hone, ?_⟩ ?_
      · change f ∉ b.blank
        rw [h.blank]
        exact Finset.notMem_empty f
      rintro _ _ rfl
      refine safe_op h.busy h.lame ⟨rfl, hF fd List.mem_cons_self, ?_, hv, h.blank⟩ ?_
      · exact hone.trans (Share.has_add_ge (by decide) (b.parent c F) (.file f) _)
      rintro _ _ rfl
      have hback : { Share.add ((b.parent c F).add (.file f) 1) (.file f) (-1) with
          filled := insert (some fd) F } = b.parent c (insert (some fd) F) := by
        simp only [Share.add, Share.parent, Pi.single_neg, add_neg_cancel_right]
      have := ih hnd (F := insert (some fd) F) (fun fd' hf' hmem => ?_) ?_
      · rw [← hback] at this
        exact this
      · rcases Finset.mem_insert.mp hmem with heq | hmem
        · exact hfd (Option.some.inj heq ▸ hf')
        · exact hF fd' (List.mem_cons_of_mem _ hf') hmem
      · rw [Finset.mem_insert, not_or]
        exact ⟨(Option.some_ne_none fd).symm, hn⟩

theorem Quiet.fork (h : Quiet b) (hv : b.via = none) : Safe (fork c) b fun _ l => l.Idle := by
  refine safe_op h.busy h.lame h.child ?_
  rintro ok _ rfl
  split_ifs with hok
  · refine safe_bind (h.dupFiles hv _ (List.nodup_finRange _) (fun _ _ => Finset.notMem_empty _)
      (Finset.notMem_empty _) fun F hn => ?_)
    refine safe_ask h.busy h.lame trivial (fun _ _ => id) fun ip hc => ?_
    have hc : b.own.cwd = some ip := hc
    have hone : 1 ≤ b.has (.inode ip) := by
      simp [Share.has, h.bal, Proc.assets, hc]
    refine safe_op h.busy h.lame (Or.inl hone) ?_
    rintro _ _ rfl
    have htwo := (b.parent c F).has_add_self (.inode ip) 1
    refine safe_op h.busy h.lame ⟨rfl, hn, h.cwd ip hc, ?_, h.held, h.new⟩ ?_
    · exact hone.trans (Share.has_add_ge (by decide) (b.parent c F) (.inode ip) _)
    rintro _ _ rfl
    refine safe_op h.busy rfl rfl ?_
    rintro _ _ rfl
    refine ⟨?_, h.tx, h.held, h.sole, rfl, h.blank, rfl, h.fresh, h.work, fun jp hj => ?_⟩
    · change b.bal + Pi.single (.inode ip) 1 + Pi.single (.inode ip) (-1) = 0
      rw [Pi.single_neg, add_neg_cancel_right, h.bal]
    · have hj : b.own.cwd = some jp := hj
      refine Share.mem_put_seen (h.cwd jp hj) (Or.inr ?_)
      obtain rfl := Option.some.inj (hc.symm.trans hj)
      have : (b.parent c F).has (.inode ip) = b.has (.inode ip) := rfl
      omega
  · exact h.idle

end Fork

/-- Every call of a process keeps to the rules. -/
theorem Call.safe (c : Call P) (x : Proc) :
    Safe ((machine P).entry c) (.enter x) fun _ l => l.Idle := by
  have h := Quiet.enter (P := P) x
  have hv : (Share.enter x : Share P).via = none := rfl
  refine safe_bind ?_
  cases c with
  | «open» path omode =>
    cases path with
    | none => exact h.idle
    | some path => exact h.sysOpen hv
  | mkdir path => exact h.sysMake hv nofun
  | mknod path major minor => exact h.sysMake hv nofun
  | link old new =>
    cases old with
    | none => exact h.idle
    | some old =>
      cases new with
      | none => exact h.idle
      | some new => exact (h.begun hv).sysLink h.tx
  | unlink path =>
    cases path with
    | none => exact h.idle
    | some path => exact (h.begun hv).sysUnlink h.tx
  | chdir path => exact h.sysChdir hv
  | exec path reads => exact h.sysExec hv
  | read fd n =>
    exact safe_bind (h.argfd h.idle fun fd f hf => h.fileread hv (h.has_file hf))
  | write fd src =>
    exact safe_bind (h.argfd h.idle fun fd f hf => h.filewrite hv (h.has_file hf))
  | fstat fd =>
    exact safe_bind (h.argfd h.idle fun fd f hf => h.filestat hv (h.has_file hf))
  | close fd => exact h.sysClose hv
  | dup fd => exact h.sysDup
  | pipe => exact h.sysPipe hv
  | fork c => exact h.fork hv
  | exit => exact safe_bind (h.exit hv)

end Xv6.Fs
