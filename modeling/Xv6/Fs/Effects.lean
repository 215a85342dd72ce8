import Xv6.Fs.Run

/-!
# What operations do to inodes

Most operations leave the inodes alone, on disk and in the cache. The others are
`Op.active`; the arguments about inodes go through these only.
-/

namespace Xv6.Fs
open Lib

variable {P : Type} [DecidableEq P] {s s' : State P} {p : P} {n : ℕ} {l l' : Share P}

def Op.active : Op P → Bool
  | .iget _ | .idup _ | .acquiresleep _ | .releasesleep _ | .load _ | .lastRef _ | .ifree _
  | .unref _ | .ialloc _ | .setup _ _ _ | .addLink _ _ | .dirlookup _ _ | .writeData _ _ _ => true
  | _ => false

structure SameInodes (s s' : State P) : Prop where
  disk : s'.disk = s.disk
  data : s'.data = s.data
  inode : s'.inode = s.inode

theorem exec_quiet {o : Op P} {a : Ans o} (h : o.active = false)
    (he : exec p n o s = .ret (a, s')) : SameInodes s s' := by
  have keep {α : Type} {t : State P} {a b : α} (he : Outcome.ret (b, t) = .ret (a, s'))
      (ht : SameInodes s t) : SameInodes s s' := by
    obtain ⟨-, rfl⟩ := Outcome.ret_inj he
    exact ht
  have same : SameInodes s s := ⟨rfl, rfl, rfl⟩
  cases o with
  | iget _ | idup _ | acquiresleep _ | releasesleep _ | load _ | lastRef _ | ifree _ | unref _
  | ialloc _ | setup _ _ _ | addLink _ _ | dirlookup _ _ | writeData _ _ _ => cases h
  | panic m => cases he
  | beginOp | endOp | refOf _ | holdingsleep _ | fields _ | inumOf _ | readData _ _ _ | console _
  | pipeio | file _ | ofile _ => exact keep he same
  | dirslot dp | isdirempty dp =>
    obtain ⟨r, -, he⟩ := Outcome.bind_eq_ret.mp he
    exact keep he same
  | enterDir _ | leaveDir | openInode _ _ _ _ | openPipe _ _ _ | addOff _ _ | kfree _
  | setOfile _ _ | setCwd _ | childFile _ _ _ | childCwd _ _ | spawn _ | die =>
    exact keep he ⟨rfl, rfl, rfl⟩
  | pipeclose x w => exact keep he ⟨rfl, rfl, rfl⟩
  | filealloc =>
    have he : s.filealloc = (a, s') := Outcome.ret.inj he
    unfold State.filealloc at he
    split at he <;> obtain ⟨-, rfl⟩ := Prod.mk.inj he <;> exact ⟨rfl, rfl, rfl⟩
  | filedup f =>
    simp only [exec, State.filedup] at he
    split_ifs at he
    exact keep he ⟨rfl, rfl, rfl⟩
  | filedrop f =>
    simp only [exec, State.filedrop] at he
    split_ifs at he <;> exact keep he ⟨rfl, rfl, rfl⟩
  | pipeKalloc =>
    simp only [exec, State.pipeKalloc] at he
    split_ifs at he <;> exact keep he ⟨rfl, rfl, rfl⟩
  | fdalloc f =>
    have he : s.fdalloc p f = (a, s') := Outcome.ret.inj he
    unfold State.fdalloc at he
    split at he <;> obtain ⟨-, rfl⟩ := Prod.mk.inj he <;> exact ⟨rfl, rfl, rfl⟩
  | cwd =>
    simp only [exec] at he
    split at he
    · exact keep he same
    · cases he
  | allocproc c =>
    simp only [exec] at he
    split_ifs at he <;> exact keep he ⟨rfl, rfl, rfl⟩

theorem post_quiet {o : Op P} {a : Ans o} (h : o.active = false) (hpre : (logic P).pre o l)
    (hpost : post o l a l') : l'.lame = l.lame ∧ l'.fresh = l.fresh := by
  have hl : l.lame = none := by
    by_contra hn
    obtain ⟨ip, hi⟩ := Option.ne_none_iff_exists'.mp hn
    rcases hpre.2.1 ip hi with rfl | rfl <;> cases h
  have hpre := hpre.2.2
  cases o with
  | iget _ | idup _ | acquiresleep _ | releasesleep _ | load _ | lastRef _ | ifree _ | unref _
  | ialloc _ | setup _ _ _ | addLink _ _ | dirlookup _ _ | writeData _ _ _ => cases h
  | panic m => exact hpost.elim
  | refOf _ | holdingsleep _ | fields _ | inumOf _ | readData _ _ _ | console _ | pipeio
  | dirslot dp | isdirempty dp | addOff _ _ =>
    obtain rfl : l' = l := hpost
    exact ⟨rfl, rfl⟩
  | beginOp | endOp | enterDir _ | leaveDir | kfree _ | setOfile _ _ | setCwd _ | openPipe _ _ _
  | childFile _ _ _ | spawn _ | filedup _ =>
    obtain rfl := hpost
    exact ⟨rfl, rfl⟩
  | openInode _ _ _ _ | childCwd _ _ =>
    obtain rfl := hpost
    exact ⟨hl.symm, rfl⟩
  | ofile _ | cwd =>
    obtain ⟨-, rfl⟩ := hpost
    exact ⟨rfl, rfl⟩
  | file f =>
    obtain ⟨-, rfl⟩ := hpost
    split_ifs <;> exact ⟨rfl, rfl⟩
  | pipeclose x w =>
    obtain rfl := hpost
    split_ifs <;> exact ⟨rfl, rfl⟩
  | allocproc c =>
    obtain rfl := hpost
    split_ifs <;> exact ⟨rfl, rfl⟩
  | filealloc =>
    cases a with
    | none =>
      obtain rfl : l' = l := hpost
      exact ⟨rfl, rfl⟩
    | some f =>
      obtain ⟨-, rfl⟩ := hpost
      exact ⟨rfl, rfl⟩
  | fdalloc f =>
    cases a with
    | none =>
      obtain rfl : l' = l := hpost
      exact ⟨rfl, rfl⟩
    | some fd =>
      obtain ⟨-, rfl⟩ := hpost
      exact ⟨rfl, rfl⟩
  | pipeKalloc =>
    cases a with
    | none =>
      obtain rfl : l' = l := hpost
      exact ⟨rfl, rfl⟩
    | some x =>
      obtain rfl := hpost
      exact ⟨rfl, rfl⟩
  | filedrop f =>
    cases a with
    | none =>
      obtain rfl := hpost
      exact ⟨rfl, rfl⟩
    | some ff =>
      obtain ⟨-, rfl⟩ := hpost
      cases ff.type <;> exact ⟨rfl, rfl⟩
  | die =>
    obtain rfl := hpost
    exact ⟨hl.symm, hpre.1.fresh.symm⟩

end Xv6.Fs
