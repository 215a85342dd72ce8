import Xv6.Fs.Procs

/-!
# Every operation keeps the invariant
-/

namespace Xv6.Fs
open Lib

variable {P : Type} [DecidableEq P] [Fintype P] {s s' : State P} {p : P} {ls : P → Share P}

theorem Inv.same (h : Inv s ls) : Inv s (Function.update ls p (ls p)) := by
  rwa [Function.update_eq_self]

theorem Inv.note (h : Inv s ls) (hb : (ls p).busy = true) {tx odd : Bool} :
    Inv s (Function.update ls p { ls p with tx := tx, odd := odd }) :=
  h.share { h.fits p with rest := fun hr => absurd hr (ne_false_of_eq_true hb) } rfl
    (h.pairs.apart hb (fun _ => id) (Finset.Subset.refl _) (Finset.Subset.refl _) fun _ => id)

theorem Inv.dirlookup_post (h : Inv s ls) (hb : (ls p).busy = true) {dp : Slot} {name : Name}
    {r : Option (Slot × ℕ)} (he : s.dirlookup dp name = .ret (r, s')) :
    ∃ l, post (.dirlookup dp name) (ls p) r l ∧ Inv s' (Function.update ls p l) := by
  rcases dirlookup_cases he with ⟨rfl, rfl⟩ | ⟨ip, off, m, rfl, hget⟩
  · exact ⟨_, rfl, h.same⟩
  · obtain ⟨-, hi⟩ := h.iget hb hget
    have hfit := hi.fits p
    rw [Function.update_self] at hfit
    refine ⟨_, rfl, ?_⟩
    unfold Share.find
    split_ifs
    · exact hi
    · exact hi.reshare { hfit with rest := fun hr => absurd hr (ne_false_of_eq_true hb) } rfl hb
        (fun _ => id) (Finset.Subset.refl _) (Finset.Subset.refl _) fun _ => id
    · exact hi.reshare { hfit with rest := fun hr => absurd hr (ne_false_of_eq_true hb) } rfl hb
        (fun _ => id) (Finset.Subset.refl _) (Finset.Subset.refl _) fun _ => id

theorem Inv.filedrop_post (h : Inv s ls) {f : FileId} (hH : 1 ≤ (ls p).has (.file f))
    (hv : (ls p).via = none) {r : Option File} (he : s.filedrop f = .ret (r, s')) :
    ∃ l, post (.filedrop f) (ls p) r l ∧ Inv s' (Function.update ls p l) := by
  unfold State.filedrop at he
  split_ifs at he with h0 h1
  · obtain ⟨rfl, rfl⟩ := Outcome.ret_inj he
    exact ⟨_, rfl, h.filedrop hH hv h1⟩
  · obtain ⟨rfl, rfl⟩ := Outcome.ret_inj he
    refine ⟨_, ⟨fun hf => ((h.fits p).blank f hf).1, rfl⟩, ?_⟩
    have := h.filedropLast hH hv (by omega)
    unfold File.held at this
    cases ht : (s.file f).type <;> rw [ht] at this <;> exact this

theorem Inv.exec (h : Inv s ls) {n : ℕ} {o : Op P} {a : Ans o} (hb : (ls p).busy = true)
    (hpre : pre o (ls p)) (he : exec p n o s = .ret (a, s')) :
    ∃ l, post o (ls p) a l ∧ Inv s' (Function.update ls p l) := by
  have keep {α : Type} {a b : α} (he : Outcome.ret (b, s) = .ret (a, s')) :
      Inv s' (Function.update ls p (ls p)) := by
    obtain ⟨-, rfl⟩ := Outcome.ret_inj he
    exact h.same
  cases o with
  | panic m => cases he
  | beginOp =>
    obtain ⟨-, rfl⟩ := Outcome.ret_inj he
    exact ⟨_, rfl, h.note hb⟩
  | endOp =>
    obtain ⟨-, rfl⟩ := Outcome.ret_inj he
    exact ⟨_, rfl, h.note hb⟩
  | iget inum => exact h.iget_post hb he
  | idup ip =>
    obtain ⟨-, rfl⟩ := Outcome.ret_inj he
    exact ⟨_, rfl, h.addRef hb (h.ref_pos hpre)⟩
  | refOf ip => exact ⟨_, rfl, keep he⟩
  | holdingsleep ip => exact ⟨_, rfl, keep he⟩
  | acquiresleep ip =>
    simp only [Fs.exec] at he
    split_ifs at he with hl
    obtain ⟨-, rfl⟩ := Outcome.ret_inj he
    obtain ⟨h1, h2⟩ := h.acquiresleep hpre.1 hl
    exact ⟨_, ⟨h1, rfl⟩, h2⟩
  | releasesleep ip =>
    obtain ⟨-, rfl⟩ := Outcome.ret_inj he
    exact ⟨_, rfl, h.releasesleep hpre.1 hpre.2⟩
  | load ip => exact ⟨_, rfl, h.load hpre.1 hpre.2 he⟩
  | lastRef ip =>
    obtain ⟨rfl, rfl⟩ := Outcome.ret_inj he
    obtain ⟨h1, h2⟩ := h.lastRef hpre.1 hpre.2.1 fun hl =>
      of_decide_eq_true (Bool.and_eq_true_iff.mp hl).2
    exact ⟨_, ⟨h1, rfl⟩, h2⟩
  | ifree ip =>
    obtain ⟨-, rfl⟩ := Outcome.ret_inj he
    exact ⟨_, rfl, h.ifree hpre.1⟩
  | unref ip =>
    obtain ⟨-, rfl⟩ := Outcome.ret_inj he
    exact ⟨_, rfl, h.unref hpre.1 hpre.2.1 hpre.2.2.2⟩
  | fields ip => exact ⟨_, rfl, keep he⟩
  | inumOf ip => exact ⟨_, rfl, keep he⟩
  | ialloc type => exact ⟨_, rfl, h.ialloc hpre.1 hb hpre.2.2 he⟩
  | setup ip major minor =>
    obtain ⟨-, rfl⟩ := Outcome.ret_inj he
    exact ⟨_, rfl, h.setup hpre.1⟩
  | addLink ip k =>
    obtain ⟨-, rfl⟩ := Outcome.ret_inj he
    exact ⟨_, rfl, (h.update hpre.1 rfl).same⟩
  | dirlookup dp name => exact h.dirlookup_post hb he
  | dirslot dp =>
    obtain ⟨r, -, he⟩ := Outcome.bind_eq_ret.mp he
    exact ⟨_, rfl, keep he⟩
  | isdirempty ip =>
    obtain ⟨r, -, he⟩ := Outcome.bind_eq_ret.mp he
    exact ⟨_, rfl, keep he⟩
  | readData ip off k => exact ⟨_, rfl, keep he⟩
  | writeData ip off src =>
    have hw := h.writeData off src hpre.1
    rw [Outcome.ret.inj he] at hw
    exact ⟨_, rfl, hw.same⟩
  | enterDir dp =>
    obtain ⟨-, rfl⟩ := Outcome.ret_inj he
    exact ⟨_, rfl, h.dir hb⟩
  | leaveDir =>
    obtain ⟨-, rfl⟩ := Outcome.ret_inj he
    exact ⟨_, rfl, h.dir hb⟩
  | console k => exact ⟨_, rfl, keep he⟩
  | pipeio => exact ⟨_, rfl, keep he⟩
  | filealloc =>
    have he : s.filealloc = (a, s') := Outcome.ret.inj he
    unfold State.filealloc at he
    split at he
    · rename_i f hf
      obtain ⟨rfl, rfl⟩ := Prod.mk.inj he
      obtain ⟨h1, h2⟩ := h.filealloc hb (of_decide_eq_true (first_some hf))
      exact ⟨_, ⟨h1, rfl⟩, h2⟩
    · obtain ⟨rfl, rfl⟩ := Prod.mk.inj he
      exact ⟨_, rfl, h.same⟩
  | filedup f =>
    simp only [Fs.exec, State.filedup] at he
    split_ifs at he
    obtain ⟨-, rfl⟩ := Outcome.ret_inj he
    exact ⟨_, rfl, h.filedup hpre.1 hpre.2⟩
  | filedrop f => exact h.filedrop_post hpre.1 hpre.2 he
  | file f =>
    obtain ⟨rfl, rfl⟩ := Outcome.ret_inj he
    refine ⟨_, ⟨fun ip hv => ((h.fits p).via f ip hv).1, rfl⟩, ?_⟩
    split_ifs with ht
    · exact h.viaFile hpre.1 hpre.2 ht
    · exact h.same
  | openInode f ip r w =>
    obtain ⟨-, rfl⟩ := Outcome.ret_inj he
    obtain ⟨h1, h2, h3, h4, h5, h6⟩ := hpre
    exact ⟨_, rfl, h.openInode h1 h2 h3 h4 h5 h6⟩
  | openPipe f x w =>
    obtain ⟨-, rfl⟩ := Outcome.ret_inj he
    exact ⟨_, rfl, h.openPipe hpre.1 hpre.2⟩
  | addOff f k =>
    obtain ⟨-, rfl⟩ := Outcome.ret_inj he
    exact ⟨_, rfl, h.addOff.same⟩
  | pipeKalloc =>
    have he : s.pipeKalloc n = .ret (a, s') := he
    unfold State.pipeKalloc at he
    split_ifs at he with h0 hfree
    · obtain ⟨rfl, rfl⟩ := Outcome.ret_inj he
      exact ⟨_, rfl, h.same⟩
    · obtain ⟨rfl, rfl⟩ := Outcome.ret_inj he
      exact ⟨_, rfl, h.pipeKalloc hb hfree⟩
  | pipeclose x w =>
    have he : s.pipeclose x w = (a, s') := Outcome.ret.inj he
    have hi := h.pipeclose hpre
    rw [he] at hi
    exact ⟨_, rfl, hi⟩
  | kfree x =>
    obtain ⟨-, rfl⟩ := Outcome.ret_inj he
    exact ⟨_, rfl, h.kfree hpre⟩
  | ofile fd =>
    obtain ⟨rfl, rfl⟩ := Outcome.ret_inj he
    exact ⟨_, ⟨by rw [((h.fits p).own hb).1], rfl⟩, h.same⟩
  | setOfile fd f =>
    obtain ⟨-, rfl⟩ := Outcome.ret_inj he
    obtain rfl : f = none := hpre
    exact ⟨_, rfl, h.reown hb rfl⟩
  | fdalloc f =>
    have he : s.fdalloc p f = (a, s') := Outcome.ret.inj he
    unfold State.fdalloc at he
    split at he
    · rename_i fd hf
      obtain ⟨rfl, rfl⟩ := Prod.mk.inj he
      refine ⟨_, ⟨?_, rfl⟩, h.reown hb rfl⟩
      rw [((h.fits p).own hb).1]
      exact Option.isNone_iff_eq_none.mp (first_some hf)
    · obtain ⟨rfl, rfl⟩ := Prod.mk.inj he
      exact ⟨_, rfl, h.same⟩
  | cwd =>
    simp only [Fs.exec] at he
    split at he
    · rename_i ip hc
      obtain ⟨rfl, rfl⟩ := Outcome.ret_inj he
      exact ⟨_, ⟨by rw [((h.fits p).own hb).1]; exact hc, rfl⟩, h.same⟩
    · cases he
  | setCwd ip =>
    obtain ⟨-, rfl⟩ := Outcome.ret_inj he
    exact ⟨_, rfl, h.reown hb rfl⟩
  | allocproc c =>
    simp only [Fs.exec] at he
    split_ifs at he with hc
    · obtain ⟨rfl, rfl⟩ := Outcome.ret_inj he
      exact ⟨_, rfl, h.same⟩
    · obtain ⟨rfl, rfl⟩ := Outcome.ret_inj he
      simp only [not_or, not_not] at hc
      exact ⟨_, rfl, h.allocproc hb hc.2⟩
  | childFile c fd f =>
    obtain ⟨-, rfl⟩ := Outcome.ret_inj he
    obtain ⟨h1, h2, h3, h4, h5⟩ := hpre
    exact ⟨_, rfl, h.childFile h1 h2 h3 h4 h5⟩
  | childCwd c ip =>
    obtain ⟨-, rfl⟩ := Outcome.ret_inj he
    obtain ⟨h1, h2, h3, h4, h5, h6⟩ := hpre
    exact ⟨_, rfl, h.childCwd h1 h2 h3 h4 h5 h6⟩
  | spawn c =>
    obtain ⟨-, rfl⟩ := Outcome.ret_inj he
    exact ⟨_, rfl, h.spawn hpre⟩
  | die =>
    obtain ⟨-, rfl⟩ := Outcome.ret_inj he
    exact ⟨_, rfl, h.die hb hpre.1 hpre.2.1 hpre.2.2⟩

end Xv6.Fs
