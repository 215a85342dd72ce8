import Xv6.Sys.Args
import Xv6.Sys.Reap

/-!
# A process gets a new image

`exec` builds the new directory out of free pages and gives the old one back. It keeps the
invariant if it looks no argument up in a missing page table.
-/

namespace Xv6.Sys
open Lib Vm

variable {L : Link} {k k' : Kernel} {free free' free₁ free₂ : List ℕ} {p d g sz : ℕ}
  {s' s₁ s₂ : Kmem} {ip : Inode} {argv : List (List UInt8)}

theorem Inv.caller (h : Inv L k free) (hp : p < NPROC) (hsp : hasSpace (k.proc p)) :
    ∃ g, Caller L k free p g ∧ dirOf k (.proc p) = some g := by
  obtain ⟨g, -, hpg, hdir, -⟩ := h.dir hp hsp
  obtain ⟨f, hkstack⟩ := h.kstack p hp hsp
  exact ⟨g, ⟨hpg, by rw [hkstack]; exact kva_ne_zero f, h.sound.wf (o := .proc p) hdir,
    h.sound.kern (.proc p) g hdir⟩, hdir⟩

theorem Inv.untouched (h : Inv L k free) (hsp : hasSpace (k.proc p))
    (hs : Untouched L k.kmem free s') :
    ∃ free', Inv L { k with kmem := s' } free' ∧ Along p Space.Exec k { k with kmem := s' } := by
  obtain ⟨free', hpool, hiff, hm⟩ := hs
  obtain ⟨hinv, hkeeps⟩ := h.lose hpool (fun q hq => (hiff q).1 hq) hm
  refine ⟨free', hinv, fun j hj hspj => ?_⟩
  have hold := (hkeeps.proc j).hasSpace.1 hspj
  refine ⟨hold, fun _ => hkeeps.space hj hold, ?_⟩
  rintro rfl
  rw [hkeeps.space hj hsp]
  exact .failed

theorem Sound.swap (h : Sound L k.kmem (ledger k free)) (hg : dirOf k (.proc p) = some g)
    (hf : Fresh L k.kmem free d s₁ free₁) (hpool : Pool L s₂ free₂)
    (hback : ∀ q, q ∈ free₂ ↔ q ∈ free₁ ∨ Own s₁.mem g q)
    (hm : ∀ q, q ∉ free₁ → ¬Own s₁.mem g q → s₂.mem q = s₁.mem q) :
    Sound L s₂ { ledger k free with
      free := free₂, dir := Function.update (dirOf k) (.proc p) (some d) } := by
  have hnew := h.attach (o := .fresh) hf.wf hf.kern (fun q hq => (hf.conserve q).1 hq) hf.other
  have hne : Owner.proc p ≠ .fresh := by simp
  have hwas : Function.update (dirOf k) .fresh (some d) (.proc p) = some g :=
    (Function.update_of_ne hne _ _).trans hg
  have hgone := hnew.detach (o := .proc p) hwas hpool (fun q hq => (hback q).1 hq) hm
  have hfresh : Function.update (Function.update (dirOf k) .fresh (some d)) (.proc p) none .fresh =
      some d := (Function.update_of_ne hne.symm _ _).trans (Function.update_self _ _ _)
  refine hgone.rename (o := .fresh) hne hfresh fun q => ?_
  by_cases hp : q = .proc p
  · rw [if_pos hp, hp, Function.update_self]
  rw [if_neg hp, Function.update_of_ne hp]
  by_cases hq : q = .fresh
  · rw [if_pos hq, hq]
    rfl
  · simp only [if_neg hq, Function.update_of_ne hp, Function.update_of_ne hq]
    rfl

theorem Inv.committed (h : Inv L k free) (entry esp : ℕ) (hp : p < NPROC)
    (hsp : hasSpace (k.proc p)) {P : ℕ}
    (hready : Ready L k.kmem free d P s₁ free₁) (hc : Caller L k free p g)
    (hdir : dirOf k (.proc p) = some g) (hsz : sz = 4096 * P) :
    ∃ s₂ free₂, freevm L (kva g) s₁ = .ret ((), s₂) ∧
      Inv L (committed k p (kva d) sz entry esp s₂) free₂ ∧
      Along p Space.Exec k (Sys.committed k p (kva d) sz entry esp s₂) := by
  have hf := hready.fresh
  have hroom := hready.room
  have hU : UPAGES = 524288 := rfl
  have hK : KERNBASE = 4096 * UPAGES := rfl
  obtain ⟨hw, hown⟩ := hf.other_wf hc.wf
  obtain ⟨s₂, free₂, hrun, hpool, hback, hother⟩ := freevm_spec hw
  refine ⟨s₂, free₂, hrun, ?_⟩
  have hs : SlotOnly p k (Sys.committed k p (kva d) sz entry esp s₂) :=
    ⟨(SlotOnly.setProc _).proc, rfl, rfl, rfl⟩
  have hproc : (Sys.committed k p (kva d) sz entry esp s₂).proc p = _ := Function.update_self _ _ _
  have hx : hasSpace ((Sys.committed k p (kva d) sz entry esp s₂).proc p) := by
    rw [hproc]
    exact hsp
  have hdp : V2P ((Sys.committed k p (kva d) sz entry esp s₂).proc p).pgdir / PGSIZE = d := by
    rw [hproc]
    exact V2P_kva_div hf.wf.dir_lt
  have hbeyond : Beyond p k (Sys.committed k p (kva d) sz entry esp s₂) := by
    refine .of_sound hs h fun q hq _ ho => ?_
    refine (hother q (fun hin => hq ((hf.conserve q).1 (Or.inl hin))) fun ho' => ?_).trans
      (hf.other q hq)
    exact ho g hdir ((hown q).1 ho')
  refine ⟨hs.inv h ?_ (h.pipes.congr rfl rfl) ?_, fun j hj hspj => ?_⟩
  · have hdirs := hs.dirOf_eq
    rw [dirOf_proc hp hx, hdp] at hdirs
    have hwhole : wholeOf (Sys.committed k p (kva d) sz entry esp s₂) = wholeOf k := by
      funext y q
      refine propext ?_
      by_cases hy : y = .kstack p
      · rw [hy]
        simp only [wholeOf, hproc]
      · exact hs.wholeOf_iff hy q
    rw [ledger, hdirs, hwhole]
    exact h.sound.swap hdir hf hpool hback hother
  · rw [hproc]
    exact ⟨fun _ => ⟨d, hf.wf.dir_lt, rfl⟩, fun _ => h.kstack p hp hsp,
      fun hu => absurd hu hsp.1, fun _ => by simp only; omega⟩
  · have hpages : pages sz = P := by
      simp only [pages, hsz]
      omega
    have hpte : ∀ v < 2 ^ 20, pte s₂.mem d v = pte s₁.mem d v := by
      refine (hf.wf.tree.keep fun q hq => hother q (fun hin => hf.wf.apart q hin hq.own) fun ho => ?_).2.1
      exact hc.wf.apart q ((hf.conserve q).1 (Or.inr hq.own)) ((hown q).1 ho)
    have hspace : spaceOf (Sys.committed k p (kva d) sz entry esp s₂) p =
        ⟨sz, 1, {v | v < pages sz} ∪ {UPAGES - 1}⟩ := by
      refine spaceOf_ext (by rw [hproc]) (by rw [hproc]) hdp (Set.ext fun v => ?_)
      simp only [Set.mem_ofPred_eq, Set.mem_union, Set.mem_singleton_iff, hpages]
      constructor
      · rintro ⟨hv, hpres⟩
        have hv' := hv.trans UPAGES_lt
        rw [Sys.committed, hpte v hv'] at hpres
        exact (hready.good v hv').1 ⟨hpres, hf.wf.tree.user v hv hpres⟩
      · intro hor
        have hv : v < UPAGES := by omega
        rw [Sys.committed, hpte v (hv.trans UPAGES_lt)]
        exact ⟨hv, ((hready.good v (hv.trans UPAGES_lt)).2 hor).1⟩
    by_cases hjp : j = p
    · subst hjp
      refine ⟨hsp, fun hne => absurd rfl hne, fun _ => ?_⟩
      rw [hspace]
      exact .done (by omega)
    · have hold := (hs.proc j hjp).hasSpace.1 hspj
      exact ⟨hold, fun _ => hbeyond.space hj hjp hold, fun heq => absurd heq hjp⟩

theorem exec_spec (h : Inv L k free) (hp : p < NPROC) (hsp : hasSpace (k.proc p))
    (hsize : ip.size < 2 ^ 32) (hstr : ∀ str ∈ argv, str.length < PHYSTOP)
    (htab : ArgsTabled (pages (top (segments ip))) STACK_TOP (argv.take MAXARG)) {r : ℤ}
    (hrun : exec L p ip argv k = .ret (r, k')) :
    ∃ free', Inv L k' free' ∧ Along p Space.Exec k k' ∧ k'.initproc = k.initproc ∧
      ∀ j, (k'.proc j).killed = (k.proc j).killed := by
  obtain ⟨g, hc, hdir⟩ := h.caller hp hsp
  obtain ⟨o, s₁, hload, hnone, hsome⟩ := loadImage_spec hc.wf.pool hsize
  rw [exec_eq, Prog.bind_of_ret (onMem_of_ret hload)] at hrun
  match o with
  | none =>
    cases Prog.pure_ret hrun
    obtain ⟨free', hinv, halong⟩ := h.untouched hsp (hnone rfl)
    exact ⟨free', hinv, halong, rfl, fun _ => rfl⟩
  | some (pgdir, sz) =>
    obtain ⟨d, free₁, rfl, himage⟩ := hsome pgdir sz rfl
    obtain ⟨o, m, hpush, hready, -⟩ := pushAll_spec (k := { k with kmem := s₁ }) hc.wf hc.kern
      hc.pgdir himage.ready hstr htab
    simp only at hrun
    rw [execArgs_eq, Prog.bind_of_ret hpush] at hrun
    cases o with
    | none =>
      obtain ⟨s₂, hbad, huntouched⟩ :=
        execBad_spec (k := { k with kmem := { s₁ with mem := m } }) hready
      obtain ⟨-, rfl⟩ := Outcome.ret_inj (hbad.symm.trans hrun)
      obtain ⟨free', hinv, halong⟩ := h.untouched hsp huntouched
      exact ⟨free', hinv, halong, rfl, fun _ => rfl⟩
    | some esp =>
      obtain ⟨s₂, free₂, hfree, hinv, halong⟩ :=
        h.committed (elfhdr ip).entry esp hp hsp hready hc hdir himage.size
      have hcommit := execCommit_eq (k := { k with kmem := { s₁ with mem := m } }) (d := d) hc.pgdir
        hc.kstack hfree sz (elfhdr ip).entry esp
      obtain ⟨-, rfl⟩ := Outcome.ret_inj (hcommit.symm.trans hrun)
      refine ⟨free₂, hinv, halong, rfl, fun j => ?_⟩
      by_cases hjp : j = p
      · subst hjp
        simp [Sys.committed]
      · simp [Sys.committed, hjp]

end Xv6.Sys
