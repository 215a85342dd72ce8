import Xv6.Sys.Fork

/-!
# A process goes

`exit` closes the files and leaves the memory to the parent, `wait` gives the memory of a zombie
back. The page-fault case of `trap` lets a killed process exit.
-/

namespace Xv6.Sys
open Lib Vm

variable {L : Link} {k k' k'' : Kernel} {free free' : List ℕ} {i j p d f : ℕ} {s' : Kmem}
  {R : Space → Space → Prop}

section Spaces

def OldSpaces (k k' : Kernel) : Prop :=
  ∀ j < NPROC, hasSpace (k'.proc j) → hasSpace (k.proc j) ∧ spaceOf k' j = spaceOf k j

def Along (p : ℕ) (R : Space → Space → Prop) (k k' : Kernel) : Prop :=
  ∀ j < NPROC, hasSpace (k'.proc j) → hasSpace (k.proc j) ∧
    (j ≠ p → spaceOf k' j = spaceOf k j) ∧ (j = p → R (spaceOf k p) (spaceOf k' p))

theorem Keeps.oldSpaces (h : Keeps k k') : OldSpaces k k' := fun j hj hsp =>
  have hold := (h.proc j).hasSpace.1 hsp
  ⟨hold, h.space hj hold⟩

theorem OldSpaces.trans (h : OldSpaces k k') (h' : OldSpaces k' k'') : OldSpaces k k'' := by
  intro j hj hsp
  obtain ⟨h₁, heq₁⟩ := h' j hj hsp
  obtain ⟨h₀, heq₀⟩ := h j hj h₁
  exact ⟨h₀, heq₁.trans heq₀⟩

theorem Along.old (h : Along p R k k') (h' : OldSpaces k' k'') : Along p R k k'' := by
  intro j hj hsp
  obtain ⟨h₁, heq⟩ := h' j hj hsp
  obtain ⟨h₀, hother, hself⟩ := h j hj h₁
  refine ⟨h₀, fun hjp => heq.trans (hother hjp), ?_⟩
  rintro rfl
  rw [heq]
  exact hself rfl

theorem Others.along (h : Others p k k') (hsp : hasSpace (k.proc p))
    (hR : R (spaceOf k p) (spaceOf k' p)) : Along p R k k' := by
  intro j hj hspj
  by_cases hjp : j = p
  · subst hjp
    exact ⟨hsp, fun hne => absurd rfl hne, fun _ => hR⟩
  · have hold : hasSpace (k.proc j) := by
      have := h.state j hjp
      exact ⟨this ▸ hspj.1, this ▸ hspj.2⟩
    exact ⟨hold, fun _ => h.space j hj hjp hold, fun heq => absurd heq hjp⟩

end Spaces

section Exit

theorem reparent_safe (p : ℕ) : Safe L (reparent p) := by
  intro k free u k' h hrun
  cases Prog.modify_ret hrun
  have hk : Keeps k { k with proc := fun i =>
      if i < NPROC ∧ (k.proc i).parent = some p then
        { k.proc i with parent := some k.initproc } else k.proc i } := by
    refine ⟨fun j => ?_, fun _ _ _ _ _ => rfl, rfl, rfl, rfl⟩
    simp only
    split_ifs
    · exact ⟨rfl, rfl, rfl, rfl, rfl⟩
    · exact .refl _
  exact ⟨free, hk.inv h (hk.sound h rfl fun _ => Iff.rfl) (h.pipes.congr rfl rfl), hk⟩

theorem Inv.zombie (h : Inv L k free) (hp : p < NPROC) (hsp : hasSpace (k.proc p)) :
    Inv L { k with proc := Function.update k.proc p { k.proc p with state := .zombie } } free ∧
      OldSpaces k { k with proc := Function.update k.proc p { k.proc p with state := .zombie } } := by
  have hs : SlotOnly p k
      { k with proc := Function.update k.proc p { k.proc p with state := .zombie } } := .setProc _
  have hz : hasSpace { k.proc p with state := .zombie } := ⟨State.noConfusion, State.noConfusion⟩
  have hledger : ledger { k with
      proc := Function.update k.proc p { k.proc p with state := .zombie } } free = ledger k free :=
    ledger_update (iff_of_true hz hsp) rfl rfl
  have hproc : Function.update k.proc p { k.proc p with state := .zombie } p = _ :=
    Function.update_self _ _ _
  refine ⟨hs.inv h ?_ (h.pipes.congr rfl rfl) ?_, fun j hj hspj => ?_⟩
  · rw [hledger]
    exact h.sound
  · simp only [hproc]
    exact ⟨fun _ => h.pgdir p hp hsp, fun _ => h.kstack p hp hsp,
      fun hu => State.noConfusion hu, fun _ => h.sz p hp hsp⟩
  · by_cases hjp : j = p
    · subst hjp
      exact ⟨hsp, by simp [spaceOf]⟩
    · have hold := (hs.proc j hjp).hasSpace.1 hspj
      exact ⟨hold, spaceOf_eq (hs.proc j hjp) fun _ _ => rfl⟩

theorem exit_spec (h : Inv L k free) (hp : p < NPROC) (hsp : hasSpace (k.proc p)) {u : Unit}
    (hrun : exit L p k = .ret (u, k')) :
    ∃ free', Inv L k' free' ∧ OldSpaces k k' ∧ k'.initproc = k.initproc := by
  replace hrun := Prog.get_bind_ret hrun
  split_ifs at hrun with hinit
  · cases hrun
  obtain ⟨_, k₁, hclose, hrun⟩ := Prog.bind_ret hrun
  obtain ⟨free₁, h₁, hk₁⟩ := closeFiles_safe p _ h hclose
  obtain ⟨_, k₂, hpar, hrun⟩ := Prog.bind_ret hrun
  obtain ⟨free₂, h₂, hk₂⟩ := reparent_safe p h₁ hpar
  cases Prog.modify_ret hrun
  have hkeeps := hk₁.trans hk₂
  obtain ⟨h₃, hold⟩ := h₂.zombie hp ((hkeeps.proc p).hasSpace.2 hsp)
  exact ⟨free₂, h₃, hkeeps.oldSpaces.trans hold, hkeeps.initproc⟩

end Exit

section Wait

def reaped (k : Kernel) (i : ℕ) (s : Kmem) : Kernel :=
  { k with
    kmem := s
    proc := Function.update k.proc i
      { k.proc i with kstack := 0, pid := 0, parent := none, killed := false, state := .unused } }

theorem wait_cases {r : Option ℤ} (hrun : wait L p k = .ret (r, k')) :
    k' = k ∨ ∃ i < NPROC, (k.proc i).state = .zombie ∧ ∃ s s',
      kfree L (k.proc i).kstack k.kmem = .ret ((), s) ∧
      freevm L (k.proc i).pgdir s = .ret ((), s') ∧ k' = reaped k i s' := by
  replace hrun := Prog.get_bind_ret hrun
  cases hfind : (List.range NPROC).find? fun i =>
      decide ((k.proc i).parent = some p ∧ (k.proc i).state = .zombie) with
  | none =>
    simp only [hfind] at hrun
    refine Or.inl ?_
    split_ifs at hrun
    · exact (Prod.mk.inj (Prog.pure_ret hrun)).2
    · exact (Prod.mk.inj (Prog.pure_ret hrun)).2
  | some i =>
    simp only [hfind] at hrun
    have hi : i < NPROC := List.mem_range.1 (List.mem_of_find?_eq_some hfind)
    have hz : (k.proc i).parent = some p ∧ (k.proc i).state = .zombie := by
      simpa using List.find?_some hfind
    refine Or.inr ⟨i, hi, hz.2, ?_⟩
    obtain ⟨_, s, hfree, hrun⟩ := onMem_bind_ret hrun
    replace hrun := Prog.modify_bind_ret hrun
    obtain ⟨_, s', hvm, hrun⟩ := onMem_bind_ret hrun
    replace hrun := Prog.modify_bind_ret hrun
    cases Prog.pure_ret hrun
    refine ⟨s, s', hfree, hvm, ?_⟩
    simp [reaped]

theorem Inv.reaped (h : Inv L k free) (hi : i < NPROC) (hz : (k.proc i).state = .zombie) {s : Kmem}
    (hfree : kfree L (k.proc i).kstack k.kmem = .ret ((), s))
    (hvm : freevm L (k.proc i).pgdir s = .ret ((), s')) :
    ∃ free', Inv L (reaped k i s') free' ∧ Beyond i k (Sys.reaped k i s') := by
  have hsp : hasSpace (k.proc i) := ⟨by rw [hz]; exact State.noConfusion,
    by rw [hz]; exact State.noConfusion⟩
  obtain ⟨f, hkstack⟩ := h.kstack i hi hsp
  obtain ⟨d, -, hpg, hdir, -⟩ := h.dir hi hsp
  have hs : SlotOnly i k (Sys.reaped k i s') := ⟨(SlotOnly.setProc _).proc, rfl, rfl, rfl⟩
  have hproc : (Sys.reaped k i s').proc i = _ := Function.update_self _ _ _
  rw [hkstack] at hfree
  obtain ⟨hsound, hwas, hmem⟩ := h.stackFreed hs hi hkstack (by rw [hproc]) hfree
  have hown : ∀ q, Own s.mem d q → Own k.kmem.mem d q := fun q ⟨u, hu⟩ =>
    ⟨u, (h.sound.pte_eq (o := .proc i) hdir (Or.inr ⟨_, hwas⟩) hmem).1 u q hu⟩
  obtain ⟨s₁, free₁, hrun, hpool, hback, hother⟩ := freevm_spec (hsound.wf (o := .proc i) hdir)
  rw [hpg] at hvm
  obtain ⟨-, rfl⟩ := Outcome.ret_inj (hrun.symm.trans hvm)
  have hunused : ((Sys.reaped k i s₁).proc i).state = .unused := by rw [hproc]
  refine ⟨free₁, hs.inv h ?_ (h.pipes.congr rfl rfl) (.unused hunused (by rw [hproc])),
    .of_sound hs h fun q hq hwhole ho => ?_⟩
  · have hd := hs.dirOf_eq
    rw [no_dir (Or.inl hunused)] at hd
    rw [ledger, hd]
    exact hsound.detach (o := .proc i) hdir hpool (fun q hq => (hback q).1 hq) hother
  · have hqf : q ≠ f := by
      rintro rfl
      exact hwhole (.kstack i) hwas
    refine (hother q ?_ fun hq' => ho d hdir (hown q hq')).trans (hmem q hqf)
    rw [List.mem_cons, not_or]
    exact ⟨hqf, hq⟩

theorem wait_spec (h : Inv L k free) {r : Option ℤ} (hrun : wait L p k = .ret (r, k')) :
    ∃ free', Inv L k' free' ∧ OldSpaces k k' ∧ k'.initproc = k.initproc := by
  rcases wait_cases hrun with rfl | ⟨i, hi, hz, s, s', hfree, hvm, rfl⟩
  · exact ⟨free, h, fun _ _ hsp => ⟨hsp, rfl⟩, rfl⟩
  · obtain ⟨free', hinv, hbeyond⟩ := h.reaped hi hz hfree hvm
    refine ⟨free', hinv, fun j hj hsp => ?_, rfl⟩
    by_cases hji : j = i
    · subst hji
      simp only [Sys.reaped, Function.update_self] at hsp
      exact absurd rfl hsp.1
    · have hold := (hbeyond.slot.proc j hji).hasSpace.1 hsp
      exact ⟨hold, hbeyond.space hj hji hold⟩

end Wait

section Trap

theorem trap_spec (h : Inv L k free) (hp : p < NPROC) (hsp : hasSpace (k.proc p)) {addr : ℕ}
    {u : Unit} (hrun : trap L p addr k = .ret (u, k')) :
    ∃ free', Inv L k' free' ∧ Along p (Space.Fault addr) k k' ∧ k'.initproc = k.initproc := by
  obtain ⟨_, k₁, hfault, hrun⟩ := Prog.bind_ret hrun
  obtain ⟨⟨⟨free₁, h₁⟩, hothers, hstate⟩, hspace⟩ := pgflt_spec h hp hsp hfault
  have halong := hothers.along hsp hspace
  replace hrun := Prog.get_bind_ret hrun
  split_ifs at hrun with hkilled
  · obtain ⟨free', h', hold, hinit⟩ := exit_spec h₁ hp ⟨hstate ▸ hsp.1, hstate ▸ hsp.2⟩ hrun
    exact ⟨free', h', halong.old hold, hinit.trans hothers.initproc⟩
  · cases Prog.pure_ret hrun
    exact ⟨free₁, h₁, halong, hothers.initproc⟩

end Trap

end Xv6.Sys
