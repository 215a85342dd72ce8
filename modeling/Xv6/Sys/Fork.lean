import Xv6.Sys.Memory

/-!
# A process comes in

`allocproc` gives a slot a kernel stack, `fork` and `userinit` give it a directory and let it
run. The directory of a slot counts from the moment the slot is no longer `EMBRYO`; until then its
pages have left the free list for no role at all.
-/

namespace Xv6.Sys
open Lib Vm

variable {L : Link} {k k' k'' : Kernel} {free free' : List ℕ} {i j p d f : ℕ} {s' : Kmem}

section Slot

structure SlotOnly (i : ℕ) (k k' : Kernel) : Prop where
  proc : ∀ j, j ≠ i → SameSpace (k.proc j) (k'.proc j)
  kpgdir : k'.kpgdir = k.kpgdir
  apstacks : k'.apstacks = k.apstacks
  pipe : k'.pipe = k.pipe

structure SlotOk (x : Proc) : Prop where
  pgdir : hasSpace x → ∃ d < 2 ^ 19, x.pgdir = kva d
  kstack : hasSpace x → ∃ f, x.kstack = kva f
  idle : x.state = .unused → x.kstack = 0
  sz : hasSpace x → x.sz ≤ KERNBASE

namespace SlotOnly

theorem trans (h : SlotOnly i k k') (h' : SlotOnly i k' k'') : SlotOnly i k k'' where
  proc j hj := (h.proc j hj).trans (h'.proc j hj)
  kpgdir := h'.kpgdir.trans h.kpgdir
  apstacks := h'.apstacks.trans h.apstacks
  pipe := h'.pipe.trans h.pipe

theorem setProc (x : Proc) : SlotOnly i k { k with proc := Function.update k.proc i x } where
  proc j hj := by
    simp only [Function.update_of_ne hj]
    exact .refl _
  kpgdir := rfl
  apstacks := rfl
  pipe := rfl

theorem dirOf_eq (h : SlotOnly i k k') :
    dirOf k' = Function.update (dirOf k) (.proc i) (dirOf k' (.proc i)) := by
  funext o
  by_cases ho : o = .proc i
  · rw [ho, Function.update_self]
  rw [Function.update_of_ne ho]
  cases o with
  | kernel => simp [dirOf, h.kpgdir]
  | proc j =>
    have hj : j ≠ i := fun heq => ho (by rw [heq])
    simp [dirOf, (h.proc j hj).hasSpace, (h.proc j hj).pgdir]
  | fresh => rfl

theorem wholeOf_iff (h : SlotOnly i k k') {x : Whole} (hx : x ≠ .kstack i) (q : ℕ) :
    wholeOf k' x q ↔ wholeOf k x q := by
  cases x with
  | apstack n => simp [wholeOf, h.apstacks]
  | kstack j =>
    have hj : j ≠ i := fun heq => hx (by rw [heq])
    simp [wholeOf, (h.proc j hj).kstack]
  | pipe => simp [wholeOf, h.pipe]

theorem inv (hs : SlotOnly i k k') (h : Inv L k free) (hsound : Sound L k'.kmem (ledger k' free'))
    (hpipes : Pipes k') (hslot : SlotOk (k'.proc i)) : Inv L k' free' := by
  have hok : ∀ j < NPROC, SlotOk (k'.proc j) := by
    intro j hj
    by_cases hji : j = i
    · rw [hji]
      exact hslot
    have hsame := hs.proc j hji
    refine ⟨fun hsp => ?_, fun hsp => ?_, fun hu => ?_, fun hsp => ?_⟩
    · rw [hsame.pgdir]
      exact h.pgdir j hj (hsame.hasSpace.1 hsp)
    · rw [hsame.kstack]
      exact h.kstack j hj (hsame.hasSpace.1 hsp)
    · rw [hsame.kstack]
      exact h.idle j hj (hsame.state.symm.trans hu)
    · rw [hsame.sz]
      exact h.sz j hj (hsame.hasSpace.1 hsp)
  exact ⟨hsound, fun j hj => (hok j hj).pgdir, fun j hj => (hok j hj).kstack,
    fun j hj => (hok j hj).idle, fun j hj => (hok j hj).sz, hpipes⟩

end SlotOnly

structure Beyond (i : ℕ) (k k' : Kernel) : Prop where
  slot : SlotOnly i k k'
  pte : ∀ j < NPROC, j ≠ i → hasSpace (k.proc j) → ∀ v < 2 ^ 20,
    pte k'.kmem.mem (V2P (k.proc j).pgdir / PGSIZE) v =
      pte k.kmem.mem (V2P (k.proc j).pgdir / PGSIZE) v

namespace Beyond

theorem space (h : Beyond i k k') (hj : j < NPROC) (hji : j ≠ i) (hs : hasSpace (k.proc j)) :
    spaceOf k' j = spaceOf k j :=
  spaceOf_eq (h.slot.proc j hji) (h.pte j hj hji hs)

theorem trans (h : Beyond i k k') (h' : Beyond i k' k'') : Beyond i k k'' where
  slot := h.slot.trans h'.slot
  pte j hj hji hs v hv := by
    have hsame := h.slot.proc j hji
    rw [← h.pte j hj hji hs v hv, ← hsame.pgdir]
    exact h'.pte j hj hji (hsame.hasSpace.2 hs) v hv

theorem of_mem (h : SlotOnly i k k') (hm : k'.kmem.mem = k.kmem.mem) : Beyond i k k' :=
  ⟨h, fun j _ _ _ v _ => by rw [hm]⟩

theorem of_sound (hs : SlotOnly i k k') (h : Inv L k free)
    (hm : ∀ q, q ∉ free → (∀ x, ¬wholeOf k x q) →
      (∀ d, dirOf k (.proc i) = some d → ¬Own k.kmem.mem d q) → k'.kmem.mem q = k.kmem.mem q) :
    Beyond i k k' := by
  refine ⟨hs, fun j hj hji hsp => ?_⟩
  have hdj := dirOf_proc hj hsp
  refine (h.sound.keep (o := .proc j) hdj fun q hq => hm q ?_ (fun x hx => ?_) fun d hd => ?_).2
  · exact h.sound.apart (o := .proc j) hdj hq.own
  · exact h.sound.whole_not_own hx (o := .proc j) hdj hq.own
  · exact h.sound.own_disjoint (o := .proc j) (q := .proc i) hdj hd (by simp [hji]) hq.own

end Beyond

theorem Pipes.congr (h : Pipes k) (hpipe : k'.pipe = k.pipe) (hfile : k'.file = k.file) :
    Pipes k' := by
  refine ⟨?_, ?_, ?_, ?_⟩
  · rw [hfile]
    exact h.unused
  · rw [hfile]
    exact h.page
  · rw [hfile, hpipe]
    exact h.opened
  · rw [hfile]
    exact h.ends

end Slot

section Allocproc

theorem no_dir (hu : (k.proc i).state = .unused ∨ (k.proc i).state = .embryo) :
    dirOf k (.proc i) = none := by
  have hno : ¬(i < NPROC ∧ hasSpace (k.proc i)) := by
    rintro ⟨-, h1, h2⟩
    exact hu.elim h1 h2
  exact if_neg hno

def slotTaken (k : Kernel) (i : ℕ) (s : Kmem) (state : State) (kstack : ℕ) : Kernel :=
  { k with
    kmem := s
    nextpid := k.nextpid + 1
    proc := Function.update k.proc i
      { k.proc i with state := state, pid := k.nextpid, kstack := kstack } }

theorem allocproc_cases {r : Option ℕ} (hrun : allocproc k = .ret (r, k')) :
    (r = none ∧ k' = k ∧ ∀ i < NPROC, (k.proc i).state ≠ .unused) ∨
      ∃ i < NPROC, (k.proc i).state = .unused ∧ ∃ kstack s,
      kalloc k.kmem = .ret (kstack, s) ∧
      ((kstack = 0 ∧ r = none ∧ k' = slotTaken k i s .unused 0) ∨
        (kstack ≠ 0 ∧ r = some i ∧ k' = slotTaken k i s .embryo kstack)) := by
  unfold allocproc at hrun
  rw [Prog.get_bind] at hrun
  cases hfind : (List.range NPROC).find? fun i => decide ((k.proc i).state = .unused) with
  | none =>
    rw [hfind] at hrun
    cases Prog.pure_ret hrun
    refine Or.inl ⟨rfl, rfl, fun i hi hu => ?_⟩
    exact List.find?_eq_none.1 hfind i (List.mem_range.2 hi) (decide_eq_true hu)
  | some i =>
    rw [hfind] at hrun
    have hi : i < NPROC := List.mem_range.1 (List.mem_of_find?_eq_some hfind)
    have hu : (k.proc i).state = .unused := by simpa using List.find?_some hfind
    refine Or.inr ⟨i, hi, hu, ?_⟩
    replace hrun := Prog.modify_bind_ret hrun
    replace hrun := Prog.modify_bind_ret hrun
    obtain ⟨kstack, s, halloc, hrun⟩ := onMem_bind_ret hrun
    replace hrun := Prog.modify_bind_ret hrun
    refine ⟨kstack, s, halloc, ?_⟩
    by_cases hz : kstack = 0
    · rw [if_pos hz] at hrun
      replace hrun := Prog.modify_bind_ret hrun
      cases Prog.pure_ret hrun
      refine Or.inl ⟨hz, rfl, ?_⟩
      simp [slotTaken, hz]
    · rw [if_neg hz] at hrun
      cases Prog.pure_ret hrun
      refine Or.inr ⟨hz, rfl, ?_⟩
      simp [slotTaken]

theorem allocproc_none (h : Inv L k free) (hrun : allocproc k = .ret (none, k')) :
    Inv L k' free ∧ Keeps k k' := by
  rcases allocproc_cases hrun with ⟨-, rfl, -⟩ | ⟨i, hi, hu, kstack, s, halloc, hcase⟩
  · exact ⟨h, .refl _⟩
  rcases hcase with ⟨rfl, -, rfl⟩ | ⟨-, hsome, -⟩
  · obtain rfl : s = k.kmem := by
      cases free with
      | nil =>
        have := halloc.symm.trans h.sound.pool.kalloc_nil
        exact (Outcome.ret_inj this).2
      | cons f free =>
        have := halloc.symm.trans h.sound.pool.kalloc_cons
        exact absurd (Outcome.ret_inj this).1.symm (kva_ne_zero f)
    have hk : Keeps k (slotTaken k i k.kmem .unused 0) := by
      refine ⟨fun j => ?_, fun _ _ _ _ _ => rfl, rfl, rfl, rfl⟩
      by_cases hji : j = i
      · subst hji
        simp only [slotTaken, Function.update_self]
        exact ⟨hu.symm, rfl, (h.idle j hi hu).symm, rfl, rfl⟩
      · simp only [slotTaken, Function.update_of_ne hji]
        exact .refl _
    exact ⟨hk.inv h (hk.sound h rfl fun _ => Iff.rfl) (h.pipes.congr rfl rfl), hk⟩
  · cases hsome

structure Embryo (L : Link) (k : Kernel) (i f : ℕ) (free : List ℕ) (k' : Kernel) : Prop where
  lt : i < NPROC
  unused : (k.proc i).state = .unused
  eq : k' = slotTaken k i { k.kmem with freelist := k.kmem.mem.word f 0 } .embryo (kva f)
  inv : Inv L k' free

theorem allocproc_some (h : Inv L k free) (hrun : allocproc k = .ret (some i, k')) :
    ∃ f free', free = f :: free' ∧ Embryo L k i f free' k' := by
  rcases allocproc_cases hrun with ⟨hnone, -⟩ | ⟨j, hi, hu, kstack, s, halloc, hcase⟩
  · cases hnone
  rcases hcase with ⟨-, hnone, -⟩ | ⟨hne, hsome, hk'⟩
  · cases hnone
  obtain rfl := Option.some.inj hsome
  cases free with
  | nil =>
    have := halloc.symm.trans h.sound.pool.kalloc_nil
    exact absurd (Outcome.ret_inj this).1 hne
  | cons f free =>
    obtain ⟨rfl, rfl⟩ := Outcome.ret_inj (halloc.symm.trans h.sound.pool.kalloc_cons)
    refine ⟨f, free, rfl, hi, hu, hk', ?_⟩
    subst hk'
    have hs : SlotOnly i k
        (slotTaken k i { k.kmem with freelist := k.kmem.mem.word f 0 } .embryo (kva f)) :=
      ⟨(SlotOnly.setProc _).proc, rfl, rfl, rfl⟩
    have hproc : (slotTaken k i { k.kmem with freelist := k.kmem.mem.word f 0 } .embryo
        (kva f)).proc i = { k.proc i with state := .embryo, pid := k.nextpid, kstack := kva f } :=
      Function.update_self _ _ _
    have hdir := hs.dirOf_eq
    rw [no_dir (Or.inr (by rw [hproc])), ← no_dir (Or.inl hu), Function.update_eq_self] at hdir
    refine hs.inv h ?_ (h.pipes.congr rfl rfl) ?_
    · rw [ledger, hdir]
      have hnd := List.nodup_cons.1 h.sound.pool.nodup
      have hone : ∀ x, wholeOf (slotTaken k i { k.kmem with freelist := k.kmem.mem.word f 0 }
          .embryo (kva f)) x f → x = .kstack i := by
        intro x hx
        by_contra hxi
        exact h.sound.whole_not_free ((hs.wholeOf_iff hxi f).1 hx) List.mem_cons_self
      refine h.sound.whole (f := f) h.sound.pool.tail (Or.inl List.mem_cons_self) (fun _ _ => rfl)
        (fun q hq => Or.inl (List.mem_cons_of_mem _ hq)) (fun x q hx => ?_)
        ⟨fun hin => absurd hin hnd.1, fun x y hx hy => (hone x hx).trans (hone y hy).symm⟩
      by_cases hxi : x = .kstack i
      · rw [hxi] at hx
        have hkva : kva f = kva q := by
          have := hx.2
          rwa [hproc] at this
        exact Or.inr (kva_inj hkva).symm
      · exact Or.inl ((hs.wholeOf_iff hxi q).1 hx)
    · rw [hproc]
      exact ⟨fun hsp => absurd rfl hsp.2, fun hsp => absurd rfl hsp.2,
        fun hu => State.noConfusion hu, fun hsp => absurd rfl hsp.2⟩

end Allocproc

section Enter

theorem Inv.enter (h : Inv L k free) (hs : SlotOnly i k k') (hi : i < NPROC)
    (hstack : ∃ f, (k.proc i).kstack = kva f) (hx : hasSpace (k'.proc i)) (hpgdir : (k'.proc i).pgdir = kva d)
    (hkstack : (k'.proc i).kstack = (k.proc i).kstack) (hsz : (k'.proc i).sz ≤ KERNBASE)
    (hw : Wf L k'.kmem free' d) (hk : Kern L k'.kmem.mem d)
    (hback : ∀ q, q ∈ free' ∨ Own k'.kmem.mem d q → q ∈ free)
    (hm : ∀ q, q ∉ free → k'.kmem.mem q = k.kmem.mem q) (hpipes : Pipes k') :
    Inv L k' free' ∧ Beyond i k k' := by
  have hd : dirOf k' (.proc i) = some d := by
    rw [dirOf_proc hi hx, hpgdir, V2P_kva_div hw.dir_lt]
  have hdir := hs.dirOf_eq
  rw [hd] at hdir
  have hwhole : wholeOf k' = wholeOf k := by
    funext x q
    refine propext ?_
    by_cases hxi : x = .kstack i
    · rw [hxi]
      simp [wholeOf, hkstack]
    · exact hs.wholeOf_iff hxi q
  refine ⟨hs.inv h ?_ hpipes ⟨fun _ => ⟨d, hw.dir_lt, hpgdir⟩, fun _ => hkstack ▸ hstack,
    fun hu => absurd hu hx.1, fun _ => hsz⟩, .of_sound hs h fun q hq _ _ => hm q hq⟩
  rw [ledger, hdir, hwhole]
  exact h.sound.attach (o := .proc i) hw hk hback hm

theorem Inv.lose (h : Inv L k free) (hpool : Pool L s' free') (hback : ∀ q ∈ free', q ∈ free)
    (hm : ∀ q, q ∉ free → s'.mem q = k.kmem.mem q) :
    Inv L { k with kmem := s' } free' ∧ Keeps k { k with kmem := s' } := by
  have hk : Keeps k { k with kmem := s' } :=
    ⟨fun _ => .refl _, fun o d hd => (h.sound.keep hd fun q hq =>
      hm q (h.sound.apart hd hq.own)).2, rfl, rfl, rfl⟩
  exact ⟨hk.inv h (h.sound.lose (o := .fresh) hpool hback hm rfl) (h.pipes.congr rfl rfl), hk⟩

theorem Inv.stackFreed (h : Inv L k free) (hs : SlotOnly i k k') (hi : i < NPROC)
    (hkstack : (k.proc i).kstack = kva f) (hgone : (k'.proc i).kstack = 0) {u : Unit}
    (hrun : kfree L (kva f) k.kmem = .ret (u, s')) :
    Sound L s' { ledger k free with free := f :: free, page := wholeOf k' } ∧
      (ledger k free).page (.kstack i) f ∧ ∀ q, q ≠ f → s'.mem q = k.kmem.mem q := by
  have hwas : (ledger k free).page (.kstack i) f := ⟨hi, hkstack⟩
  obtain ⟨s₁, hrun₁, hpool, hmem⟩ := h.sound.pool.kfree (h.sound.page (.whole (.kstack i)) f hwas)
    (h.sound.whole_not_free hwas)
  obtain ⟨-, rfl⟩ := Outcome.ret_inj (hrun₁.symm.trans hrun)
  have hne : ∀ y q, wholeOf k' y q → y ≠ .kstack i := by
    rintro y q hy rfl
    have := hy.2
    rw [hgone] at this
    exact kva_ne_zero q this.symm
  have hno : ∀ y, ¬wholeOf k' y f := fun y hy =>
    hne y f hy (h.sound.whole_inj ((hs.wholeOf_iff (hne y f hy) f).1 hy) hwas)
  exact ⟨h.sound.whole hpool (Or.inr ⟨_, hwas⟩) hmem (fun q hq => (List.mem_cons.1 hq).symm)
    (fun y q hy => Or.inl ((hs.wholeOf_iff (hne y q hy) q).1 hy))
    ⟨fun _ => hno, fun y _ hy => absurd hy (hno y)⟩, hwas, hmem⟩

theorem SlotOk.unused {x : Proc} (hx : x.state = .unused) (h0 : x.kstack = 0) : SlotOk x :=
  ⟨fun hsp => absurd hx hsp.1, fun hsp => absurd hx hsp.1, fun _ => h0, fun hsp => absurd hx hsp.1⟩

theorem Inv.giveStack (h : Inv L k free) (hi : i < NPROC) (hstate : (k.proc i).state = .embryo)
    (hkstack : (k.proc i).kstack = kva f) {u : Unit}
    (hrun : kfree L (kva f) k.kmem = .ret (u, s')) {x : Proc} (hx : x.state = .unused)
    (hx0 : x.kstack = 0) :
    Inv L { k with kmem := s', proc := Function.update k.proc i x } (f :: free) ∧
      Beyond i k { k with kmem := s', proc := Function.update k.proc i x } := by
  have hs : SlotOnly i k { k with kmem := s', proc := Function.update k.proc i x } :=
    ⟨(SlotOnly.setProc x).proc, rfl, rfl, rfl⟩
  obtain ⟨hsound, hwas, hmem⟩ := h.stackFreed hs hi hkstack (by simpa using hx0) hrun
  have hdir := hs.dirOf_eq
  rw [no_dir (Or.inl (by simpa using hx)), ← no_dir (Or.inr hstate), Function.update_eq_self] at hdir
  refine ⟨hs.inv h ?_ (h.pipes.congr rfl rfl) (.unused (by simpa using hx) (by simpa using hx0)),
    .of_sound hs h fun q _ hq _ => hmem q ?_⟩
  · rw [ledger, hdir]
    exact hsound
  · rintro rfl
    exact hq (.kstack i) hwas

end Enter

section Fork

theorem dupFiles_ret {np : ℕ} {fds : List ℕ} {u : Unit}
    (hrun : dupFiles p np fds k = .ret (u, k')) :
    ∃ file' ofile', k' = { k with
        file := file', proc := Function.update k.proc np { k.proc np with ofile := ofile' } } ∧
      ∀ f, file' f = { k.file f with ref := (file' f).ref } ∧ (k.file f).ref ≤ (file' f).ref := by
  induction fds generalizing k with
  | nil =>
    cases Prog.pure_ret hrun
    exact ⟨k'.file, (k'.proc np).ofile, by rw [Function.update_eq_self], fun f => ⟨rfl, le_rfl⟩⟩
  | cons fd fds ih =>
    rw [dupFiles, Prog.get_bind] at hrun
    cases hfd : (k.proc p).ofile fd with
    | none =>
      simp only [hfd] at hrun
      exact ih hrun
    | some f =>
      simp only [hfd] at hrun
      obtain ⟨_, k₁, hdup, hrun⟩ := Prog.bind_ret hrun
      rw [filedup, Prog.get_bind] at hdup
      split_ifs at hdup with href
      · cases hdup
      cases Prog.modify_ret hdup
      replace hrun := Prog.modify_bind_ret hrun
      obtain ⟨file', ofile', rfl, hfile⟩ := ih hrun
      refine ⟨file', ofile', by simp, fun g => ?_⟩
      obtain ⟨heq, hle⟩ := hfile g
      by_cases hg : g = f
      · subst hg
        simp only [Function.update_self] at heq hle
        exact ⟨heq, by omega⟩
      · simp only [Function.update_of_ne hg] at heq hle
        exact ⟨heq, hle⟩

theorem Pipes.refs (h : Pipes k) (hpipe : k'.pipe = k.pipe)
    (hfile : ∀ f, k'.file f = { k.file f with ref := (k'.file f).ref } ∧
      (k.file f).ref ≤ (k'.file f).ref) : Pipes k' := by
  have htype : ∀ f, (k'.file f).type = (k.file f).type := fun f => by rw [(hfile f).1]
  have hp : ∀ f, (k'.file f).pipe = (k.file f).pipe := fun f => by rw [(hfile f).1]
  have hw : ∀ f, (k'.file f).writable = (k.file f).writable := fun f => by rw [(hfile f).1]
  refine ⟨fun f h0 => ?_, fun f hf => ?_, fun f hf => ?_, fun f f' hf hf' hpp hww => ?_⟩
  · rw [htype]
    refine h.unused f ?_
    have := (hfile f).2
    omega
  · rw [hp]
    exact h.page f ((htype f).symm.trans hf)
  · rw [hw, hp, hpipe]
    exact h.opened f ((htype f).symm.trans hf)
  · rw [hp, hp] at hpp
    rw [hw, hw] at hww
    exact h.ends f f' ((htype f).symm.trans hf) ((htype f').symm.trans hf') hpp hww

/-- After `fork` every process has the space it had, or it is new and has a copy of the space
of `p`. -/
def ForkSpaces (p : ℕ) (k k' : Kernel) : Prop :=
  ∀ j < NPROC, hasSpace (k'.proc j) →
    (hasSpace (k.proc j) ∧ spaceOf k' j = spaceOf k j) ∨
      ¬hasSpace (k.proc j) ∧ spaceOf k' j = (spaceOf k p).copy

theorem Keeps.forkSpaces (h : Keeps k k') : ForkSpaces p k k' := fun j hj hsp =>
  have hold := (h.proc j).hasSpace.1 hsp
  Or.inl ⟨hold, h.space hj hold⟩

theorem Beyond.forkSpaces (h : Beyond i k k')
    (hi : hasSpace (k'.proc i) → ¬hasSpace (k.proc i) ∧ spaceOf k' i = (spaceOf k p).copy) :
    ForkSpaces p k k' := by
  intro j hj hsp
  by_cases hji : j = i
  · subst hji
    exact Or.inr (hi hsp)
  · have hold := (h.slot.proc j hji).hasSpace.1 hsp
    exact Or.inl ⟨hold, h.space hj hji hold⟩

namespace Embryo

variable (he : Embryo L k i f free k')
include he

theorem beyond : Beyond i k k' := by
  rw [he.eq]
  exact .of_mem ⟨(SlotOnly.setProc _).proc, rfl, rfl, rfl⟩ rfl

theorem proc : k'.proc i = { k.proc i with
    state := .embryo, pid := k.nextpid, kstack := kva f } := by
  rw [he.eq]
  exact Function.update_self _ _ _

theorem other (hji : j ≠ i) : k'.proc j = k.proc j := by
  rw [he.eq]
  exact Function.update_of_ne hji _ _

theorem noSpace : ¬hasSpace (k.proc i) := fun hsp => hsp.1 he.unused

theorem caller_ne (hsp : hasSpace (k.proc p)) : p ≠ i := by
  rintro rfl
  exact he.noSpace hsp

end Embryo

theorem fork_undo (he : Embryo L k i f free k') {s : Kmem} (hpool : Pool L s free')
    (hback : ∀ q ∈ free', q ∈ free) (hm : ∀ q, q ∉ free → s.mem q = k'.kmem.mem q) {u : Unit}
    {s' : Kmem} (hrun : kfree L (kva f) s = .ret (u, s')) {x : Proc} (hx : x.state = .unused)
    (hx0 : x.kstack = 0) :
    Inv L { k' with kmem := s', proc := Function.update k'.proc i x } (f :: free') ∧
      ForkSpaces p k { k' with kmem := s', proc := Function.update k'.proc i x } := by
  obtain ⟨hlost, hkeeps⟩ := he.inv.lose hpool hback hm
  have hstate : (k'.proc i).state = .embryo := by rw [he.proc]
  have hkstack : (k'.proc i).kstack = kva f := by rw [he.proc]
  obtain ⟨hinv, hbeyond⟩ := hlost.giveStack he.lt hstate hkstack hrun hx hx0
  have hlost' : Beyond i k' { k' with kmem := s } :=
    ⟨⟨fun j _ => hkeeps.proc j, rfl, rfl, rfl⟩, fun j hj _ hsp => hkeeps.pte _ _ (dirOf_proc hj hsp)⟩
  refine ⟨hinv, ((he.beyond.trans hlost').trans hbeyond).forkSpaces fun hsp => ?_⟩
  simp only [Function.update_self] at hsp
  exact absurd hx hsp.1

theorem copy_space (hpgdir : (k'.proc i).pgdir = kva d) (hw : Wf L k'.kmem free' d)
    (hsz : (k'.proc i).sz = (k.proc p).sz) (hstack : (k'.proc i).stackSize = (k.proc p).stackSize)
    {s : Kmem} {g : ℕ} (hle : (k.proc p).sz ≤ KERNBASE)
    (hc : ∀ u ∈ Set.Ico 0 (pages (k.proc p).sz) ∪ stackPages (k.proc p).stackSize,
      Copied s k'.kmem d g u)
    (habs : ∀ u < UPAGES, u ∉ Set.Ico 0 (pages (k.proc p).sz) ∪ stackPages (k.proc p).stackSize →
      present (pte k'.kmem.mem d u) = false) : spaceOf k' i = (spaceOf k p).copy := by
  have hd : V2P (k'.proc i).pgdir / PGSIZE = d := by rw [hpgdir, V2P_kva_div hw.dir_lt]
  refine spaceOf_ext hsz hstack hd (Set.ext fun v => ?_)
  have hmem : v ∈ (spaceOf k p).copy.mapped ↔
      v ∈ Set.Ico 0 (pages (k.proc p).sz) ∪ stackPages (k.proc p).stackSize := by
    simp [Space.copy, Space.heap, spaceOf]
  rw [hmem]
  constructor
  · rintro ⟨hv, hpres⟩
    by_contra hno
    rw [habs v hv hno] at hpres
    cases hpres
  · intro hin
    refine ⟨?_, (hc v hin).present⟩
    rcases hin with hin | hin
    · exact hin.2.trans_le (pages_le hle)
    · exact stackPages_lt hin

def forked (k : Kernel) (p i pgdir : ℕ) (s : Kmem) (file : ℕ → File) (ofile : ℕ → Option ℕ) :
    Kernel :=
  { k with
    kmem := s
    file := file
    proc := Function.update k.proc i
      { k.proc i with
        pgdir := pgdir, sz := (k.proc p).sz, stackSize := (k.proc p).stackSize, parent := some p
        tf := { (k.proc p).tf with eax := 0 }, ofile := ofile, state := .runnable } }

def unforked (k : Kernel) (i : ℕ) (s : Kmem) : Kernel :=
  { k with
    kmem := s
    proc := Function.update k.proc i
      { k.proc i with pgdir := 0, kstack := 0, state := .unused } }

theorem fork_cases {r : ℤ} (hrun : fork L p k = .ret (r, k')) :
    (allocproc k = .ret (none, k') ∧ r = -1) ∨ ∃ i k₁ pgdir s, allocproc k = .ret (some i, k₁) ∧
      copyuvm L (k₁.proc p).pgdir (k₁.proc p).sz (k₁.proc p).stackSize k₁.kmem =
        .ret (pgdir, s) ∧
      ((pgdir = 0 ∧ ∃ s', kfree L (k₁.proc i).kstack s = .ret ((), s') ∧ k' = unforked k₁ i s') ∨
        (pgdir ≠ 0 ∧ r = (k₁.proc i).pid ∧ ∃ file' ofile', k' = forked k₁ p i pgdir s file' ofile' ∧
          ∀ f, file' f = { k₁.file f with ref := (file' f).ref } ∧
            (k₁.file f).ref ≤ (file' f).ref)) := by
  obtain ⟨o, k₁, halloc, hrun⟩ := Prog.bind_ret hrun
  cases o with
  | none =>
    cases Prog.pure_ret hrun
    exact Or.inl ⟨halloc, rfl⟩
  | some i =>
    replace hrun := Prog.get_bind_ret hrun
    obtain ⟨pgdir, s, hcopy, hrun⟩ := onMem_bind_ret hrun
    replace hrun := Prog.modify_bind_ret hrun
    refine Or.inr ⟨i, k₁, pgdir, s, halloc, hcopy, ?_⟩
    by_cases hz : pgdir = 0
    · rw [if_pos hz] at hrun
      obtain ⟨_, s', hfree, hrun⟩ := onMem_bind_ret hrun
      replace hrun := Prog.modify_bind_ret hrun
      cases Prog.pure_ret hrun
      refine Or.inl ⟨hz, s', hfree, ?_⟩
      simp [unforked, hz]
    · rw [if_neg hz] at hrun
      replace hrun := Prog.modify_bind_ret hrun
      obtain ⟨_, k₅, hdup, hrun⟩ := Prog.bind_ret hrun
      obtain ⟨file', ofile', rfl, hfile⟩ := dupFiles_ret hdup
      replace hrun := Prog.modify_bind_ret hrun
      cases Prog.pure_ret hrun
      refine Or.inr ⟨hz, rfl, file', ofile', ?_, hfile⟩
      simp [forked]

theorem fork_spec (h : Inv L k free) (hp : p < NPROC) (hsp : hasSpace (k.proc p)) {r : ℤ}
    (hrun : fork L p k = .ret (r, k')) :
    ∃ free', Inv L k' free' ∧ ForkSpaces p k k' ∧ k'.initproc = k.initproc := by
  rcases fork_cases hrun with ⟨hnone, -⟩ | ⟨i, k₁, pgdir, s, halloc, hcopy, hcase⟩
  · obtain ⟨h₁, hk₁⟩ := allocproc_none h hnone
    exact ⟨free, h₁, hk₁.forkSpaces, hk₁.initproc⟩
  obtain ⟨f, free₁, rfl, he⟩ := allocproc_some h halloc
  have hinit : k₁.initproc = k.initproc := by rw [he.eq]; rfl
  -- the caller is as it was before the slot was taken
  have hpi := he.caller_ne hsp
  have hsp₁ : hasSpace (k₁.proc p) := by rw [he.other hpi]; exact hsp
  have hsz := he.inv.sz p hp hsp₁
  obtain ⟨g, -, hpg, hdir, -⟩ := he.inv.dir hp hsp₁
  have ho : CopyuvmOutcome L g (k₁.proc p).sz (k₁.proc p).stackSize k₁.kmem free₁
      (copyuvm L (kva g) (k₁.proc p).sz (k₁.proc p).stackSize k₁.kmem) :=
    copyuvm_spec he.inv.sound.pool (he.inv.sound.tree (o := .proc p) hdir)
      (fun q hq => he.inv.sound.apart (o := .proc p) hdir hq) hsz
  rw [hpg] at hcopy
  rw [hcopy] at ho
  cases ho with
  | failed hpool hback hm =>
    rcases hcase with ⟨-, s', hfree, rfl⟩ | ⟨hz, -⟩
    · rw [show (k₁.proc i).kstack = kva f by rw [he.proc]] at hfree
      obtain ⟨hinv, hspaces⟩ := fork_undo (p := p) he hpool hback hm hfree
        (x := { k₁.proc i with pgdir := 0, kstack := 0, state := .unused }) rfl rfl
      exact ⟨_, hinv, hspaces, hinit⟩
    · exact absurd rfl hz
  | @built d _ free' hw hk hback hm hc habs =>
    rcases hcase with ⟨hz, -⟩ | ⟨-, -, file', ofile', rfl, hfile⟩
    · exact absurd hz (kva_ne_zero d)
    have hs : SlotOnly i k₁ (forked k₁ p i (kva d) s file' ofile') :=
      ⟨(SlotOnly.setProc _).proc, rfl, rfl, rfl⟩
    have hproc : (forked k₁ p i (kva d) s file' ofile').proc i = _ := Function.update_self _ _ _
    have hspace : spaceOf (forked k₁ p i (kva d) s file' ofile') i = (spaceOf k₁ p).copy :=
      copy_space (by rw [hproc]) hw (by rw [hproc]) (by rw [hproc]) hsz hc habs
    obtain ⟨hinv, hbeyond⟩ := he.inv.enter hs he.lt ⟨f, by rw [he.proc]⟩
      (by rw [hproc]; exact ⟨State.noConfusion, State.noConfusion⟩) (by rw [hproc])
      (by rw [hproc]) (by rw [hproc]; exact hsz) hw hk hback hm (he.inv.pipes.refs rfl hfile)
    refine ⟨free', hinv, (he.beyond.trans hbeyond).forkSpaces fun _ => ⟨he.noSpace, ?_⟩, hinit⟩
    rw [hspace, he.beyond.space hp hpi hsp]

end Fork

end Xv6.Sys
