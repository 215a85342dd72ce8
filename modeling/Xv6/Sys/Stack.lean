import Xv6.Sys.Reach

/-!
# Heap and stack over whole runs

A fault far below the stack maps every page on its way to the stack and counts one; `sbrk` to
nothing unmaps the heap and keeps the size; an `sbrk` that fails next to the stack unmaps pages of
the stack. In runs without these, heap and stack stay as `Space.Laid` says.
-/

namespace Xv6.Sys
open Lib Vm

variable {L : Link} {k k₀ k' : Kernel} {free free' : List ℕ} {p d addr : ℕ} {n : ℤ}
  {e : Event} {es : List Event} {R : Space → Space → Prop}

section Laid

/-- The heap stays below the stack and does not shrink to nothing; a fault is at the page below the
stack, or one that is ignored. -/
def Event.Orderly (k : Kernel) : Event → Prop
  | .sbrk p n =>
    (0 < n → (k.proc p).sz + n.toNat < KERNBASE →
      (k.proc p).sz + n.toNat ≤ KERNBASE - (k.proc p).stackSize * PGSIZE) ∧
    (n < 0 → 0 < (k.proc p).sz → (-n).toNat ≠ (k.proc p).sz)
  | .fault p addr => bottom (k.proc p).stackSize < PGROUNDDOWN addr ∨
      PGROUNDDOWN addr = PGROUNDDOWN (bottom (k.proc p).stackSize)
  | _ => True

def AllLaid (k : Kernel) : Prop := ∀ i < NPROC, hasSpace (k.proc i) → (spaceOf k i).Laid

theorem OldSpaces.laid (h : OldSpaces k k') (hk : AllLaid k) : AllLaid k' := by
  intro i hi hsp
  obtain ⟨hold, heq⟩ := h i hi hsp
  rw [heq]
  exact hk i hi hold

theorem Along.laid (h : Along p R k k') (hk : AllLaid k)
    (hR : (spaceOf k p).Laid → R (spaceOf k p) (spaceOf k' p) → (spaceOf k' p).Laid) :
    AllLaid k' := by
  intro i hi hsp
  obtain ⟨hold, hother, hself⟩ := h i hi hsp
  by_cases hip : i = p
  · subst hip
    exact hR (hk i hi hold) (hself rfl)
  · rw [hother hip]
    exact hk i hi hold

theorem Inv.copy_eq (h : Inv L k free) (hp : p < NPROC) (hsp : hasSpace (k.proc p))
    (hl : (spaceOf k p).Laid) : (spaceOf k p).copy = spaceOf k p := by
  obtain ⟨d, -, -, hdir, hv⟩ := h.dir hp hsp
  have hmapped : Mapped k.kmem.mem d (k.proc p).sz (k.proc p).stackSize := by
    intro v hlt
    have hiff := hl.mem (v := v)
    rw [mem_mapped hv] at hiff
    simp only [hlt, true_and, and_true] at hiff
    exact hiff
  have hle := hl.apart
  exact hl.copy_eq ((h.sound.tree (o := .proc p) hdir).stack_lt (by omega) hmapped)

theorem Step.laid (h : Inv L k free) (ht : e.Tabled) (ho : e.Orderly k) (hk : AllLaid k)
    (hs : Step L k e k') : AllLaid k' := by
  have hactive := hs.valid.active
  obtain ⟨-, -, hmoves, -⟩ := hs.spec h ht
  cases e with
  | fault p addr => exact Along.laid hmoves hk fun hl hf => hl.fault hf ho
  | sbrk p n => exact Along.laid hmoves hk fun hl hb => hl.sbrk hb ho.1 ho.2
  | exec p ip argv => exact Along.laid hmoves hk fun hl he => hl.exec he
  | fork p =>
    intro i hi hsp
    rcases hmoves i hi hsp with ⟨hold, heq⟩ | ⟨-, heq⟩
    · rw [heq]
      exact hk i hi hold
    · have hp : p < NPROC := hactive.1
      have hspp : hasSpace (k.proc p) := hactive.hasSpace
      rw [heq, h.copy_eq hp hspp (hk p hp hspp)]
      exact hk p hp hspp
  | user | exit | wait | pipe | dup | close => exact OldSpaces.laid hmoves hk

variable (L) in
def OrderlyStep (k : Kernel) (e : Event) (k' : Kernel) : Prop := e.Orderly k ∧ TabledStep L k e k'

theorem First.laid (h : First k) : AllLaid k := by
  intro i hi hsp
  by_cases h0 : i = 0
  · subst h0
    rw [h.space]
    refine Space.laid_of_mem (fun v => ?_) (by decide)
    have hpages : pages PGSIZE = 1 := rfl
    simp only [hpages, Set.mem_singleton_iff]
    omega
  · exact absurd (h.others i h0) hsp.1

/-- In a run of orderly events every process has its heap and its stack, and nothing else. -/
theorem orderly_runs_laid (h : Booted L k₀) (hrun : Runs (OrderlyStep L) k₀ es k) :
    ∀ i < NPROC, hasSpace (k.proc i) → (spaceOf k i).Laid := by
  obtain ⟨free₀, h₀, hfirst, -⟩ := h.spec
  refine (hrun.invariant (I := fun k => (∃ free, Inv L k free) ∧ AllLaid k) (fun k e k' hk hs => ?_)
    ⟨⟨free₀, h₀⟩, hfirst.laid⟩).2
  obtain ⟨⟨free, hinv⟩, hl⟩ := hk
  obtain ⟨ho, ht, hs⟩ := hs
  obtain ⟨free', hinv', -⟩ := hs.spec hinv ht
  exact ⟨⟨free', hinv'⟩, hs.laid hinv ht ho hl⟩

theorem orderly_runs_laid_sbrk : ∃ k₀ k, Booted Link.sample k₀ ∧
    Runs (OrderlyStep Link.sample) k₀ [.sbrk 0 10000] k ∧ (spaceOf k 0).Laid := by
  obtain ⟨k₀, h⟩ := exists_booted Link.sample
  obtain ⟨k, free, hs, -, hactive, hspace, -⟩ := h.sbrk (n := 10000) (by decide) (by decide)
  obtain ⟨-, -, hfirst, -⟩ := h.spec
  have hsz : (k₀.proc 0).sz = PGSIZE := congrArg Space.sz hfirst.space
  have hstack : (k₀.proc 0).stackSize = 0 := congrArg Space.stackSize hfirst.space
  have horderly : (Event.sbrk 0 10000).Orderly k₀ := by
    refine ⟨fun _ _ => ?_, fun hneg => absurd hneg (by decide)⟩
    rw [hsz, hstack]
    decide
  have hrun : Runs (OrderlyStep Link.sample) k₀ [.sbrk 0 10000] k :=
    .snoc (.nil k₀) ⟨horderly, trivial, hs⟩
  exact ⟨k₀, k, h, hrun, orderly_runs_laid h hrun 0 (by decide) hactive.hasSpace⟩

end Laid

section Fault

def Event.Memory : Event → Prop
  | .user _ _ | .fault _ _ | .sbrk _ _ | .fork _ | .exec _ _ _ => True
  | _ => False

def Calm (k : Kernel) : Prop := ∀ i, (k.proc i).killed = false

theorem Calm.update (h : Calm k) {x : Proc} (hproc : k'.proc = Function.update k.proc p x)
    (hx : x.killed = (k.proc p).killed) : Calm k' := by
  intro i
  rw [hproc]
  by_cases hip : i = p
  · rw [hip, Function.update_self, hx]
    exact h p
  · rw [Function.update_of_ne hip]
    exact h i

theorem pgflt_calm (h : Calm k) {u : Unit} (hrun : pgflt L p addr k = .ret (u, k')) : Calm k' := by
  rcases pgflt_ret hrun with ⟨-, rfl⟩ | ⟨-, -, r, s', -, -, rfl⟩
  · exact h
  · exact h.update rfl rfl

theorem trap_of_pgflt (h : Calm k) (hrun : pgflt L p addr k = .ret ((), k')) :
    trap L p addr k = .ret ((), k') := by
  unfold trap
  rw [Prog.bind_of_ret hrun, Prog.get_bind,
    if_neg (by rw [pgflt_calm h hrun p]; exact Bool.false_ne_true)]
  rfl

theorem pgflt_of_trap (h : Calm k) {u : Unit} (hrun : trap L p addr k = .ret (u, k')) :
    pgflt L p addr k = .ret ((), k') := by
  obtain ⟨_, k₁, hfault, -⟩ := Prog.bind_ret hrun
  obtain ⟨-, rfl⟩ := Outcome.ret_inj ((trap_of_pgflt h hfault).symm.trans hrun)
  exact hfault

theorem resize_proc {x : Proc} {sz : ℕ} (hrun : resize L x n k = .ret (sz, k')) :
    k'.proc = k.proc := by
  unfold resize at hrun
  split_ifs at hrun
  · obtain ⟨_, s, -, hk'⟩ := onMem_ret hrun
    obtain ⟨-, rfl⟩ := Prod.mk.inj hk'
    rfl
  · obtain ⟨_, s, -, hk'⟩ := onMem_ret hrun
    obtain ⟨-, rfl⟩ := Prod.mk.inj hk'
    rfl
  · cases Prog.pure_ret hrun
    rfl

theorem growproc_calm (h : Calm k) {r : ℤ} (hrun : growproc L p n k = .ret (r, k')) : Calm k' := by
  obtain ⟨sz, k₁, hsize, hcase⟩ := growproc_ret hrun
  have h₁ : Calm k₁ := fun i => by rw [resize_proc hsize]; exact h i
  rcases hcase with ⟨-, rfl⟩ | ⟨-, rfl⟩
  · exact h₁
  · exact h₁.update rfl rfl

theorem allocproc_calm (h : Calm k) {o : Option ℕ} (hrun : allocproc k = .ret (o, k')) :
    Calm k' := by
  rcases allocproc_cases hrun with ⟨-, rfl, -⟩ | ⟨i, -, -, kstack, s, -, hcase⟩
  · exact h
  · rcases hcase with ⟨-, -, rfl⟩ | ⟨-, -, rfl⟩
    · exact h.update rfl rfl
    · exact h.update rfl rfl

theorem fork_calm (h : Calm k) {r : ℤ} (hrun : fork L p k = .ret (r, k')) : Calm k' := by
  rcases fork_cases hrun with ⟨hnone, -⟩ | ⟨i, k₁, pgdir, s, halloc, -, hcase⟩
  · exact allocproc_calm h hnone
  · have h₁ := allocproc_calm h halloc
    rcases hcase with ⟨-, s', -, rfl⟩ | ⟨-, -, file', ofile', rfl, -⟩
    · exact h₁.update rfl rfl
    · exact h₁.update rfl rfl

theorem Step.calm (h : Inv L k free) (ht : e.Tabled) (he : e.Memory) (hk : Calm k)
    (hs : Step L k e k') : Calm k' := by
  have hactive := hs.valid.active
  obtain ⟨hvalid, hrun⟩ := hs
  cases e with
  | user p m =>
    simp only [Event.run] at hrun
    cases Prog.modify_ret hrun
    exact hk
  | fault p addr => exact pgflt_calm hk (pgflt_of_trap hk hrun)
  | sbrk p n =>
    obtain ⟨r, hgrow⟩ := discard_ret hrun
    exact growproc_calm hk hgrow
  | fork p =>
    obtain ⟨r, hfork⟩ := discard_ret hrun
    exact fork_calm hk hfork
  | exec p ip argv =>
    obtain ⟨r, hexec⟩ := discard_ret hrun
    obtain ⟨-, -, -, -, hkilled⟩ :=
      exec_spec h hactive.1 hactive.hasSpace ht.1 (Event.Valid.strings h hvalid) ht.2 hexec
    exact fun i => (hkilled i).trans (hk i)
  | exit | wait | pipe | dup | close => exact he.elim

variable (L) in
def MemoryStep (k : Kernel) (e : Event) (k' : Kernel) : Prop := e.Memory ∧ TabledStep L k e k'

theorem Booted.calm (h : Booted L k₀) (hrun : Runs (MemoryStep L) k₀ es k) :
    (∃ free, Inv L k free) ∧ Calm k := by
  obtain ⟨free₀, h₀, hfirst, -⟩ := h.spec
  refine hrun.invariant (I := fun k => (∃ free, Inv L k free) ∧ Calm k) (fun k e k' hk hs => ?_)
    ⟨⟨free₀, h₀⟩, hfirst.killed⟩
  obtain ⟨⟨free, hinv⟩, hc⟩ := hk
  obtain ⟨he, ht, hs⟩ := hs
  obtain ⟨free', hinv', -⟩ := hs.spec hinv ht
  exact ⟨⟨free', hinv'⟩, hs.calm hinv ht he hc⟩

variable (L) in
/-- `trap` returns, and the page is there for the user, or the process is marked killed. -/
def Handled (k : Kernel) (p addr : ℕ) : Prop :=
  ∃ k', trap L p addr k = .ret ((), k') ∧
    (userFrame k' p addr ≠ none ∨ (k'.proc p).killed = true)

variable (L) in
def Room (k : Kernel) (p addr : ℕ) : Prop :=
  PGROUNDDOWN addr ≤ bottom (k.proc p).stackSize ∧ bottom (k.proc p).stackSize < KERNBASE ∧
    (∀ v ∈ Set.Ico (addr / PGSIZE) (pages (bottom (k.proc p).stackSize)),
      v ∉ (spaceOf k p).mapped) ∧
    ∃ free, Pool L k.kmem free ∧
      need k.kmem.mem (V2P (k.proc p).pgdir / PGSIZE) (addr / PGSIZE)
        (pages (bottom (k.proc p).stackSize)) ≤ free.length

theorem First.process (h : First k) :
    Active k 0 ∧ (k.proc 0).stackSize = 0 ∧ ∀ v, v ∉ (spaceOf k 0).mapped ↔ v ≠ 0 := by
  refine ⟨?_, congrArg Space.stackSize h.space, fun v => ?_⟩
  · rw [Active, h.state]
    exact ⟨by decide, State.noConfusion, State.noConfusion, State.noConfusion⟩
  · rw [h.space, Set.mem_singleton_iff]

theorem userFrame_of_good (hv : V2P (k.proc p).pgdir / PGSIZE = d)
    (h : Good k.kmem.mem d (addr / PGSIZE)) : userFrame k p addr ≠ none := by
  rw [(userFrame_eq_some hv).2 ⟨h, frm_eq_some.2 ⟨h.1, rfl⟩⟩]
  exact Option.some_ne_none _

theorem Handled.room (h : Inv L k free) (hc : Calm k) (hp : p < NPROC) (hsp : hasSpace (k.proc p))
    (hfault : userFrame k p addr = none) (hh : Handled L k p addr) : Room L k p addr := by
  obtain ⟨k', htrap, hor⟩ := hh
  have hrun := pgflt_of_trap hc htrap
  rcases pgflt_ret hrun with ⟨-, rfl⟩ | ⟨hle, hK, r, s', h0, halloc, rfl⟩
  · rcases hor with hor | hor
    · exact absurd hfault hor
    · rw [hc p] at hor
      cases hor
  obtain ⟨d, -, hpg, hdir, hv⟩ := h.dir hp hsp
  rw [hpg] at halloc
  have ho := allocuvm_spec (h.sound.wf (o := .proc p) hdir) hK hle
  rw [halloc, pages_rounddown] at ho
  cases ho with
  | failed => exact absurd rfl h0
  | mapped hw hm hold hnew hneed =>
    refine ⟨hle, hK, fun v hin hmem => ?_, free, h.sound.pool, ?_⟩
    · rw [mem_mapped hv, hold v hin] at hmem
      exact Bool.false_ne_true hmem.2
    · rw [hv]
      simp only [ledger] at hneed
      omega

theorem Room.handled (h : Inv L k free) (hc : Calm k) (hp : p < NPROC) (hsp : hasSpace (k.proc p))
    (hr : Room L k p addr) : Handled L k p addr := by
  obtain ⟨hle, hK, habs, free', hpool, hneed⟩ := hr
  obtain rfl := hpool.unique h.sound.pool
  obtain ⟨s', hrun, hgood⟩ := h.faults hp hsp hle hK habs hneed
  refine ⟨_, trap_of_pgflt hc hrun, Or.inl (userFrame_of_good ?_ (hgood _ ⟨le_rfl, ?_⟩))⟩
  · rw [stretched_proc]
  have hb : addr / PGSIZE ≤ bottom (k.proc p).stackSize / PGSIZE := by
    simp only [PGROUNDDOWN, PGSIZE] at hle ⊢
    omega
  have hn : (k.proc p).stackSize % 2 ^ 20 < UPAGES := by
    by_contra hn
    have := lt_bottom hn
    omega
  rw [bottom_eq hn] at hb ⊢
  simp only [pages, PGSIZE] at hb ⊢
  omega

/-- A page fault of user code is dealt with exactly if there is room for the stack to grow to it. -/
theorem fault_handled_iff (h : Booted L k₀) (hrun : Runs (MemoryStep L) k₀ es k) (ha : Active k p)
    (hfault : userFrame k p addr = none) : Handled L k p addr ↔ Room L k p addr := by
  obtain ⟨⟨free, hinv⟩, hc⟩ := h.calm hrun
  exact ⟨Handled.room hinv hc ha.1 ha.hasSpace hfault, Room.handled hinv hc ha.1 ha.hasSpace⟩

theorem First.room (h : First k) (hinv : Inv L k free) (hlen : 56250 ≤ free.length)
    (hlo : 0x7fffe000 ≤ addr) (hhi : addr < KERNBASE) : Room L k 0 addr := by
  obtain ⟨-, hstack, hmapped⟩ := h.process
  have hb : bottom 0 = 0x7ffffffc := rfl
  have hp : pages 0x7ffffffc = 0x80000 := rfl
  rw [Room, hstack, hb, hp]
  simp only [PGROUNDDOWN, KERNBASE, PGSIZE] at hhi ⊢
  refine ⟨by omega, by omega, fun v hin => ?_, free, hinv.sound.pool, need_le.trans (by omega)⟩
  rw [hmapped]
  have := hin.1
  omega

theorem fault_handled_iff_first : ∃ k₀, Booted Link.sample k₀ ∧
    userFrame k₀ 0 0x7ffff000 = none ∧ Handled Link.sample k₀ 0 0x7ffff000 := by
  obtain ⟨k₀, h⟩ := exists_booted Link.sample
  obtain ⟨free, hinv, hfirst, hlen⟩ := h.spec
  obtain ⟨hactive, -, hmapped⟩ := hfirst.process
  have hnone : userFrame k₀ 0 0x7ffff000 = none := by
    cases hf : userFrame k₀ 0 0x7ffff000 with
    | none => rfl
    | some f =>
      have hgood := ((userFrame_eq_some rfl).1 hf).1
      exact absurd ((mem_mapped rfl).2 ⟨by decide, hgood.1⟩) ((hmapped _).2 (by decide))
  exact ⟨k₀, h, hnone, (fault_handled_iff h (.nil k₀) hactive hnone).2
    (hfirst.room hinv hlen (by decide) (by decide))⟩

/-- A fault at an address of the kernel: `trap` returns, nothing has changed, and the process is
not killed. -/
theorem fault_at_kernbase : ∃ k₀, Booted Link.sample k₀ ∧ Active k₀ 0 ∧
    userFrame k₀ 0 KERNBASE = none ∧ trap Link.sample 0 KERNBASE k₀ = .ret ((), k₀) ∧
    (k₀.proc 0).killed = false ∧ ¬Handled Link.sample k₀ 0 KERNBASE := by
  obtain ⟨k₀, h⟩ := exists_booted Link.sample
  obtain ⟨free, hinv, hfirst, -⟩ := h.spec
  obtain ⟨hactive, hstack, -⟩ := hfirst.process
  obtain ⟨d, -, -, hdir, hv⟩ := hinv.dir hactive.1 hactive.hasSpace
  have hnone : userFrame k₀ 0 KERNBASE = none := by
    cases hf : userFrame k₀ 0 KERNBASE with
    | none => rfl
    | some f =>
      have hlt := ((userFrame_eq_some hv).1 hf).1.lt (hinv.sound.kern (.proc 0) d hdir) (by decide)
      exact absurd hlt (by decide)
  have hrun : pgflt Link.sample 0 KERNBASE k₀ = .ret ((), k₀) := by
    unfold pgflt
    rw [Prog.get_bind]
    simp only [hstack]
    rw [if_neg (by decide)]
    rfl
  have htrap := trap_of_pgflt hfirst.killed hrun
  refine ⟨k₀, h, hactive, hnone, htrap, hfirst.killed 0, ?_⟩
  rintro ⟨k', hrun', hor⟩
  obtain ⟨-, rfl⟩ := Outcome.ret_inj (htrap.symm.trans hrun')
  rcases hor with hor | hor
  · exact hor hnone
  · rw [hfirst.killed 0] at hor
    cases hor

/-- One fault two pages below `KERNBASE`: two pages are mapped, and one is counted. -/
theorem fault_maps_two : ∃ k₀ k, Booted Link.sample k₀ ∧
    Runs (Step Link.sample) k₀ [.fault 0 0x7fffe000] k ∧ hasSpace (k.proc 0) ∧
    (spaceOf k 0).stackSize = 1 ∧ UPAGES - 2 ∈ (spaceOf k 0).mapped ∧ ¬(spaceOf k 0).Laid := by
  obtain ⟨k₀, h⟩ := exists_booted Link.sample
  obtain ⟨free, hinv, hfirst, hlen⟩ := h.spec
  obtain ⟨hactive, hstack, -⟩ := hfirst.process
  have hroom : Room Link.sample k₀ 0 0x7fffe000 := hfirst.room hinv hlen (by decide) (by decide)
  obtain ⟨hle, hK, habs, free', hpool, hneed⟩ := hroom
  obtain rfl := hpool.unique hinv.sound.pool
  obtain ⟨s, hrun, hgood⟩ := hinv.faults hactive.1 hactive.hasSpace hle hK habs hneed
  have hstep : Step Link.sample k₀ (.fault 0 0x7fffe000) (stretched k₀ 0 s) :=
    ⟨⟨hactive, by decide⟩, trap_of_pgflt hfirst.killed hrun⟩
  have hproc := stretched_proc k₀ 0 s
  have hin : UPAGES - 2 ∈ Set.Ico (0x7fffe000 / PGSIZE) (pages (bottom (k₀.proc 0).stackSize)) := by
    rw [hstack]
    decide
  have hmem : UPAGES - 2 ∈ (spaceOf (stretched k₀ 0 s) 0).mapped :=
    (mem_mapped (by rw [hproc])).2 ⟨by decide, (hgood _ hin).1⟩
  have hone : (spaceOf (stretched k₀ 0 s) 0).stackSize = 1 := by
    simp only [spaceOf, hproc, hstack]
    rfl
  have hsz : (spaceOf (stretched k₀ 0 s) 0).sz = PGSIZE := by
    simp only [spaceOf, hproc]
    exact congrArg Space.sz hfirst.space
  refine ⟨k₀, _, h, .snoc (.nil k₀) hstep, ?_, ?_, ?_, ?_⟩
  · rw [stretched_proc]
    exact hactive.hasSpace
  · exact hone
  · exact hmem
  · intro hl
    rw [hl.mem, hone, hsz] at hmem
    exact absurd hmem (by decide)

end Fault

end Xv6.Sys
