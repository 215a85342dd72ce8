import Xv6.Sys.Renew

/-!
# Steps of the kernel

A step takes the invariant to the invariant, and the address spaces along what `Event.Moves`
says of the event. The one exception is an `exec` that looks an argument up in a missing page
table.
-/

namespace Xv6.Sys
open Lib Vm

variable {L : Link} {k k' : Kernel} {free free' : List ℕ} {p d va : ℕ} {e : Event}

section User

theorem userFrame_eq_some {f : ℕ} (hv : V2P (k.proc p).pgdir / PGSIZE = d) :
    userFrame k p va = some f ↔
      Good k.kmem.mem d (va / PGSIZE) ∧ frm k.kmem.mem d (va / PGSIZE) = some f := by
  simp only [userFrame, hv]
  constructor
  · intro hf
    split_ifs at hf with hgood
    exact ⟨hgood, frm_eq_some.2 ⟨hgood.1, Option.some.inj hf⟩⟩
  · rintro ⟨hgood, hf⟩
    rw [if_pos ⟨hgood.1, hgood.2⟩]
    exact congrArg some (frm_eq_some.1 hf).2

theorem Inv.userOnly (h : Inv L k free) (hdir : dirOf k (.proc p) = some d)
    (hv : V2P (k.proc p).pgdir / PGSIZE = d) {m : Pages}
    (hm : ∀ f, (∀ va < 2 ^ 32, userFrame k p va ≠ some f) → m f = k.kmem.mem f) :
    UserOnly d k.kmem { k.kmem with mem := m } := by
  refine ⟨rfl, fun f hf => hm f fun va hva huser => ?_⟩
  obtain ⟨hgood, hfrm⟩ := (userFrame_eq_some hv).1 huser
  have hlt : va / PGSIZE < 2 ^ 20 := by
    simp only [PGSIZE]
    omega
  exact hf _ (hgood.lt (h.sound.kern (.proc p) d hdir) hlt) hfrm

theorem Inv.user (h : Inv L k free) (hp : p < NPROC) (hsp : hasSpace (k.proc p)) {m : Pages}
    (hm : ∀ f, (∀ va < 2 ^ 32, userFrame k p va ≠ some f) → m f = k.kmem.mem f) :
    Inv L { k with kmem := { k.kmem with mem := m } } free ∧
      OldSpaces k { k with kmem := { k.kmem with mem := m } } := by
  obtain ⟨d, -, -, hdir, hv⟩ := h.dir hp hsp
  have hkern := h.sound.kern (.proc p) d hdir
  have honly := h.userOnly hdir hv hm
  obtain ⟨hw, hmoved, hpte⟩ := honly.wf (h.sound.wf (o := .proc p) hdir)
  have hkern' : Kern L m d := fun v hge hlt => (hpte v hlt).trans (hkern v hge hlt)
  have hsound : Sound L { k.kmem with mem := m } (ledger k free) :=
    h.sound.moved (o := .proc p) hdir hw hkern' hmoved.within
  refine ⟨⟨hsound, h.pgdir, h.kstack, h.idle, h.sz, h.pipes.congr rfl rfl⟩, fun j hj hspj => ?_⟩
  have hdj := dirOf_proc hj hspj
  refine ⟨hspj, spaceOf_eq (.refl _) ?_⟩
  by_cases hjp : j = p
  · subst hjp
    rw [hv]
    exact hpte
  · refine (h.sound.keep (o := .proc j) hdj fun q hq => hmoved.other ?_ ?_).2
    · exact h.sound.apart (o := .proc j) hdj hq.own
    · exact h.sound.own_disjoint (o := .proc j) (q := .proc p) hdj hdir (by simp [hjp]) hq.own

theorem StringAt.length_lt (h : Inv L k free) (hp : p < NPROC) (hsp : hasSpace (k.proc p))
    {str : List UInt8} (hs : StringAt k p va str) : str.length < PHYSTOP := by
  obtain ⟨d, -, -, hdir, hv⟩ := h.dir hp hsp
  have hP : PHYSTOP = 4096 * 57344 := rfl
  have hT : STACK_TOP = 2147483644 := rfl
  have hU : UPAGES = 524288 := rfl
  have hbound := hs.1
  have hgood : ∀ v ∈ Finset.Icc (va / 4096) ((va + str.length) / 4096),
      v < UPAGES ∧ present (pte k.kmem.mem d v) = true := by
    intro v hvin
    rw [Finset.mem_Icc] at hvin
    obtain ⟨f, hf, -⟩ := hs.2 (max (4096 * v) va - va) (by omega)
    obtain ⟨hgood, -⟩ := (userFrame_eq_some hv).1 hf
    have hpage : (va + (max (4096 * v) va - va)) / PGSIZE = v := by
      simp only [PGSIZE]
      omega
    rw [hpage] at hgood
    exact ⟨by omega, hgood.1⟩
  have hcard := (h.sound.tree (o := .proc p) hdir).card_le (fun v hv => (hgood v hv).1)
    fun v hv => (hgood v hv).2
  rw [Nat.card_Icc] at hcard
  omega

end User

namespace Event

/-- No argument is looked up in a missing page table. -/
def Tabled : Event → Prop
  | exec _ ip argv => ip.size < 2 ^ 32 ∧
      ArgsTabled (pages (top (segments ip))) STACK_TOP (argv.take MAXARG)
  | _ => True

def Moves : Event → Kernel → Kernel → Prop
  | fault p addr => Along p (Space.Fault addr)
  | sbrk p n => Along p (Space.Sbrk n)
  | exec p _ _ => Along p Space.Exec
  | fork p => ForkSpaces p
  | user _ _ | exit _ | wait _ | pipe _ | dup _ _ | close _ _ => OldSpaces

theorem Valid.active (h : e.Valid k) : Active k e.proc := by
  cases e with
  | user | fault | sbrk | exec => exact h.1
  | _ => exact h

end Event

theorem Active.hasSpace (h : Active k p) : hasSpace (k.proc p) := ⟨h.2.1, h.2.2.1⟩

theorem Event.Valid.strings (h : Inv L k free) {ip : Inode} {argv : List (List UInt8)}
    (hv : (Event.exec p ip argv).Valid k) : ∀ str ∈ argv, str.length < PHYSTOP := by
  intro str hstr
  obtain ⟨-, va, hat⟩ := hv.2 str hstr
  exact hat.length_lt h hv.1.1 hv.1.hasSpace

theorem discard_ret {α : Type} {x : Prog Kernel α} {u : Unit}
    (h : (do let _ ← x) k = .ret (u, k')) : ∃ a, x k = .ret (a, k') := by
  obtain ⟨a, k₁, hx, hrest⟩ := Prog.bind_ret h
  cases Prog.pure_ret hrest
  exact ⟨a, hx⟩

theorem Safe.step {α : Type} {x : Prog Kernel α} (hx : Safe L x) (h : Inv L k free) {a : α}
    (hrun : x k = .ret (a, k')) :
    ∃ free', Inv L k' free' ∧ OldSpaces k k' ∧ k'.initproc = k.initproc := by
  obtain ⟨free', hinv, hkeeps⟩ := hx h hrun
  exact ⟨free', hinv, hkeeps.oldSpaces, hkeeps.initproc⟩

theorem Step.spec (h : Inv L k free) (ht : e.Tabled) (hs : Step L k e k') :
    ∃ free', Inv L k' free' ∧ e.Moves k k' ∧ k'.initproc = k.initproc := by
  have hactive := hs.valid.active
  have hp := hactive.1
  have hsp := hactive.hasSpace
  obtain ⟨hvalid, hrun⟩ := hs
  cases e with
  | user p m =>
    simp only [Event.run] at hrun
    cases Prog.modify_ret hrun
    obtain ⟨hinv, hold⟩ := h.user hp hsp hvalid.2
    exact ⟨free, hinv, hold, rfl⟩
  | fault p addr => exact trap_spec h hp hsp hrun
  | sbrk p n =>
    obtain ⟨r, hgrow⟩ := discard_ret hrun
    obtain ⟨⟨⟨free', hinv⟩, hothers, -⟩, hspace⟩ :=
      growproc_spec h hp hsp hvalid.2.1 hvalid.2.2 hgrow
    exact ⟨free', hinv, hothers.along hsp hspace, hothers.initproc⟩
  | fork p =>
    obtain ⟨r, hfork⟩ := discard_ret hrun
    exact fork_spec h hp hsp hfork
  | exec p ip argv =>
    obtain ⟨r, hexec⟩ := discard_ret hrun
    obtain ⟨free', hinv, halong, hinit, -⟩ :=
      exec_spec h hp hsp ht.1 (Event.Valid.strings h hvalid) ht.2 hexec
    exact ⟨free', hinv, halong, hinit⟩
  | exit p => exact exit_spec h hp hsp hrun
  | wait p =>
    obtain ⟨r, hwait⟩ := discard_ret hrun
    exact wait_spec h hwait
  | pipe p =>
    obtain ⟨r, hpipe⟩ := discard_ret hrun
    exact (sysPipe_safe p).step h hpipe
  | dup p fd =>
    obtain ⟨r, hdup⟩ := discard_ret hrun
    exact (sysDup_safe p fd).step h hdup
  | close p fd =>
    obtain ⟨r, hclose⟩ := discard_ret hrun
    exact (sysClose_safe p fd).step h hclose

end Xv6.Sys
