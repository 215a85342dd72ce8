import Xv6.Sys.Steps

/-!
# The kernel comes up

`main` up to the first process: the free list below 4 MB, the directory of the kernel, the
stacks of the other processors, the rest of the free list, and `initcode`. It always gets there,
and the invariant holds then.
-/

namespace Xv6.Sys
open Lib Vm

variable {L : Link} {k k' : Kernel} {free free' aps : List ℕ} {d f n : ℕ} {s s' : Kmem}

section Memory

theorem length_ge {l : List ℕ} {a b : ℕ} (h : ∀ q ∈ Set.Ico a b, q ∈ l) : b - a ≤ l.length := by
  have hsub : Finset.Ico a b ⊆ l.toFinset := fun q hq =>
    List.mem_toFinset.2 (h q (Finset.mem_Ico.1 hq))
  calc b - a = (Finset.Ico a b).card := (Nat.card_Ico a b).symm
    _ ≤ l.toFinset.card := Finset.card_le_card hsub
    _ ≤ l.length := l.toFinset_card_le

structure Booting (L : Link) (k : Kernel) (free : List ℕ) (d : ℕ) (aps : List ℕ) : Prop where
  wf : Wf L k.kmem free d
  kern : Kern L k.kmem.mem d
  kpgdir : k.kpgdir = kva d
  apstacks : k.apstacks = aps.map kva
  nodup : (aps ++ free).Nodup
  page : ∀ q ∈ aps, L.Page q ∧ ¬Own k.kmem.mem d q
  proc : ∀ i, k.proc i = noProc
  file : ∀ i, (k.file i).type = .none
  pipe : ∀ q, (k.pipe q).readopen = false ∧ (k.pipe q).writeopen = false

def Booting.Low (m : Pages) (free : List ℕ) (d : ℕ) (aps : List ℕ) : Prop :=
  ∀ q, q ∈ aps ++ free ∨ Own m d q → q < 1024

theorem kvmalloc_spec {m : Pages} (hp : Pool L s free) (hlow : ∀ q ∈ free, q < 1024)
    (hlen : 67 ≤ free.length) :
    ∃ k' free' d, kvmalloc L { loaded m with kmem := s } = .ret ((), k') ∧
      Booting L k' free' d [] ∧ Booting.Low k'.kmem.mem free' d [] ∧
      free.length ≤ free'.length + 67 := by
  generalize hrun : setupkvm L s = o
  have hspec := setupkvm_spec hp
  rw [hrun] at hspec
  cases hspec with
  | failed _ _ _ hlt => omega
  | @built d s' free' hw hk hu hc hm hlen' =>
    have hmem : onMem (setupkvm L) { loaded m with kmem := s } =
        .ret (kva d, { loaded m with kmem := s' }) := onMem_of_ret hrun
    refine ⟨{ loaded m with kmem := s', kpgdir := kva d }, free', d, ?_, ?_, fun q hq => ?_, hlen'⟩
    · unfold kvmalloc
      rw [Prog.bind_of_ret hmem]
      rfl
    · exact ⟨hw, hk, rfl, rfl, hw.pool.nodup, fun q hq => absurd hq List.not_mem_nil,
        fun _ => rfl, fun _ => rfl, fun _ => ⟨rfl, rfl⟩⟩
    · exact hlow q ((hc q).1 hq)

theorem Booting.take (h : Booting L k (f :: free) d aps) :
    Booting L { k with
      kmem := { k.kmem with freelist := k.kmem.mem.word f 0 }
      apstacks := kva f :: k.apstacks } free d (f :: aps) where
  wf := ⟨h.wf.pool.tail, h.wf.tree, fun q hq => h.wf.apart q (List.mem_cons_of_mem f hq)⟩
  kern := h.kern
  kpgdir := h.kpgdir
  apstacks := by rw [h.apstacks, List.map_cons]
  nodup := (List.perm_middle.nodup_iff).1 h.nodup
  page := by
    intro q hq
    rcases List.mem_cons.1 hq with rfl | hq
    · exact ⟨h.wf.pool.page q List.mem_cons_self, h.wf.apart q List.mem_cons_self⟩
    · exact h.page q hq
  proc := h.proc
  file := h.file
  pipe := h.pipe

theorem startothers_spec (h : Booting L k free d aps) (hn : n ≤ free.length) :
    ∃ k' free' aps', startothers n k = .ret ((), k') ∧ Booting L k' free' d aps' ∧
      k'.kmem.mem = k.kmem.mem ∧ (∀ q ∈ aps' ++ free', q ∈ aps ++ free) := by
  induction n generalizing k free aps with
  | zero => exact ⟨k, free, aps, rfl, h, rfl, fun _ hq => hq⟩
  | succ n ih =>
    obtain ⟨f, free, rfl⟩ := List.exists_cons_of_length_pos (show 0 < free.length by omega)
    rw [List.length_cons] at hn
    obtain ⟨k', free', aps', hrun, h', hmem, hsub⟩ := ih h.take (by omega)
    refine ⟨k', free', aps', ?_, h', hmem, fun q hq => ?_⟩
    · rw [startothers, Prog.bind_of_ret (onMem_of_ret h.wf.pool.kalloc_cons)]
      exact hrun
    · exact (List.perm_middle.mem_iff).2 (hsub q hq)

theorem Booting.kinit2 (h : Booting L k free d aps) (hlow : Booting.Low k.kmem.mem free d aps) :
    ∃ s' free', kinit2 L k.kmem = .ret ((), s') ∧ Booting L { k with kmem := s' } free' d aps ∧
      56320 ≤ free'.length := by
  obtain ⟨s', free', hrun, hpool, hmem, hm⟩ := kinit2_spec h.wf.pool fun q hq =>
    hlow q (Or.inl (List.mem_append_right _ hq))
  obtain ⟨-, hpte, htree, hown⟩ := h.wf.tree.keep fun q hq => hm q (hlow q (Or.inr hq.own))
  have hdisj := List.nodup_append.1 h.nodup
  refine ⟨s', free', hrun, ⟨⟨hpool, htree, fun q hq ho => ?_⟩, ?_, h.kpgdir, h.apstacks, ?_, ?_,
    h.proc, h.file, h.pipe⟩, ?_⟩
  · have ho' := (hown q).1 ho
    rcases (hmem q).1 hq with hin | hin
    · exact h.wf.apart q hin ho'
    · exact absurd (hlow q (Or.inr ho')) (Nat.not_lt.2 hin.1)
  · exact fun v hge hlt => (hpte v hlt).trans (h.kern v hge hlt)
  · refine List.nodup_append.2 ⟨hdisj.1, hpool.nodup, fun a ha b hb => ?_⟩
    rcases (hmem b).1 hb with hin | hin
    · exact hdisj.2.2 a ha b hin
    · have := hlow a (Or.inl (List.mem_append_left _ ha))
      have := hin.1
      omega
  · exact fun q hq => ⟨(h.page q hq).1, fun ho => (h.page q hq).2 ((hown q).1 ho)⟩
  · exact length_ge (a := 1024) (b := 57344) fun q hq => (hmem q).2 (Or.inr hq)

theorem Booting.sound (h : Booting L k free d aps) : Sound L k.kmem (ledger k free) := by
  have hdisj := List.nodup_append.1 h.nodup
  have hspace : ∀ i, ¬hasSpace (k.proc i) := fun i hsp => hsp.1 (by rw [h.proc i]; rfl)
  have hdir : ∀ o e, dirOf k o = some e → o = .kernel ∧ e = d := by
    intro o e ho
    cases o with
    | kernel =>
      refine ⟨rfl, ?_⟩
      rw [dirOf, h.kpgdir, V2P_kva_div h.wf.dir_lt] at ho
      exact (Option.some.inj ho).symm
    | proc i =>
      rw [dirOf, if_neg fun hi => hspace i hi.2] at ho
      cases ho
    | fresh => cases ho
  have hwhole : ∀ x q, wholeOf k x q → ∃ i, x = .apstack i ∧ aps[i]? = some q := by
    intro x q hx
    cases x with
    | apstack i =>
      refine ⟨i, rfl, ?_⟩
      have hat : k.apstacks[i]? = some (kva q) := hx
      rw [h.apstacks, List.getElem?_map] at hat
      obtain ⟨q', hq', heq⟩ := Option.map_eq_some_iff.1 hat
      rw [hq', kva_inj heq]
    | kstack i =>
      have hat := hx.2
      rw [h.proc i] at hat
      exact absurd hat.symm (kva_ne_zero q)
    | pipe =>
      obtain ⟨hr, hw⟩ := h.pipe (kva q)
      rcases hx with hx | hx
      · rw [hr] at hx
        cases hx
      · rw [hw] at hx
        cases hx
  -- what a page is used for, whatever role it is looked up under
  have hrole : ∀ r q, (ledger k free).holds k.kmem.mem r q →
      r = .free ∧ q ∈ free ∨ (∃ i, r = .whole (.apstack i) ∧ aps[i]? = some q) ∨
        ∃ u, r = .space .kernel u ∧ Vm.holds k.kmem.mem d u q := by
    intro r q hr
    cases r with
    | free => exact Or.inl ⟨rfl, hr⟩
    | whole x =>
      obtain ⟨i, rfl, hi⟩ := hwhole x q hr
      exact Or.inr (Or.inl ⟨i, rfl, hi⟩)
    | space o u =>
      obtain ⟨e, ho, hu⟩ := hr
      obtain ⟨rfl, rfl⟩ := hdir o e ho
      exact Or.inr (Or.inr ⟨u, rfl, hu⟩)
  refine ⟨h.wf.pool, fun r r' q hr hr' => ?_, fun r q hr => ?_, fun o e ho => ?_, fun o e ho => ?_⟩
  · rcases hrole r q hr with ⟨rfl, hin⟩ | ⟨i, rfl, hi⟩ | ⟨u, rfl, hu⟩ <;>
      rcases hrole r' q hr' with ⟨rfl, hin'⟩ | ⟨i', rfl, hi'⟩ | ⟨u', rfl, hu'⟩
    · rfl
    · exact absurd rfl (hdisj.2.2 q (List.mem_of_getElem? hi') q hin)
    · exact absurd ⟨u', hu'⟩ (h.wf.apart q hin)
    · exact absurd rfl (hdisj.2.2 q (List.mem_of_getElem? hi) q hin')
    · obtain ⟨hlt, -⟩ := List.getElem?_eq_some_iff.1 hi
      rw [(List.getElem?_inj hlt hdisj.1).1 (hi.trans hi'.symm)]
    · exact absurd ⟨u', hu'⟩ (h.page q (List.mem_of_getElem? hi)).2
    · exact absurd ⟨u, hu⟩ (h.wf.apart q hin')
    · exact absurd ⟨u, hu⟩ (h.page q (List.mem_of_getElem? hi')).2
    · rw [h.wf.tree.exclusive hu hu']
  · rcases hrole r q hr with ⟨-, hin⟩ | ⟨i, -, hi⟩ | ⟨u, -, hu⟩
    · exact h.wf.pool.page q hin
    · exact (h.page q (List.mem_of_getElem? hi)).1
    · exact h.wf.tree.page q ⟨u, hu⟩
  · obtain ⟨-, rfl⟩ := hdir o e ho
    exact h.wf.tree.user
  · obtain ⟨-, rfl⟩ := hdir o e ho
    exact h.kern

theorem Booting.inv (h : Booting L k free d aps) : Inv L k free := by
  have hspace : ∀ i, ¬hasSpace (k.proc i) := fun i hsp => hsp.1 (by rw [h.proc i]; rfl)
  have htype : ∀ i, (k.file i).type ≠ .pipe := fun i => by rw [h.file i]; simp
  exact ⟨h.sound, fun i _ hsp => absurd hsp (hspace i), fun i _ hsp => absurd hsp (hspace i),
    fun i _ _ => by rw [h.proc i]; rfl, fun i _ hsp => absurd hsp (hspace i),
    ⟨fun i _ => h.file i, fun i hi => absurd hi (htype i), fun i hi => absurd hi (htype i),
      fun i _ hi => absurd hi (htype i)⟩⟩

end Memory

section First

theorem allocproc_first (hp : Pool L k.kmem (f :: free)) (h0 : (k.proc 0).state = .unused) :
    allocproc k = .ret (some 0,
      slotTaken k 0 { k.kmem with freelist := k.kmem.mem.word f 0 } .embryo (kva f)) := by
  have hfind : ((List.range NPROC).find? fun i => decide ((k.proc i).state = .unused)) = some 0 := by
    rw [show NPROC = 63 + 1 from rfl, List.range_succ_eq_map]
    exact List.find?_cons_of_pos (by simpa using h0)
  unfold allocproc
  rw [Prog.get_bind, hfind]
  simp only [setProc, Prog.bind_apply, Prog.modify_apply, Outcome.ret_bind]
  rw [onMem_of_ret (k := { k with
      proc := Function.update k.proc 0 { k.proc 0 with state := .embryo, pid := k.nextpid }
      nextpid := k.nextpid + 1 }) hp.kalloc_cons]
  simp only [Outcome.ret_bind, if_neg (kva_ne_zero f), Function.update_self, Function.update_idem]
  rfl

def started (k : Kernel) (pgdir : ℕ) (s : Kmem) : Kernel :=
  { k with
    kmem := s
    initproc := 0
    proc := Function.update k.proc 0
      { k.proc 0 with pgdir := pgdir, sz := PGSIZE, tf := ⟨0, 0, PGSIZE⟩, state := .runnable } }

theorem started_proc (k : Kernel) (pgdir : ℕ) (s : Kmem) : (started k pgdir s).proc 0 =
    { k.proc 0 with pgdir := pgdir, sz := PGSIZE, tf := ⟨0, 0, PGSIZE⟩, state := .runnable } :=
  Function.update_self 0 _ k.proc

theorem userinit_run {s₁ s₂ : Kmem} {initcode : Bytes} (halloc : allocproc k = .ret (some 0, k'))
    (hsetup : setupkvm L k'.kmem = .ret (kva d, s₁))
    (hinit : inituvm (kva d) initcode n s₁ = .ret ((), s₂)) :
    userinit L initcode n k = .ret ((), started k' (kva d) s₂) := by
  have hmem : onMem (setupkvm L) { k' with initproc := 0 } =
      .ret (kva d, { k' with initproc := 0, kmem := s₁ }) := onMem_of_ret hsetup
  have hcode : onMem (inituvm (kva d) initcode n) { k' with
        initproc := 0, kmem := s₁
        proc := Function.update k'.proc 0 { k'.proc 0 with pgdir := kva d } } =
      .ret ((), { k' with
        initproc := 0, kmem := s₂
        proc := Function.update k'.proc 0 { k'.proc 0 with pgdir := kva d } }) := onMem_of_ret hinit
  unfold userinit
  rw [Prog.bind_of_ret halloc]
  simp only
  rw [Prog.bind_apply, Prog.modify_apply, Outcome.ret_bind]
  simp only
  rw [Prog.bind_of_ret hmem]
  simp only [setProc]
  rw [Prog.bind_apply, Prog.modify_apply, Outcome.ret_bind, if_neg (kva_ne_zero d)]
  simp only
  rw [Prog.bind_of_ret hcode]
  simp [started]

structure First (k : Kernel) : Prop where
  state : (k.proc 0).state = .runnable
  killed : ∀ j, (k.proc j).killed = false
  others : ∀ j, j ≠ 0 → (k.proc j).state = .unused
  space : spaceOf k 0 = ⟨PGSIZE, 0, {0}⟩
  initproc : k.initproc = 0

theorem Booting.userinit {aps : List ℕ} (h : Booting L k free d aps) (hn : n < PGSIZE)
    (hlen : 70 ≤ free.length) (initcode : Bytes) :
    ∃ k' free', userinit L initcode n k = .ret ((), k') ∧ Inv L k' free' ∧ First k' ∧
      free.length ≤ free'.length + 70 := by
  obtain ⟨f, free, rfl⟩ := List.exists_cons_of_length_pos (show 0 < free.length by omega)
  rw [List.length_cons] at hlen ⊢
  have halloc := allocproc_first h.wf.pool (by rw [h.proc 0]; rfl)
  obtain ⟨f', free', hcons, he⟩ := allocproc_some h.inv halloc
  obtain ⟨rfl, rfl⟩ := List.cons.inj hcons
  generalize slotTaken k 0 { k.kmem with freelist := k.kmem.mem.word f 0 } .embryo (kva f) = k₁
    at halloc he
  generalize hsetup : setupkvm L k₁.kmem = o
  have hspec := setupkvm_spec he.inv.sound.pool
  rw [hsetup] at hspec
  cases hspec with
  | failed _ _ _ hlt => exact absurd hlt (by simp only [ledger]; omega)
  | @built d s₁ free₁ hw hk hu hc hm hlen₁ =>
    simp only [ledger] at hc hm hlen₁
    obtain ⟨s₂, free₂, hinit, hw₂, hm₂, hpres, hlen₂⟩ :=
      inituvm_spec initcode hw hn (hu 0 (by decide)) (by omega)
    have hzero : ∀ v ∈ ({0} : Set ℕ), v < UPAGES := fun v hv => by
      rw [Set.mem_singleton_iff.1 hv]
      decide
    have hfresh : Fresh L k₁.kmem free d s₂ free₂ :=
      Fresh.moved ⟨hw, hk, hc, hm⟩ hw₂ hm₂ hzero
    have hproc := started_proc k₁ (kva d) s₂
    have hs : SlotOnly 0 k₁ (started k₁ (kva d) s₂) := ⟨(SlotOnly.setProc _).proc, rfl, rfl, rfl⟩
    have hkstack : (k₁.proc 0).kstack = kva f := by rw [he.proc]
    obtain ⟨hinv, -⟩ := he.inv.enter hs he.lt ⟨f, hkstack⟩
      (by rw [hproc]; exact ⟨State.noConfusion, State.noConfusion⟩) (by rw [hproc]) (by rw [hproc])
      (by rw [hproc]; exact (by decide : PGSIZE ≤ KERNBASE)) hfresh.wf hfresh.kern
      (fun q hq => (hfresh.conserve q).1 hq) hfresh.other (he.inv.pipes.congr rfl rfl)
    refine ⟨_, free₂, userinit_run halloc hsetup hinit, hinv, ⟨?_, ?_, fun j hj => ?_, ?_, rfl⟩,
      by omega⟩
    · rw [hproc]
    · intro j
      by_cases hj : j = 0
      · subst hj
        rw [hproc, he.proc, h.proc 0]
        rfl
      · rw [show (started k₁ (kva d) s₂).proc j = k₁.proc j from Function.update_of_ne hj _ _,
          he.other hj, h.proc j]
        rfl
    · rw [(hs.proc j hj).state, he.other hj, h.proc j]
      rfl
    · have hd : V2P ((started k₁ (kva d) s₂).proc 0).pgdir / PGSIZE = d := by
        rw [hproc]
        exact V2P_kva_div hw.dir_lt
      refine spaceOf_ext (by rw [hproc]) (by rw [hproc, he.proc, h.proc 0]; rfl) hd
        (Set.ext fun v => ?_)
      rw [Set.mem_singleton_iff]
      constructor
      · rintro ⟨hv, hp⟩
        by_contra hne
        rw [started, hm₂.outside v (hv.trans UPAGES_lt) hne, hu v hv] at hp
        cases hp
      · rintro rfl
        exact ⟨by decide, hpres⟩

end First

/-- The kernel always comes up, with its page invariant and 220 MB to spare. -/
theorem boot_spec {ncpu : ℕ} (hcpu : ncpu ≤ NCPU) (hn : n < PGSIZE) (initcode : Bytes) (m : Pages) :
    ∃ k free, boot L ncpu initcode n (loaded m) = .ret ((), k) ∧ Inv L k free ∧ First k ∧
      56250 ≤ free.length := by
  have hC : NCPU = 8 := rfl
  obtain ⟨-, hfirst, -⟩ := L.first_bounds
  obtain ⟨s₁, free₁, hinit₁, hpool₁, hmem₁⟩ := kinit1_spec (L := L) m
  have hlen₁ := length_ge (l := free₁) fun q hq => (hmem₁ q).2 hq
  obtain ⟨k₂, free₂, d, hkvm, h₂, hlow₂, hlen₂⟩ := kvmalloc_spec (m := m) hpool₁
    (fun q hq => ((hmem₁ q).1 hq).2) (by omega)
  obtain ⟨k₃, free₃, aps, hothers, h₃, hmem₃, hsub⟩ := startothers_spec (n := ncpu - 1) h₂ (by omega)
  have hlow₃ : Booting.Low k₃.kmem.mem free₃ d aps := by
    intro q hq
    refine hlow₂ q (hq.imp (fun hin => ?_) fun ho => ?_)
    · exact hsub q hin
    · rwa [hmem₃] at ho
  obtain ⟨s₄, free₄, hinit₂, h₄, hlen₄⟩ := h₃.kinit2 hlow₃
  obtain ⟨k, free, huser, hinv, hfirst, hlen⟩ := h₄.userinit hn (by omega) initcode
  refine ⟨k, free, ?_, hinv, hfirst, by omega⟩
  unfold boot
  rw [Prog.bind_of_ret (onMem_of_ret (k := loaded m) hinit₁), Prog.bind_of_ret hkvm,
    Prog.bind_of_ret hothers, Prog.bind_of_ret (onMem_of_ret hinit₂)]
  exact huser

end Xv6.Sys
