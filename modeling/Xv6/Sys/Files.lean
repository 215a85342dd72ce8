import Xv6.Sys.Invariant

/-!
# Files and pipes keep the invariant

A call is `Safe` when it takes any kernel with the invariant to one with the invariant
and changes no process's memory.
-/

namespace Xv6.Sys
open Lib Vm

variable {L : Link} {k k' k'' : Kernel} {free free' : List ℕ} {p f : ℕ} {α β : Type}

def Safe (L : Link) (x : Prog Kernel α) : Prop :=
  ∀ ⦃k free a k'⦄, Inv L k free → x k = .ret (a, k') → ∃ free', Inv L k' free' ∧ Keeps k k'

namespace Safe

theorem bind {x : Prog Kernel α} {g : α → Prog Kernel β} (hx : Safe L x) (hg : ∀ a, Safe L (g a)) :
    Safe L (x >>= g) := by
  intro k free b k' h hrun
  obtain ⟨a, k₁, h₁, h₂⟩ := Prog.bind_ret hrun
  obtain ⟨free₁, hi₁, hk₁⟩ := hx h h₁
  obtain ⟨free', hi', hk'⟩ := hg a hi₁ h₂
  exact ⟨free', hi', hk₁.trans hk'⟩

theorem pure (a : α) : Safe L (Pure.pure a : Prog Kernel α) := by
  intro k free b k' h hrun
  cases Prog.pure_ret hrun
  exact ⟨free, h, .refl _⟩

theorem get : Safe L (Prog.get : Prog Kernel Kernel) := by
  intro k free b k' h hrun
  obtain ⟨-, rfl⟩ := Outcome.ret_inj hrun
  exact ⟨free, h, .refl _⟩

theorem panic (m : String) : Safe L (Prog.panic m : Prog Kernel α) :=
  fun _ _ _ _ _ hrun => by simp at hrun

theorem setProc (i : ℕ) {g : Proc → Proc} (hg : ∀ x, SameSpace x (g x)) :
    Safe L (Sys.setProc i g) := by
  intro k free b k' h hrun
  cases Prog.modify_ret hrun
  have hk : Keeps k { k with proc := Function.update k.proc i (g (k.proc i)) } := by
    refine ⟨fun j => ?_, fun _ _ _ _ _ => rfl, rfl, rfl, rfl⟩
    by_cases hj : j = i
    · subst hj
      simpa using hg (k.proc j)
    · simpa [hj] using SameSpace.refl (k.proc j)
  exact ⟨free, hk.inv h (hk.sound h rfl fun _ => Iff.rfl) ⟨h.pipes.unused, h.pipes.page, h.pipes.opened,
    h.pipes.ends⟩, hk⟩

end Safe

theorem Inv.file (h : Inv L k free) {y : File} (hpipe : y.pipe = (k.file f).pipe)
    (hw : y.writable = (k.file f).writable) (ht : y.type = (k.file f).type ∨ y.type = .none)
    (href : y.ref = 0 → y.type = .none) :
    Inv L { k with file := Function.update k.file f y } free ∧
      Keeps k { k with file := Function.update k.file f y } := by
  have hk : Keeps k { k with file := Function.update k.file f y } :=
    ⟨fun _ => .refl _, fun _ _ _ _ _ => rfl, rfl, rfl, rfl⟩
  have hfile : ∀ j, (Function.update k.file f y j).type = .pipe → (k.file j).type = .pipe ∧
      (Function.update k.file f y j).pipe = (k.file j).pipe ∧
      (Function.update k.file f y j).writable = (k.file j).writable := by
    intro j hj
    by_cases hjf : j = f
    · subst hjf
      simp only [Function.update_self] at hj ⊢
      exact ⟨(ht.resolve_right (by simp [hj])).symm.trans hj, hpipe, hw⟩
    · simpa [hjf] using hj
  refine ⟨hk.inv h (hk.sound h rfl fun _ => Iff.rfl) ⟨fun j hj => ?_, fun j hj => ?_, fun j hj => ?_,
    fun j j' hj hj' hpp hww => ?_⟩, hk⟩
  · by_cases hjf : j = f
    · subst hjf
      simp only [Function.update_self] at hj ⊢
      exact href hj
    · simp only [Function.update_of_ne hjf] at hj ⊢
      exact h.pipes.unused j hj
  · rw [(hfile j hj).2.1]
    exact h.pipes.page j (hfile j hj).1
  · simp only [(hfile j hj).2.1, (hfile j hj).2.2]
    exact h.pipes.opened j (hfile j hj).1
  · rw [(hfile j hj).2.1, (hfile j' hj').2.1] at hpp
    rw [(hfile j hj).2.2, (hfile j' hj').2.2] at hww
    exact h.pipes.ends j j' (hfile j hj).1 (hfile j' hj').1 hpp hww

theorem Safe.setRef (f : ℕ) {g : File → File} (hg : ∀ x, g x = { x with ref := (g x).ref })
    (href : ∀ x, (g x).ref ≠ 0) : Safe L (setFile f g) := by
  intro k free b k' h hrun
  cases Prog.modify_ret hrun
  have hy := hg (k.file f)
  exact ⟨free, h.file (by rw [hy]) (by rw [hy]) (Or.inl (by rw [hy])) fun h0 => absurd h0 (href _)⟩

theorem filedup_safe (f : ℕ) : Safe L (filedup f) := by
  refine Safe.get.bind fun k => ?_
  split
  · exact .panic _
  · exact .setRef f (fun x => rfl) fun x => by simp

theorem filealloc_safe : Safe L filealloc := by
  refine Safe.get.bind fun k => ?_
  split
  · exact Safe.bind (.setRef _ (fun x => rfl) fun x => by simp) fun _ => .pure _
  · exact .pure _

theorem fdalloc_safe (p f : ℕ) : Safe L (fdalloc p f) := by
  refine Safe.get.bind fun k => ?_
  split
  · refine Safe.bind (.setProc p ?_) fun _ => .pure _
    exact fun x => ⟨rfl, rfl, rfl, rfl, rfl⟩
  · exact .pure _

theorem pipeclose_safe (h : Inv L k free) {a q : ℕ} {w : Bool} (ha : a = kva q)
    (hopen : (if w then (k.pipe a).writeopen else (k.pipe a).readopen) = true)
    (hno : ∀ f, (k.file f).type = .pipe → (k.file f).pipe = a → (k.file f).writable ≠ w) {u : Unit}
    (hrun : pipeclose L a w k = .ret (u, k')) : ∃ free', Inv L k' free' ∧ Keeps k k' := by
  subst ha
  -- the end is closed, and the page goes back with the second end
  obtain ⟨pp, hpp, hrun⟩ : ∃ pp : Pipe,
      (∀ b, b ≠ w → (if b then pp.writeopen else pp.readopen) =
        if b then (k.pipe (kva q)).writeopen else (k.pipe (kva q)).readopen) ∧
      (if pp.readopen = false ∧ pp.writeopen = false then onMem (kfree L (kva q)) else pure ())
        { k with pipe := Function.update k.pipe (kva q) pp } = .ret (u, k') := by
    cases w with
    | true =>
      refine ⟨{ k.pipe (kva q) with writeopen := false }, by simp, ?_⟩
      simpa [pipeclose, setPipe] using hrun
    | false =>
      refine ⟨{ k.pipe (kva q) with readopen := false }, by simp, ?_⟩
      simpa [pipeclose, setPipe] using hrun
  have hwas : (ledger k free).page .pipe q := by
    cases w with
    | true => exact Or.inr hopen
    | false => exact Or.inl hopen
  have hpipes : ∀ {s}, Pipes { k with kmem := s, pipe := Function.update k.pipe (kva q) pp } := by
    refine fun {s} => ⟨h.pipes.unused, h.pipes.page, fun f hf => ?_, h.pipes.ends⟩
    by_cases hq : (k.file f).pipe = kva q
    · simp only [hq, Function.update_self]
      rw [hpp _ (hno f hf hq), ← hq]
      exact h.pipes.opened f hf
    · simp only [Function.update_of_ne hq]
      exact h.pipes.opened f hf
  split_ifs at hrun with hboth
  · obtain ⟨_, s', hfree, hk'⟩ := onMem_ret hrun
    obtain ⟨-, rfl⟩ := Prod.mk.inj hk'
    obtain ⟨s₁, hrun₁, hpool, hmem⟩ := h.sound.pool.kfree (h.sound.page (.whole .pipe) q hwas)
      (h.sound.whole_not_free hwas)
    obtain ⟨-, rfl⟩ := Outcome.ret_inj (hrun₁.symm.trans hfree)
    have hk : Keeps k { k with kmem := s₁, pipe := Function.update k.pipe (kva q) pp } :=
      ⟨fun _ => .refl _, fun o d hd => (h.sound.pte_eq hd (Or.inr ⟨_, hwas⟩) hmem).2, rfl, rfl, rfl⟩
    have hdone : ∀ x, ¬wholeOf { k with kmem := s₁, pipe := Function.update k.pipe (kva q) pp } x q := by
      intro x hx
      cases x with
      | pipe => simp [wholeOf, hboth] at hx
      | apstack i => simpa using h.sound.whole_inj (x := .apstack i) hx hwas
      | kstack i => simpa using h.sound.whole_inj (x := .kstack i) hx hwas
    refine ⟨q :: free, hk.inv h ?_ hpipes, hk⟩
    refine h.sound.whole hpool (Or.inr ⟨_, hwas⟩) hmem (fun p hp => (List.mem_cons.mp hp).symm)
      (fun x p hx => ?_) ⟨fun _ => hdone, fun x _ hx => absurd hx (hdone x)⟩
    by_cases hpq : p = q
    · exact Or.inr hpq
    · cases x with
      | pipe =>
        simp only [wholeOf, Function.update_of_ne fun heq => hpq (kva_inj heq)] at hx
        exact Or.inl hx
      | apstack i => exact Or.inl hx
      | kstack i => exact Or.inl hx
  · cases Prog.pure_ret hrun
    have hk : Keeps k { k with pipe := Function.update k.pipe (kva q) pp } :=
      ⟨fun _ => .refl _, fun _ _ _ _ _ => rfl, rfl, rfl, rfl⟩
    refine ⟨free, hk.inv h ?_ hpipes, hk⟩
    refine hk.sound h rfl fun p => ?_
    by_cases hpq : p = q
    · subst hpq
      simp only [not_and_or, Bool.not_eq_false] at hboth
      exact iff_of_true (by simpa [wholeOf] using hboth) hwas
    · simp only [wholeOf, Function.update_of_ne fun heq => hpq (kva_inj heq)]

theorem fileclose_safe (f : ℕ) : Safe L (fileclose L f) := by
  intro k free b k' h hrun
  simp only [fileclose, Prog.get_bind] at hrun
  split_ifs at hrun with h₁ h₂ h₃
  · simp at hrun
  · cases Prog.modify_ret hrun
    exact ⟨free, h.file rfl rfl (Or.inl rfl) fun h0 => by simp only at h0; omega⟩
  · obtain ⟨u, k₁, hset, hclose⟩ := Prog.bind_ret hrun
    cases Prog.modify_ret hset
    obtain ⟨q, hq⟩ := h.pipes.page f h₃
    obtain ⟨h', hk'⟩ := h.file (f := f) (y := { k.file f with ref := 0, type := .none }) rfl rfl
      (Or.inr rfl) fun _ => rfl
    obtain ⟨free', hi, hk⟩ := pipeclose_safe h' hq (h.pipes.opened f h₃) (fun j hj hpj hwj => by
      by_cases hjf : j = f
      · subst hjf
        simp at hj
      · simp only [Function.update_of_ne hjf] at hj hpj hwj
        exact hjf (h.pipes.ends j f hj h₃ hpj hwj)) hclose
    exact ⟨free', hi, hk'.trans hk⟩
  · obtain ⟨u, k₁, hset, hret⟩ := Prog.bind_ret hrun
    cases Prog.modify_ret hset
    cases Prog.pure_ret hret
    exact ⟨free, h.file rfl rfl (Or.inr rfl) fun _ => rfl⟩

theorem filealloc_some (hrun : filealloc k = .ret (some f, k')) : (k.file f).ref = 0 ∧
    k' = { k with file := Function.update k.file f { k.file f with ref := 1 } } := by
  simp only [filealloc, Prog.get_bind] at hrun
  generalize hfind : (List.range NFILE).find? _ = o at hrun
  cases o with
  | some i =>
    obtain ⟨_, k₁, hset, hret⟩ := Prog.bind_ret hrun
    cases Prog.modify_ret hset
    obtain ⟨hf, rfl⟩ := Prod.mk.inj (Prog.pure_ret hret)
    obtain rfl : f = i := by simpa using hf
    exact ⟨by simpa using List.find?_some hfind, rfl⟩
  | none =>
    obtain ⟨hf, -⟩ := Prod.mk.inj (Prog.pure_ret hrun)
    simp at hf

theorem openPipe (h : Inv L k (f :: free)) {f₀ f₁ : ℕ} (hne : f₀ ≠ f₁) {x₀ x₁ : File}
    (hx₀ : x₀.ref ≠ 0 ∧ x₀.writable = false ∧ x₀.pipe = kva f)
    (hx₁ : x₁.ref ≠ 0 ∧ x₁.writable = true ∧ x₁.pipe = kva f)
    (hk' : k' = { k with
      kmem := { k.kmem with freelist := k.kmem.mem.word f 0 }
      pipe := Function.update k.pipe (kva f) ⟨0, 0, true, true⟩
      file := Function.update (Function.update k.file f₀ x₀) f₁ x₁ }) :
    Inv L k' free ∧ Keeps k k' := by
  subst hk'
  have hnew : ∀ j, (k.file j).type = .pipe → (k.file j).pipe ≠ kva f := by
    intro j hj heq
    have hopen := h.pipes.opened j hj
    rw [heq] at hopen
    have hw : (ledger k (f :: free)).page .pipe f := by
      cases hb : (k.file j).writable <;> simp only [hb, if_true, Bool.false_eq_true, if_false] at hopen
      · exact Or.inl hopen
      · exact Or.inr hopen
    exact h.sound.whole_not_free hw (List.mem_cons_self ..)
  have hcases : ∀ j, (Function.update (Function.update k.file f₀ x₀) f₁ x₁ j = x₀ ∧ j = f₀) ∨
      (Function.update (Function.update k.file f₀ x₀) f₁ x₁ j = x₁ ∧ j = f₁) ∨
      Function.update (Function.update k.file f₀ x₀) f₁ x₁ j = k.file j := by
    intro j
    by_cases h₁ : j = f₁
    · subst h₁
      simp
    · by_cases h₀ : j = f₀
      · subst h₀
        simp [hne]
      · simp [h₁, h₀]
  have hpipes : Pipes { k with
      kmem := { k.kmem with freelist := k.kmem.mem.word f 0 }
      pipe := Function.update k.pipe (kva f) ⟨0, 0, true, true⟩
      file := Function.update (Function.update k.file f₀ x₀) f₁ x₁ } := by
    constructor
    · intro j hj
      rcases hcases j with ⟨heq, -⟩ | ⟨heq, -⟩ | heq <;> simp only [heq] at hj ⊢
      · exact absurd hj hx₀.1
      · exact absurd hj hx₁.1
      · exact h.pipes.unused j hj
    · intro j hj
      rcases hcases j with ⟨heq, -⟩ | ⟨heq, -⟩ | heq <;> simp only [heq] at hj ⊢
      · exact ⟨f, hx₀.2.2⟩
      · exact ⟨f, hx₁.2.2⟩
      · exact h.pipes.page j hj
    · intro j hj
      rcases hcases j with ⟨heq, -⟩ | ⟨heq, -⟩ | heq <;> simp only [heq] at hj ⊢
      · simp [hx₀.2]
      · simp [hx₁.2]
      · simp only [Function.update_of_ne (hnew j hj)]
        exact h.pipes.opened j hj
    · intro j j' hj hj' hpp hww
      rcases hcases j with ⟨heq, rfl⟩ | ⟨heq, rfl⟩ | heq <;>
        rcases hcases j' with ⟨heq', rfl⟩ | ⟨heq', rfl⟩ | heq' <;>
        simp only [heq, heq', hx₀.2, hx₁.2] at hj hj' hpp hww <;>
        first
        | rfl
        | exact absurd hww (by decide)
        | exact absurd hpp (hnew _ hj)
        | exact absurd hpp.symm (hnew _ hj')
        | exact h.pipes.ends _ _ hj hj' hpp hww
  have hk : Keeps k { k with
      kmem := { k.kmem with freelist := k.kmem.mem.word f 0 }
      pipe := Function.update k.pipe (kva f) ⟨0, 0, true, true⟩
      file := Function.update (Function.update k.file f₀ x₀) f₁ x₁ } :=
    ⟨fun _ => .refl _, fun _ _ _ _ _ => rfl, rfl, rfl, rfl⟩
  refine ⟨hk.inv h ?_ hpipes, hk⟩
  have hnodup := List.nodup_cons.mp h.sound.pool.nodup
  have hold : ∀ x, ¬(ledger k (f :: free)).page x f := fun x hx =>
    h.sound.whole_not_free hx (List.mem_cons_self ..)
  have honly : ∀ x, wholeOf { k with
      kmem := { k.kmem with freelist := k.kmem.mem.word f 0 }
      pipe := Function.update k.pipe (kva f) ⟨0, 0, true, true⟩
      file := Function.update (Function.update k.file f₀ x₀) f₁ x₁ } x f → x = .pipe := by
    intro x hx
    cases x with
    | pipe => rfl
    | apstack i => exact absurd hx (hold (.apstack i))
    | kstack i => exact absurd hx (hold (.kstack i))
  refine h.sound.whole (f := f) h.sound.pool.tail (Or.inl (List.mem_cons_self ..)) (fun _ _ => rfl)
    (fun p hp => Or.inl (List.mem_cons_of_mem _ hp)) (fun x p hx => ?_)
    ⟨fun hin => absurd hin hnodup.1, fun x y hx hy => (honly x hx).trans (honly y hy).symm⟩
  by_cases hpf : p = f
  · exact Or.inr hpf
  · cases x with
    | pipe =>
      simp only [wholeOf, Function.update_of_ne fun heq => hpf (kva_inj heq)] at hx
      exact Or.inl hx
    | apstack i => exact Or.inl hx
    | kstack i => exact Or.inl hx

theorem pipealloc_safe : Safe L (pipealloc L) := by
  intro k free r k' h hrun
  obtain ⟨o₀, k₀, h₀, hrun⟩ := Prog.bind_ret hrun
  obtain ⟨free₀, hi₀, hk₀⟩ := filealloc_safe h h₀
  cases o₀ with
  | none => exact Safe.pure _ hi₀ hrun |>.imp fun _ hr => ⟨hr.1, hk₀.trans hr.2⟩
  | some f₀ =>
    obtain ⟨o₁, k₁, h₁, hrun⟩ := Prog.bind_ret hrun
    obtain ⟨free₁, hi₁, hk₁⟩ := filealloc_safe hi₀ h₁
    have hk₁ := hk₀.trans hk₁
    cases o₁ with
    | none =>
      obtain ⟨free', hi', hk'⟩ := (fileclose_safe f₀).bind (fun _ => .pure none) hi₁ hrun
      exact ⟨free', hi', hk₁.trans hk'⟩
    | some f₁ =>
      obtain ⟨a, k₂, h₂, hrun⟩ := Prog.bind_ret hrun
      obtain ⟨a, s, halloc, hk₂⟩ := onMem_ret h₂
      obtain ⟨rfl, rfl⟩ := Prod.mk.inj hk₂
      cases free₁ with
      | nil =>
        rw [hi₁.sound.pool.kalloc_nil] at halloc
        obtain ⟨rfl, rfl⟩ := Outcome.ret_inj halloc
        obtain ⟨free', hi', hk'⟩ := (fileclose_safe f₀).bind
          (fun _ => (fileclose_safe f₁).bind fun _ => .pure none) hi₁ hrun
        exact ⟨free', hi', hk₁.trans hk'⟩
      | cons f free₁ =>
        rw [hi₁.sound.pool.kalloc_cons] at halloc
        obtain ⟨rfl, rfl⟩ := Outcome.ret_inj halloc
        obtain ⟨hr₀, hr₁, hne⟩ : (k₁.file f₀).ref ≠ 0 ∧ (k₁.file f₁).ref ≠ 0 ∧ f₀ ≠ f₁ := by
          obtain ⟨-, rfl⟩ := filealloc_some h₀
          obtain ⟨href, rfl⟩ := filealloc_some h₁
          have hne : f₀ ≠ f₁ := by
            rintro rfl
            simp at href
          simp [hne]
        simp only [kva_ne_zero, if_false, setPipe, setFile, Prog.bind_apply, Prog.modify_apply,
          Outcome.ret_bind, Prog.pure_apply, Outcome.ret.injEq, Prod.mk.injEq] at hrun
        obtain ⟨hi', hk'⟩ := openPipe hi₁ hne ⟨by exact hr₀, rfl, rfl⟩
          ⟨by simpa [hne.symm] using hr₁, rfl, rfl⟩ hrun.2.symm
        exact ⟨free₁, hi', hk₁.trans hk'⟩

theorem sysPipe_safe (p : ℕ) : Safe L (sysPipe L p) := by
  refine pipealloc_safe.bind fun o => ?_
  match o with
  | none => exact .pure _
  | some (rf, wf) =>
    have hclose : Safe L (do
        fileclose L rf
        fileclose L wf
        return none : Prog Kernel (Option (ℕ × ℕ))) :=
      (fileclose_safe rf).bind fun _ => (fileclose_safe wf).bind fun _ => .pure _
    refine (fdalloc_safe p rf).bind fun o => ?_
    match o with
    | none => exact hclose
    | some fd0 =>
      refine (fdalloc_safe p wf).bind fun o => ?_
      match o with
      | none =>
        refine Safe.bind (.setProc p ?_) fun _ => hclose
        exact fun x => ⟨rfl, rfl, rfl, rfl, rfl⟩
      | some fd1 => exact .pure _

theorem argfd_safe (p fd : ℕ) : Safe L (argfd p fd) := by
  intro k free b k' h hrun
  obtain ⟨-, rfl⟩ := Outcome.ret_inj hrun
  exact ⟨free, h, .refl _⟩

theorem sysDup_safe (p fd : ℕ) : Safe L (sysDup p fd) := by
  refine (argfd_safe p fd).bind fun o => ?_
  match o with
  | none => exact .pure _
  | some f =>
    refine (fdalloc_safe p f).bind fun o => ?_
    match o with
    | none => exact .pure _
    | some fd' => exact (filedup_safe f).bind fun _ => .pure _

theorem sysClose_safe (p fd : ℕ) : Safe L (sysClose L p fd) := by
  refine (argfd_safe p fd).bind fun o => ?_
  match o with
  | none => exact .pure _
  | some f =>
    refine Safe.bind (.setProc p ?_) fun _ => (fileclose_safe f).bind fun _ => .pure _
    exact fun x => ⟨rfl, rfl, rfl, rfl, rfl⟩

theorem closeFiles_safe (p : ℕ) (fds : List ℕ) : Safe L (closeFiles L p fds) := by
  induction fds with
  | nil => exact .pure _
  | cons fd fds ih =>
    refine Safe.get.bind fun k => ?_
    split
    · next f _ =>
      refine (fileclose_safe f).bind fun _ => ?_
      refine Safe.bind (.setProc p ?_) fun _ => ih
      exact fun x => ⟨rfl, rfl, rfl, rfl, rfl⟩
    · exact ih

end Xv6.Sys
