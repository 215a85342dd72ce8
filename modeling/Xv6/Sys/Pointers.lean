import Xv6.Sys.Memory
import Xv6.Sys.Overrun

/-!
# The checks on system-call arguments

`fetchint`, `fetchstr` and `argptr` compare an address with `STACK_TOP` only. The first two then
read the bytes, so that a page which is not there is brought in by the page-fault handler or the
kernel does not come back. `argptr` reads nothing of the block it accepts: it may lie in the gap
between the heap and the stack.
-/

namespace Xv6.Sys
open Lib Vm

variable {L : Link} {k k' k'' : Kernel} {free : List ℕ} {p d f a va n len : ℕ}

/-- The `len` bytes from `a` on are below `KERNBASE` and in pages that the user may touch. -/
structure Within (k : Kernel) (p a len : ℕ) : Prop where
  below : a + len ≤ KERNBASE
  mapped : ∀ x, a ≤ x → x < a + len → (userFrame k p x).isSome

structure Grows (L : Link) (p d : ℕ) (k k' : Kernel) : Prop where
  caller : ∃ free, Caller L k' free p d
  tf : (k'.proc p).tf = (k.proc p).tf
  kept : ∀ v < UPAGES, present (pte k.kmem.mem d v) = true → present (pte k'.kmem.mem d v) = true

section Touch

theorem Grows.refl (h : Caller L k free p d) : Grows L p d k k :=
  ⟨⟨free, h⟩, rfl, fun _ _ hp => hp⟩

theorem Grows.trans (h : Grows L p d k k') (h' : Grows L p d k' k'') : Grows L p d k k'' :=
  ⟨h'.caller, h'.tf.trans h.tf, fun v hv hp => h'.kept v hv (h.kept v hv hp)⟩

theorem pgflt_grows (h : Caller L k free p d) {u : Unit} (hrun : pgflt L p va k = .ret (u, k')) :
    Grows L p d k k' := by
  rcases pgflt_ret hrun with ⟨-, rfl⟩ | ⟨hle, hsmall, r, s', h0, halloc, rfl⟩
  · exact .refl h
  rw [h.pgdir] at halloc
  have ho := allocuvm_spec h.wf hsmall hle
  rw [halloc] at ho
  cases ho with
  | failed => exact absurd rfl h0
  | @mapped _ free' hw hm hold hnew _ =>
    have hkern := h.kern.moved hm fun v hin => hin.2.trans_le (pages_le hsmall.le)
    refine ⟨⟨free', ?_, ?_, hw, hkern⟩, ?_, fun v hv hp => ?_⟩
    · simpa using h.pgdir
    · simpa using h.kstack
    · simp
    · rw [hm.outside v (hv.trans UPAGES_lt) fun hin => by simp [hold v hin] at hp]
      exact hp

theorem Caller.dir_eq (h : Caller L k free p d) : V2P (k.proc p).pgdir / PGSIZE = d := by
  rw [h.pgdir]
  exact V2P_kva_div h.wf.dir_lt

theorem Caller.translate (h : Caller L k free p d) {w : Bool}
    (ht : translate k p va w = some f) : present (pte k.kmem.mem d (va / PGSIZE)) = true := by
  unfold Sys.translate at ht
  rw [h.dir_eq] at ht
  simp only at ht
  split_ifs at ht with hp
  exact hp.1

theorem touch_grows (h : Caller L k free p d) {w : Bool}
    (hrun : touch L p va w k = .ret (f, k')) :
    Grows L p d k k' ∧ present (pte k'.kmem.mem d (va / PGSIZE)) = true := by
  replace hrun := Prog.get_bind_ret hrun
  cases ht : translate k p va w with
  | some f' =>
    simp only [ht] at hrun
    cases Prog.pure_ret hrun
    exact ⟨.refl h, h.translate ht⟩
  | none =>
    simp only [ht] at hrun
    obtain ⟨_, k₁, hfault, hrun⟩ := Prog.bind_ret hrun
    have hg := pgflt_grows h hfault
    obtain ⟨free₁, h₁⟩ := hg.caller
    replace hrun := Prog.get_bind_ret hrun
    cases ht₁ : translate k₁ p va w with
    | some f' =>
      simp only [ht₁] at hrun
      cases Prog.pure_ret hrun
      exact ⟨hg, h₁.translate ht₁⟩
    | none =>
      simp only [ht₁] at hrun
      cases hrun

theorem readByte_grows (h : Caller L k free p d) {b : UInt8}
    (hrun : readByte L p va k = .ret (b, k')) :
    Grows L p d k k' ∧ present (pte k'.kmem.mem d (va / PGSIZE)) = true := by
  obtain ⟨f, k₁, ht, hrun⟩ := Prog.bind_ret hrun
  obtain ⟨-, rfl⟩ := Outcome.ret_inj hrun
  exact touch_grows h ht

def Present (k : Kernel) (d a b : ℕ) : Prop :=
  ∀ x, a ≤ x → x < b → present (pte k.kmem.mem d (x / PGSIZE)) = true

theorem Present.grows {b : ℕ} (h : Present k d a b) (hg : Grows L p d k k') (hb : b ≤ KERNBASE) :
    Present k' d a b := fun x hx hlt =>
  hg.kept _ (Nat.div_lt_of_lt_mul (hlt.trans_le hb)) (h x hx hlt)

theorem Present.snoc {b : ℕ} (h : Present k d a b)
    (hb : present (pte k.kmem.mem d (b / PGSIZE)) = true) : Present k d a (b + 1) := by
  intro x hx hlt
  rcases Nat.lt_succ_iff_lt_or_eq.1 hlt with hlt | rfl
  · exact h x hx hlt
  · exact hb

theorem Present.within (hp : Present k d a (a + len)) (h : Caller L k free p d)
    (hle : a + len ≤ KERNBASE) : Within k p a len := by
  refine ⟨hle, fun x hx hlt => ?_⟩
  have hpres := hp x hx hlt
  have huser := h.wf.tree.user _ (Nat.div_lt_of_lt_mul (hlt.trans_le hle)) hpres
  unfold userFrame
  rw [h.dir_eq]
  simp only
  rw [if_pos ⟨hpres, huser⟩]
  rfl

theorem readByte_snoc (h : Caller L k free p d) (hp : Present k d a va) (hva : va ≤ KERNBASE)
    {b : UInt8} (hrun : readByte L p va k = .ret (b, k')) :
    Grows L p d k k' ∧ Present k' d a (va + 1) := by
  obtain ⟨hg, hb⟩ := readByte_grows h hrun
  exact ⟨hg, (hp.grows hg hva).snoc hb⟩

theorem present_empty : Present k d a a := fun _ hx hlt => absurd hlt (Nat.not_lt.2 hx)

theorem readWord_grows (h : Caller L k free p d) (hva : va + 4 ≤ KERNBASE) {w : ℕ}
    (hrun : readWord L p va k = .ret (w, k')) :
    Grows L p d k k' ∧ Present k' d va (va + 4) := by
  obtain ⟨b₀, k₀, h₀, hrun⟩ := Prog.bind_ret hrun
  obtain ⟨b₁, k₁, h₁, hrun⟩ := Prog.bind_ret hrun
  obtain ⟨b₂, k₂, h₂, hrun⟩ := Prog.bind_ret hrun
  obtain ⟨b₃, k₃, h₃, hrun⟩ := Prog.bind_ret hrun
  cases Prog.pure_ret hrun
  obtain ⟨hg₀, hp₀⟩ := readByte_snoc h present_empty (by omega) h₀
  obtain ⟨_, hc₀⟩ := hg₀.caller
  obtain ⟨hg₁, hp₁⟩ := readByte_snoc hc₀ hp₀ (by omega) h₁
  obtain ⟨_, hc₁⟩ := hg₁.caller
  obtain ⟨hg₂, hp₂⟩ := readByte_snoc hc₁ hp₁ (by omega) h₂
  obtain ⟨_, hc₂⟩ := hg₂.caller
  obtain ⟨hg₃, hp₃⟩ := readByte_snoc hc₂ hp₂ (by omega) h₃
  exact ⟨((hg₀.trans hg₁).trans hg₂).trans hg₃, hp₃⟩

end Touch

section Arguments

theorem fetchint_within (h : Caller L k free p d) {w : ℕ}
    (hrun : fetchint L p a k = .ret (some w, k')) :
    Grows L p d k k' ∧ Within k' p a 4 := by
  have hT : STACK_TOP = 2147483644 := rfl
  have hK : KERNBASE = 2147483648 := rfl
  unfold fetchint at hrun
  split_ifs at hrun with hbad
  · cases Prog.pure_ret hrun
  obtain ⟨w', k₁, hread, hrun⟩ := Prog.bind_ret hrun
  cases Prog.pure_ret hrun
  -- an address below `STACK_TOP` is too small for the sum to wrap around
  have hadd : add32 a 4 = a + 4 := by
    unfold add32
    omega
  obtain ⟨hg, hp⟩ := readWord_grows h (by omega) hread
  obtain ⟨_, hc⟩ := hg.caller
  exact ⟨hg, hp.within hc (by omega)⟩

theorem fetchstrFrom_within (h : Caller L k free p d) (hp : Present k d a va) (hle : a ≤ va)
    (hn : va + n ≤ KERNBASE) (hrun : fetchstrFrom L p a n va k = .ret (some len, k')) :
    Grows L p d k k' ∧ Within k' p a (len + 1) := by
  induction n generalizing va k free with
  | zero => cases Prog.pure_ret hrun
  | succ n ih =>
    obtain ⟨b, k₁, hread, hrun⟩ := Prog.bind_ret hrun
    obtain ⟨hg, hp₁⟩ := readByte_snoc h hp (by omega) hread
    obtain ⟨_, hc₁⟩ := hg.caller
    split_ifs at hrun with hb
    · cases Prog.pure_ret hrun
      have hlast : a + (va - a + 1) = va + 1 := by omega
      exact ⟨hg, Present.within (hlast.symm ▸ hp₁) hc₁ (by omega)⟩
    · obtain ⟨hg', hw⟩ := ih hc₁ hp₁ (by omega) (by omega) hrun
      exact ⟨hg.trans hg', hw⟩

theorem fetchstr_within (h : Caller L k free p d)
    (hrun : fetchstr L p a k = .ret (some len, k')) :
    Grows L p d k k' ∧ Within k' p a (len + 1) := by
  have hT : STACK_TOP = 2147483644 := rfl
  have hK : KERNBASE = 2147483648 := rfl
  unfold fetchstr at hrun
  split_ifs at hrun with hbad
  · cases Prog.pure_ret hrun
  exact fetchstrFrom_within h present_empty (Nat.le_refl a) (by omega) hrun

theorem argint_within (h : Caller L k free p d) {w : ℕ}
    (hrun : argint L p n k = .ret (some w, k')) :
    Grows L p d k k' ∧ Within k' p (((k.proc p).tf.esp + 4 + 4 * n) % 2 ^ 32) 4 := by
  replace hrun := Prog.get_bind_ret hrun
  exact fetchint_within h hrun

theorem argstr_within (h : Caller L k free p d)
    (hrun : argstr L p n k = .ret (some (a, len), k')) :
    Grows L p d k k' ∧ Within k' p a (len + 1) := by
  obtain ⟨w, k₁, hint, hrun⟩ := Prog.bind_ret hrun
  cases w with
  | none => cases Prog.pure_ret hrun
  | some w =>
    obtain ⟨hg, -⟩ := argint_within h hint
    obtain ⟨_, hc⟩ := hg.caller
    obtain ⟨r, k₂, hstr, hrun⟩ := Prog.bind_ret hrun
    cases r with
    | none => cases Prog.pure_ret hrun
    | some len' =>
      cases Prog.pure_ret hrun
      obtain ⟨hg', hw⟩ := fetchstr_within hc hstr
      exact ⟨hg.trans hg', hw⟩

theorem argptr_bounds (h : Caller L k free p d) {size : ℤ} (hlt : size < 2 ^ 31)
    (hrun : argptr L p n size k = .ret (some a, k')) :
    Grows L p d k k' ∧ 0 ≤ size ∧ a + size.toNat ≤ STACK_TOP := by
  have hT : STACK_TOP = 2147483644 := rfl
  obtain ⟨w, k₁, hint, hrun⟩ := Prog.bind_ret hrun
  cases w with
  | none => cases Prog.pure_ret hrun
  | some w =>
    obtain ⟨hg, -⟩ := argint_within h hint
    simp only at hrun
    split_ifs at hrun with hbad
    · cases Prog.pure_ret hrun
    cases Prog.pure_ret hrun
    have hadd : add32 a size.toNat = a + size.toNat := by
      unfold add32
      omega
    exact ⟨hg, by omega, by omega⟩

end Arguments

section Gap

theorem exists_argument (L : Link) {w : ℕ} (hw : w + 1 ≤ STACK_TOP) :
    ∃ k free d, Caller L k free 0 d ∧ Mapped k.kmem.mem d 4096 1 ∧ (k.proc 0).sz = 4096 ∧
      (k.proc 0).stackSize = 1 ∧ argptr L 0 0 1 k = .ret (some w, k) := by
  have hT : STACK_TOP = 2147483644 := rfl
  obtain ⟨s, free, g, hwf, hkern, hmap, -⟩ := exists_space L (by decide : pages 4096 ≤ 40000)
  have hp : present (pte s.mem g 0) = true := (hmap 0 (by decide)).2 (Or.inl (by decide))
  obtain ⟨f, hf⟩ : ∃ f, frm s.mem g 0 = some f := ⟨_, frm_eq_some.2 ⟨hp, rfl⟩⟩
  -- `esp` is such that the argument is at address 0
  let k : Kernel := { loaded s.mem with
    kmem := s
    proc := fun _ => { noProc with
      sz := 4096, stackSize := 1, pgdir := kva g, kstack := kva 0, state := .running
      tf := ⟨0, 0, 2 ^ 32 - 4⟩ } }
  have hc : Caller L k free 0 g := ⟨rfl, kva_ne_zero 0, hwf, hkern⟩
  obtain ⟨hc', hpte, -⟩ := hc.poke hf w
  have hf' := (frm_congr (hpte 0 (by decide))).trans hf
  have hread : readWord L 0 0 (poke k f w) = .ret (w, poke k f w) := by
    rw [readWord_null (by rw [hc'.dir_eq]; exact hf')]
    rw [show (poke k f w).kmem.mem.word f 0 = w from Pages.word_setWord_self _ (by omega)]
  refine ⟨poke k f w, free, g, hc', fun v hv => ?_, rfl, rfl, ?_⟩
  · rw [hpte v (hv.trans UPAGES_lt)]
    exact hmap v hv
  · have hfetch : fetchint L 0 0 (poke k f w) = .ret (some w, poke k f w) := by
      unfold fetchint
      rw [if_neg (by decide), Prog.bind_of_ret hread]
      rfl
    have hesp : (((poke k f w).proc 0).tf.esp + 4 + 4 * 0) % 2 ^ 32 = 0 := by
      change (2 ^ 32 - 4 + 4 + 4 * 0) % 2 ^ 32 = 0
      decide
    have hint : argint L 0 0 (poke k f w) = .ret (some w, poke k f w) := by
      unfold argint
      rw [Prog.get_bind]
      simp only [hesp]
      exact hfetch
    have hadd : add32 w (1 : ℤ).toNat = w + 1 := by
      unfold add32
      omega
    unfold argptr
    rw [Prog.bind_of_ret hint]
    simp only
    rw [if_neg (by omega)]
    rfl

end Gap

theorem Caller.within_iff (h : Caller L k free p d) {sz stackSize : ℕ}
    (hmap : Mapped k.kmem.mem d sz stackSize) (hlen : 0 < len) (hle : a + len ≤ KERNBASE) :
    Within k p a len ↔ a + len ≤ 4096 * pages sz ∨ 4096 * (UPAGES - stackSize) ≤ a ∨
      UPAGES - stackSize ≤ pages sz := by
  have hU : UPAGES = 524288 := rfl
  have hK : KERNBASE = 2147483648 := rfl
  have hG : PGSIZE = 4096 := rfl
  constructor
  · intro hw
    by_contra hgap
    -- the first page of the block that is not in the heap
    have hx : max a (4096 * pages sz) / 4096 < UPAGES := by omega
    have hsome := hw.mapped (max a (4096 * pages sz)) (by omega) (by omega)
    have hpres : present (pte k.kmem.mem d (max a (4096 * pages sz) / 4096)) = true := by
      unfold userFrame at hsome
      rw [h.dir_eq] at hsome
      simp only [hG] at hsome
      split_ifs at hsome with hp
      · exact hp.1
      · cases hsome
    have := (hmap _ hx).1 hpres
    omega
  · intro hin
    refine Present.within (fun x hx hlt => ?_) h hle
    rw [hG]
    exact (hmap _ (by omega)).2 (by omega)

theorem arguments_within (h : Caller L k free p d) :
    (∀ a w k', fetchint L p a k = .ret (some w, k') → Within k' p a 4) ∧
    (∀ n w k', argint L p n k = .ret (some w, k') →
      Within k' p (((k.proc p).tf.esp + 4 + 4 * n) % 2 ^ 32) 4) ∧
    (∀ a len k', fetchstr L p a k = .ret (some len, k') → Within k' p a (len + 1)) ∧
    (∀ n a len k', argstr L p n k = .ret (some (a, len), k') → Within k' p a (len + 1)) ∧
    ∀ n (size : ℤ) a k', 0 < size → size < 2 ^ 31 →
      argptr L p n size k = .ret (some a, k') →
      Mapped k'.kmem.mem d (k'.proc p).sz (k'.proc p).stackSize →
      a + size.toNat ≤ STACK_TOP ∧ (Within k' p a size.toNat ↔
        a + size.toNat ≤ 4096 * pages (k'.proc p).sz ∨
        4096 * (UPAGES - (k'.proc p).stackSize) ≤ a ∨
        UPAGES - (k'.proc p).stackSize ≤ pages (k'.proc p).sz) := by
  refine ⟨fun a w k' hrun => (fetchint_within h hrun).2,
    fun n w k' hrun => (argint_within h hrun).2,
    fun a len k' hrun => (fetchstr_within h hrun).2,
    fun n a len k' hrun => (argstr_within h hrun).2, fun n size a k' hpos hlt hrun hmap => ?_⟩
  obtain ⟨hg, -, hle⟩ := argptr_bounds h hlt hrun
  obtain ⟨_, hc⟩ := hg.caller
  have hT : STACK_TOP = 2147483644 := rfl
  have hK : KERNBASE = 2147483648 := rfl
  exact ⟨hle, hc.within_iff hmap (by omega) (by omega)⟩

theorem arguments_within_heap : ∃ k free d, Caller Link.sample k free 0 d ∧
    argptr Link.sample 0 0 1 k = .ret (some 16, k) ∧ Within k 0 16 1 := by
  obtain ⟨k, free, d, hc, hmap, hsz, hstack, hrun⟩ :=
    exists_argument Link.sample (by decide : 16 + 1 ≤ STACK_TOP)
  have harg := (arguments_within hc).2.2.2.2 0 1 16 k (by decide) (by decide) hrun
    (by rw [hsz, hstack]; exact hmap)
  exact ⟨k, free, d, hc, hrun, harg.2.2 (Or.inl (by rw [hsz]; decide))⟩

/-- `argptr` accepts a pointer into the gap. -/
theorem argptr_into_gap : ∃ k free d, Caller Link.sample k free 0 d ∧
    Mapped k.kmem.mem d 4096 1 ∧ argptr Link.sample 0 0 1 k = .ret (some 0x10000, k) ∧
    ¬Within k 0 0x10000 1 := by
  obtain ⟨k, free, d, hc, hmap, -, -, hrun⟩ :=
    exists_argument Link.sample (by decide : 0x10000 + 1 ≤ STACK_TOP)
  refine ⟨k, free, d, hc, hmap, hrun, fun hw => ?_⟩
  have := (hc.within_iff hmap (by decide) (by decide)).1 hw
  revert this
  decide

end Xv6.Sys
