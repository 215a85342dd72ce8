import Xv6.Sys.Overrun

/-!
# A failed `exec`

`exec` with the calls that surround the work on the memory: the transaction, the inode of the file
and the name of the process. What `namei` answers for a path is a parameter; the inode it answers
is referenced once more. A lock that is taken is not released while this call runs.
-/

namespace Xv6.Sys
open Lib Vm

structure World where
  kernel : Kernel
  name : ℕ → List UInt8
  cwd : ℕ → ℕ
  ref : ℕ → ℕ
  locked : ℕ → Bool
  outstanding : ℕ

section Calls

def beginOp : Prog World Unit := .modify fun w => { w with outstanding := w.outstanding + 1 }

def endOp : Prog World Unit := .modify fun w => { w with outstanding := w.outstanding - 1 }

def iget (i : ℕ) : Prog World Unit :=
  .modify fun w => { w with ref := Function.update w.ref i (w.ref i + 1) }

def ilock (i : ℕ) : Prog World Unit := do
  let w ← .get
  if w.ref i < 1 then .panic "ilock"
  else if w.locked i then .hang
  else .set { w with locked := Function.update w.locked i true }

def iunlock (i : ℕ) : Prog World Unit := do
  let w ← .get
  if w.locked i = false ∨ w.ref i < 1 then .panic "iunlock"
  else .set { w with locked := Function.update w.locked i false }

def iput (i : ℕ) : Prog World Unit :=
  .modify fun w => { w with ref := Function.update w.ref i (w.ref i - 1) }

def iunlockput (i : ℕ) : Prog World Unit := do
  iunlock i
  iput i

variable (L : Link)

end Calls

variable {L : Link} {w w' : World} {k k' : Kernel} {s s' : Kmem} {free free' : List ℕ}
  {p g d i t : ℕ} {namei : List UInt8 → Option ℕ} {file : ℕ → Inode} {path : List UInt8}
  {argv : List (List UInt8)}

section Steps

def holding (w : World) (i : ℕ) : World :=
  { w with
    ref := Function.update w.ref i (w.ref i + 1)
    locked := Function.update w.locked i true
    outstanding := w.outstanding + 1 }

theorem iunlockput_holding (h : w.locked i = false) :
    iunlockput i (holding w i) =
      .ret ((), { w with outstanding := w.outstanding + 1 }) := by
  have hlocked : (holding w i).locked i = true := by simp [holding]
  have href : (holding w i).ref i = w.ref i + 1 := Function.update_self i _ w.ref
  have hunlock : Function.update (holding w i).locked i false = w.locked := by
    rw [show (holding w i).locked = Function.update w.locked i true from rfl,
      Function.update_idem, ← h, Function.update_eq_self]
  have hput : Function.update (holding w i).ref i ((holding w i).ref i - 1) = w.ref := by
    rw [href, show (holding w i).ref = Function.update w.ref i (w.ref i + 1) from rfl,
      Function.update_idem, Nat.add_sub_cancel, Function.update_eq_self]
  have hrun : iunlock i (holding w i) =
      .ret ((), { holding w i with locked := w.locked }) := by
    unfold iunlock
    rw [Prog.get_bind, if_neg, hunlock]
    · rfl
    · rw [hlocked, href]
      simp
  unfold iunlockput
  rw [Prog.bind_of_ret hrun]
  simp only [iput, Prog.modify_apply, hput]
  rfl

theorem release {β : Type} {x : Prog World β} (h : w.locked i = false) :
    (iunlockput i >>= fun _ => endOp >>= fun _ => x) (holding w i) = x w := by
  rw [Prog.bind_of_ret (iunlockput_holding h)]
  rfl

end Steps

section Failure

end Failure

section Unmapped

theorem pushAll_long {y f : ℕ} {str : List UInt8} (h : Rogue L k free p g f t)
    (ht : Inner k.kmem.mem g t) (hready : Ready L k.kmem free d 0 s free')
    (htab : tab s.mem d 511 = some y) (hnone : tab s.mem d 510 = none)
    (hsp : argSp STACK_TOP str = 0x7fbffff0) (hlen : 4096 ≤ str.length) :
    pushAll L p (kva d) [str] { k with kmem := s } =
      .ret (none, written { k with kmem := s } t 4080 ((str ++ [0]).take 16)) := by
  have hc := h.caller
  have hreach : Reach L { k with kmem := s } p d := hready.fresh.reach hc.wf hc.kern hc.pgdir
  have hbeside := hready.fresh.beside hc.wf
  obtain ⟨-, hpte, -, hown⟩ := hc.wf.tree.keep fun q hq => hbeside q hq.own
  have hcur : V2P (k.proc p).pgdir / PGSIZE = g := by
    rw [hc.pgdir]
    exact V2P_kva_div hc.wf.dir_lt
  have hf₁ : frm s.mem (V2P (k.proc p).pgdir / PGSIZE) 0 = some f := by
    rw [hcur, frm_congr (hpte 0 (by decide))]
    exact h.page
  have hword₁ : s.mem.word f 0 = userEntry t := by
    rw [Pages.word_congr (hbeside f (Tree.frm_own (by decide) h.page))]
    exact h.word
  have hnot : ¬Own s.mem d t := fun ho =>
    hc.wf.apart t ((hready.fresh.conserve t).1 (Or.inr ho)) ht.own
  have hcopy : copyout L p (kva d) 0x7fbffff0 (str ++ [0]) { k with kmem := s } =
      .ret (-1, written { k with kmem := s } t 4080 ((str ++ [0]).take 16)) :=
    copyout_below (k := { k with kmem := s }) hready hreach hnone htab hf₁ hword₁
      (hc.wf.tree.page t ht.own) hnot rfl (by
        rw [List.length_append, List.length_singleton]
        omega)
  have hpush : pushArgs L p (kva d) [str] STACK_TOP [] { k with kmem := s } =
      .ret (none, written { k with kmem := s } t 4080 ((str ++ [0]).take 16)) := by
    rw [pushArgs, if_neg (by decide)]
    have hsp' : sub32 STACK_TOP ((str.length + 1) % 2 ^ 32) / 4 * 4 = 0x7fbffff0 := hsp
    rw [hsp', Prog.bind_of_ret hcopy]
    rfl
  unfold pushAll
  rw [Prog.bind_of_ret hpush]
  rfl

theorem pushAll_overwrites {front rest : List ℕ} {y u f : ℕ} {str : List UInt8}
    (h : Rogue L k (front ++ y :: u :: rest) p g f t) (ht : tab k.kmem.mem g 0 = some t)
    (hfront : front.length = 65) (hsp : argSp STACK_TOP str = 0x7fbffff0)
    (hlen : 4096 ≤ str.length) :
    ∃ d s₁ s₂ k₂ s₃, setupkvm L k.kmem = .ret (kva d, s₁) ∧
      allocuvm L (kva d) (sub32 STACK_TOP PGSIZE) STACK_TOP s₁ = .ret (STACK_TOP, s₂) ∧
      pushAll L p (kva d) [str] { k with kmem := s₂ } = .ret (none, k₂) ∧
      freevm L (kva d) k₂.kmem = .ret ((), s₃) ∧ k₂ = { k with kmem := k₂.kmem } ∧
      ∀ v < 1024, pte s₃.mem g v =
        (patch s₂.mem t 4080 ((str ++ [0]).take 16)).word t v := by
  have hw := h.caller.wf
  have hinner : Inner k.kmem.mem g t := Or.inr ⟨0, by decide, ht⟩
  obtain ⟨d, s₁, s₂, hsetup, halloc, hready, hstack, hnone⟩ := bare_space hw.pool hfront
  have hpush := pushAll_long h hinner hready hstack (hnone 510 (by decide)) hsp hlen
  have hmem : ∀ q, q ≠ t →
      (written { k with kmem := s₂ } t 4080 ((str ++ [0]).take 16)).kmem.mem q = s₂.mem q :=
    fun q hq => written_mem hq
  have hnot : ∀ q, Own k.kmem.mem g q → ¬Own s₂.mem d q := fun q hq ho =>
    hw.apart q ((hready.fresh.conserve q).1 (Or.inr ho)) hq
  have hnotFree : ∀ q, Own k.kmem.mem g q → q ∉ rest := fun q hq hin =>
    hw.apart q ((hready.fresh.conserve q).1 (Or.inl hin)) hq
  have hkeep : ∀ q, Inner s₂.mem d q →
      (written { k with kmem := s₂ } t 4080 ((str ++ [0]).take 16)).kmem.mem q = s₂.mem q :=
    fun q hq => hmem q fun heq => hnot t hinner.own (heq ▸ hq.own)
  obtain ⟨-, -, htree, hown⟩ := hready.fresh.wf.tree.keep hkeep
  have hw₂ : Wf L (written { k with kmem := s₂ } t 4080 ((str ++ [0]).take 16)).kmem rest d := by
    refine ⟨hready.fresh.wf.pool.congr rfl fun q hq => hmem q fun heq => ?_, htree, fun q hq ho => ?_⟩
    · exact hnotFree t hinner.own (heq ▸ hq)
    · exact hready.fresh.wf.apart q hq ((hown q).1 ho)
  obtain ⟨s₃, free₃, hfree, -, -, hother⟩ := freevm_spec hw₂
  have hsame : ∀ q, Own k.kmem.mem g q → s₃.mem q =
      (written { k with kmem := s₂ } t 4080 ((str ++ [0]).take 16)).kmem.mem q := fun q hq =>
    hother q (hnotFree q hq) fun ho => hnot q hq ((hown q).1 ho)
  refine ⟨d, s₁, s₂, _, s₃, hsetup, halloc, hpush, hfree, rfl, fun v hv => ?_⟩
  have hdir : s₃.mem g = k.kmem.mem g := by
    have hg : Own k.kmem.mem g g := ⟨.dir, rfl⟩
    rw [hsame g hg, hmem g (hw.tree.dir.tab_ne_dir (by decide) ht).symm]
    exact hready.fresh.beside hw g hg
  have htab : tab s₃.mem g (v / 1024) = some t := by
    rw [Nat.div_eq_of_lt hv]
    exact (tab_congr hdir).trans ht
  rw [pte_of_tab htab, Nat.mod_eq_of_lt hv, Pages.word_congr (hsame t hinner.own)]
  rfl

end Unmapped

end Xv6.Sys
